import Furthest.Record
import Furthest.Expectation
import Furthest.Place

/-!
# Parse errors

A rejected input is reported as one error: what was expected at the deepest failure, the index of that
failure and the text of its place. `ParseError.text` is the full wording, and `ParseError.message` what a
reader of zero-terminated text sees of it.
-/

namespace Furthest

/-- Why an input was rejected. -/
structure ParseError where
  expected : Labels
  index : Nat
  position : Bytes
deriving DecidableEq

namespace ParseError

/-- The error for the deepest failure in an input. A record without an index points at its start. -/
def ofRecord {ι : Type} [Item ι] (input : List ι) (r : Record) : ParseError :=
  let index := r.index.getD 0
  ⟨r.labels, index, Item.describe input index⟩

/-- The full wording of an error. -/
def text (e : ParseError) : Bytes :=
  if e.expected = ∅ then ascii "unexpected input at " ++ e.position
  else ascii "expected " ++ e.expected.render ++ ascii " at " ++ e.position

/-- The wording of an error up to its first zero byte. -/
def message (e : ParseError) : Bytes := e.text.beforeZero

end ParseError

end Furthest
