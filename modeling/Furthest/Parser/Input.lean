import Furthest.Parser.Basic
import Furthest.ParseError

/-!
# Parsing an input

`parse` takes the whole input, `parsePartial` a first part of it. Both start at its beginning and report a
rejected input as a `ParseError`.
-/

namespace Furthest.Parser

variable {σ ι α : Type} [Item ι]

/-- The value of the whole input. Where more input follows, its end was expected too. -/
def parse (p : Parser σ ι α) (xs : List ι) : Run σ (Except ParseError α) := do
  match ← p xs 0 with
  | .failure _ r => return .error (.ofRecord xs r)
  | .success v next r =>
    if next = xs.length then return .ok v
    else return .error (.ofRecord xs ((Record.raised next (.singleton endLabel)).merge r))

/-- The value of a first part of the input, and the rest. -/
def parsePartial (p : Parser σ ι α) (xs : List ι) : Run σ (Except ParseError (α × List ι)) := do
  match ← p xs 0 with
  | .failure _ r => return .error (.ofRecord xs r)
  | .success v next _ => return .ok (v, xs.drop next)

end Furthest.Parser
