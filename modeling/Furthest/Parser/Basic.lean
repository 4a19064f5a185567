import Furthest.Run

/-!
# Parsers

A parser is invoked on an input at a cursor, and ends with an outcome. This module has the parsers that
look at one item or at none; the other modules of `Parser` combine them.
-/

namespace Furthest

/-- A class of items, and what is expected where an item is not of it. -/
structure ItemClass (ι : Type) where
  accepts : ι → Bool
  label : Bytes

namespace ItemClass

variable {ι : Type}

/-- All items. -/
def any : ItemClass ι := ⟨fun _ => true, ascii "any item"⟩

/-- One item alone. -/
def only [DecidableEq ι] (x : ι) (label : Bytes) : ItemClass ι := ⟨(· = x), label⟩

end ItemClass

/-- A parser of values `α` from a sequence of items `ι`, invoked at a cursor. -/
def Parser (σ ι α : Type) : Type := List ι → Nat → Run σ (Result α)

namespace Parser

variable {σ ι α : Type}

/-- Succeeds with a value, consuming nothing. -/
def succeed (v : α) : Parser σ ι α := fun _ i => return .success v i ∅

/-- Fails, expecting a label. -/
def fail (label : Bytes) : Parser σ ι α := fun _ i => return .fail i (.singleton label)

/-- Gives the whole invocation up. -/
def giveUp (cause : Fault) : Parser σ ι α := fun _ _ => Run.giveUp cause

/-- The cursor, consuming nothing. -/
def position : Parser σ ι Nat := fun _ i => return .success i i ∅

/-- The label of the end of the input. -/
def endLabel : Bytes := ascii "EOF"

/-- Succeeds at the end of the input and beyond. -/
def eof : Parser σ ι Unit := fun xs i =>
  return if xs.length ≤ i then .success () i ∅ else .fail i (.singleton endLabel)

/-- One item of a class. -/
def satisfy (c : ItemClass ι) : Parser σ ι ι := fun xs i =>
  return match xs[i]? with
    | some x => if c.accepts x then .success x (i + 1) ∅ else .fail i (.singleton c.label)
    | none => .fail i (.singleton c.label)

/-- The given item, under a label. -/
def item [DecidableEq ι] (x : ι) (label : Bytes) : Parser σ ι ι := satisfy (.only x label)

/-- Any item. -/
def anyItem : Parser σ ι ι := satisfy .any

end Parser

end Furthest
