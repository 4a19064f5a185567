import Furthest.Parser.Basic

/-!
# Changing values, and going on from them

`map` and `tryMap` change the value of a success, `bind` goes on with a parser computed from it, and `mark`
notes where the value was found.
-/

namespace Furthest

/-- A value with the cursors at which its text starts and ends. -/
structure Marked (α : Type) where
  start : Nat
  value : α
  stop : Nat
deriving DecidableEq, Repr

namespace Parser

variable {σ ι α β : Type}

/-- Changes the value by a function that may decline it. -/
def tryMap (p : Parser σ ι α) (f : α → Except Fault β) : Parser σ ι β := fun xs i => do
  (← p xs i).proceed fun v next r => return .success (← Run.ofExcept (f v)) next r

/-- Changes the value. -/
def map (p : Parser σ ι α) (f : α → β) : Parser σ ι β := p.tryMap fun v => .ok (f v)

/-- Replaces the value. -/
def replace (p : Parser σ ι α) (v : β) : Parser σ ι β := p.map fun _ => v

/-- Goes on with the parser that a function computes from the value. -/
def bind (p : Parser σ ι α) (f : α → Parser σ ι β) : Parser σ ι β := fun xs i => do
  (← p xs i).proceed fun v next r => return (← f v xs next).aggregate r

/-- Names the value. -/
def tag (p : Parser σ ι α) (name : Bytes) : Parser σ ι (Bytes × α) := p.map fun v => (name, v)

/-- Notes where the value starts and ends. -/
def mark (p : Parser σ ι α) : Parser σ ι (Marked α) := fun xs i => do
  (← p xs i).proceed fun v next r => return .success ⟨i, v, next⟩ next r

/-- Joins a list of byte strings. -/
def concat (p : Parser σ ι (List Bytes)) : Parser σ ι Bytes := p.map List.flatten

end Parser

end Furthest
