import Furthest.Parser.Transform

/-!
# Sequences of parsers

Parsers run one after the other, each from the cursor that the one before it reached, and stop at the first
failure. `andThen` keeps the second value, `skip` the first, `pair` both. A sequence of any length is
composed of pairs by `tuple`; `sequence` runs a list in one pass that hands the record along.
-/

namespace Furthest.Parser

variable {σ ι α β γ : Type}

/-- The second of two values. -/
def andThen (p : Parser σ ι α) (q : Parser σ ι β) : Parser σ ι β := fun xs i => do
  (← p xs i).proceed fun _ next r => return (← q xs next).aggregate r

/-- The first of two values. A failure of the first parser is handed on as it is. -/
def skip (p : Parser σ ι α) (q : Parser σ ι β) : Parser σ ι α := fun xs i => do
  match ← p xs i with
  | .failure cursor r => return .failure cursor r
  | .success v next r =>
    ((← q xs next).aggregate r).proceed fun _ next r => return .success v next r

/-- Both of two values. -/
def pair (p : Parser σ ι α) (q : Parser σ ι β) : Parser σ ι (α × β) := fun xs i => do
  (← p xs i).proceed fun v next r => do
    ((← q xs next).aggregate r).proceed fun w next r => return .success (v, w) next r

/-- The values of all parsers, by pairs: the first value and those of the rest. -/
def tuple : List (Parser σ ι α) → Parser σ ι (List α)
  | [] => succeed []
  | p :: ps => (pair p (tuple ps)).map fun (v, vs) => v :: vs

/-- Runs the rest of a sequence at a cursor, with the record of what ran before. -/
def sequenceFrom (xs : List ι) : List (Parser σ ι α) → Nat → Record → Run σ (Result (List α))
  | [], i, r => return .success [] i r
  | p :: ps, i, r => do
    ((← p xs i).aggregate r).proceed fun v next r =>
      return (← sequenceFrom xs ps next r).map (v :: ·)

/-- The values of all parsers, in one pass. -/
def sequence (ps : List (Parser σ ι α)) : Parser σ ι (List α) := fun xs i => sequenceFrom xs ps i ∅

/-- Two values combined. -/
def combine₂ (f : α → β → γ) (p : Parser σ ι α) (q : Parser σ ι β) : Parser σ ι γ :=
  (pair p q).map fun (v, w) => f v w

end Furthest.Parser
