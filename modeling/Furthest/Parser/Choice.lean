import Furthest.Parser.Basic

/-!
# Ordered choice

`alt` tries parsers in order at the same cursor and ends with the first success, which has also seen the
failures before it. If all fail, it fails with what they saw together.
-/

namespace Furthest.Parser

variable {σ ι α : Type}

/-- Tries the rest of a choice, with the record of what failed before. -/
def altFrom (xs : List ι) (i : Nat) : List (Parser σ ι α) → Record → Run σ (Result α)
  | [], r => if r.isEngaged then Run.ofExcept (Result.ofRecord r) else return .fail i ∅
  | p :: ps, r => do
    match (← p xs i).aggregate r with
    | .success v next r => return .success v next r
    | .failure _ r => altFrom xs i ps r

/-- The first parser of a list that succeeds. The empty choice fails and expects nothing. -/
def alt (ps : List (Parser σ ι α)) : Parser σ ι α := fun xs i => altFrom xs i ps ∅

/-- The first parser, or else the second. -/
def orElse (p q : Parser σ ι α) : Parser σ ι α := alt [p, q]

end Furthest.Parser
