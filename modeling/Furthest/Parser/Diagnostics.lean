import Furthest.Parser.Basic

/-!
# Diagnostics and lookahead

`desc` replaces what a failing parser expects by a label of its own, `shouldFail` and `peek` look ahead
without consuming, and `traced` logs every attempt and how it ended.
-/

namespace Furthest.Parser

variable {σ ι α : Type}

/-- Names a parser: where it fails, the label is expected at its start. -/
def desc (p : Parser σ ι α) (label : Bytes) : Parser σ ι α := fun xs i => do
  match ← p xs i with
  | .success v next r => return .success v next r
  | .failure .. => return .fail i (.singleton label)

/-- Succeeds without consuming exactly where a parser fails. -/
def shouldFail (p : Parser σ ι α) (label : Bytes) : Parser σ ι Unit := fun xs i => do
  match ← p xs i with
  | .success .. => return .fail i (.singleton label)
  | .failure .. => return .success () i ∅

/-- Gives back what was consumed. -/
def peek (p : Parser σ ι α) : Parser σ ι α := fun xs i => do
  match ← p xs i with
  | .success v _ r => return .success v i r
  | .failure cursor r => return .failure cursor r

/-- The log entry for the end of an attempt. -/
def outcomeEntry (name : Bytes) (start : Nat) (r : Result α) : Except Fault Entry :=
  match r with
  | .success _ next _ => .ok (.matched name start next)
  | .failure .. => do return .failed name start (← r.index) r.expected

/-- Logs every attempt under a name, and how it ended. -/
def traced (p : Parser σ ι α) (name : Bytes) : Parser σ ι α := fun xs i => do
  Run.record (.attempted name i)
  let r ← p xs i
  Run.record (← Run.ofExcept (outcomeEntry name i r))
  return r

end Furthest.Parser
