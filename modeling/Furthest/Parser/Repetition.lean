import Furthest.Parser.Sequence

/-!
# Repetition

A repetition has a least and a greatest count, and `unbounded` as the greatest count means that there is
none. Each loop recurses on how many values may still come, so it ends for every parser; a match without
consumption ends an unbounded repetition as soon as its least count is reached, because it would match the
same way forever. `Bounds.of_eq_error_iff` says which bounds are refused.
-/

namespace Furthest

/-- The greatest count there is. As an upper bound it stands for none. -/
def unbounded : Nat := UInt64.size - 1

/-- The least and the greatest count of a repetition. -/
structure Bounds where
  min : Nat
  max : Nat
  min_le_max : min ≤ max
deriving DecidableEq, Repr

namespace Bounds

/-- The bounds of a repetition, which reports them if they are reversed. -/
def of (repetition : Repetition) (min max : Nat) : Except Fault Bounds :=
  if h : min ≤ max then .ok ⟨min, max, h⟩ else .error (.reversedBounds repetition)

/-- The counts from `lower` up to but not including `upper`. -/
def ofRange (lower upper : Nat) : Except Fault Bounds :=
  if h : lower < upper then .ok ⟨lower, upper - 1, by omega⟩ else .error .emptyRange

/-- Bounds are refused exactly if they are reversed. -/
theorem of_eq_error_iff {repetition : Repetition} {min max : Nat} :
    of repetition min max = .error (.reversedBounds repetition) ↔ max < min := by
  unfold of
  split
  · next h => simp only [reduceCtorEq, false_iff]; omega
  · next h => simp only [true_iff]; omega

/-- Exactly `n`. -/
def exactly (n : Nat) : Bounds := ⟨n, n, Nat.le_refl n⟩

/-- At most `n`. -/
def atMost (n : Nat) : Bounds := ⟨0, n, Nat.zero_le n⟩

/-- Any count. -/
def any : Bounds := atMost unbounded

/-- No greatest count limits the repetition. -/
def isOpen (b : Bounds) : Bool := b.max = unbounded

/-- The bounds of what follows a first value: each bound is one less, and no bound stays no bound. -/
def pred (b : Bounds) : Bounds :=
  ⟨b.min - 1, if b.max = unbounded then unbounded else b.max - 1, by
    have := b.min_le_max
    split <;> omega⟩

end Bounds

namespace Parser

variable {σ ι α β : Type}

/-- Repeats `p` from a cursor, with the record of what ran before. At most `remaining` values may still
come, and `needed` of them must. -/
def timesFrom (p : Parser σ ι α) (isOpen : Bool) (xs : List ι) :
    (remaining needed : Nat) → Nat → Record → Run σ (Result (List α))
  | 0, _, i, r => return .success [] i r
  | remaining + 1, needed, i, r => do
    match (← p xs i).aggregate r with
    | .failure _ r => if needed = 0 then return .success [] i r else Run.ofExcept (Result.ofRecord r)
    | .success v next r =>
      if next = i ∧ isOpen ∧ needed ≤ 1 then return .success [v] next r
      else return (← timesFrom p isOpen xs remaining (needed - 1) next r).map (v :: ·)

/-- The values of a repetition within bounds. -/
def times (p : Parser σ ι α) (b : Bounds) : Parser σ ι (List α) := fun xs i =>
  timesFrom p b.isOpen xs b.max b.min i ∅

/-- As many values as there are. -/
def many (p : Parser σ ι α) : Parser σ ι (List α) := p.times .any

/-- At least one value. -/
def oneOrMore (p : Parser σ ι α) : Parser σ ι (List α) := p.times ⟨1, unbounded, by decide⟩

/-- One value or none. -/
def optional (p : Parser σ ι α) : Parser σ ι (Option α) := (p.times (.atMost 1)).map List.head?

/-- A first value, and what `rest` finds after it. -/
def consFrom (p : Parser σ ι α) (rest : Parser σ ι (List α)) : Parser σ ι (List α) := fun xs i => do
  (← p xs i).proceed fun v next r => return ((← rest xs next).aggregate r).map (v :: ·)

/-- Values with a separator between any two of them. A separator is consumed only if a value follows. -/
def sepBy (p : Parser σ ι α) (sep : Parser σ ι β) (b : Bounds) : Parser σ ι (List α) :=
  if b.max = 0 then succeed []
  else
    let values := p.consFrom ((sep.andThen p).times b.pred)
    if 0 < b.min then values
    else fun xs i => do
      match ← values xs i with
      | .success vs next r => return .success vs next r
      | .failure _ r => return .success [] i r

/-- Repeats `p` from a cursor while `stop` fails there, with the record of what ran before. At most
`remaining` values may still come, and `needed` of them must. -/
def manyUntilFrom (p : Parser σ ι α) (stop : Parser σ ι β) (isOpen : Bool) (xs : List ι) :
    (remaining needed : Nat) → Nat → Record → Run σ (Result (List α))
  | 0, _, i, r => return .success [] i r
  | remaining + 1, needed, i, r => do
    let stopped := (← stop xs i).aggregate r
    if stopped.isSuccess ∧ needed = 0 then return .success [] i stopped.furthest
    else
      ((← p xs i).aggregate stopped.furthest).proceed fun v next r => do
        if next = i ∧ stopped.isSuccess = false ∧ isOpen then Run.ofExcept (Result.ofRecord r)
        else return (← manyUntilFrom p stop isOpen xs remaining (needed - 1) next r).map (v :: ·)

/-- The values before `stop` succeeds, which is left unconsumed. A match without consumption where `stop`
fails ends an unbounded repetition in failure: `stop` would never succeed. -/
def manyUntil (p : Parser σ ι α) (stop : Parser σ ι β) (b : Bounds) : Parser σ ι (List α) := fun xs i =>
  manyUntilFrom p stop b.isOpen xs b.max b.min i ∅

end Parser

end Furthest
