import Furthest.Record
import Furthest.Fault

/-!
# Outcomes

A `Result` is the outcome of invoking a parser at a cursor. Both variants carry the deepest failure
seen while they were produced, so that a success can still hand a deep diagnostic to whatever runs
after it. A failure is made by `Result.fail`, or by `Result.ofRecord` from a record that must have an
index; `Result.failedAs` hands a failure on to a parser of another type.
-/

namespace Furthest

/-- The outcome of invoking a parser at a cursor. -/
inductive Result (α : Type) where
  /-- A value, the cursor after the consumed input, and the deepest failure seen. -/
  | success (value : α) (next : Nat) (furthest : Record)
  /-- The cursor at which the failure was made, and the deepest failure seen. -/
  | failure (cursor : Nat) (furthest : Record)
deriving DecidableEq

namespace Result

variable {α β : Type}

/-- The deepest failure seen while the outcome was produced. -/
def furthest : Result α → Record
  | success _ _ r => r
  | failure _ r => r

/-- The cursor kept in the outcome: after the consumed input, or where the failure was made. -/
def cursor : Result α → Nat
  | success _ next _ => next
  | failure cursor _ => cursor

/-- The value of a success. -/
def value? : Result α → Option α
  | success v _ _ => some v
  | failure _ _ => none

def isSuccess : Result α → Bool
  | success .. => true
  | failure .. => false

/-- What would have matched at the deepest failure. -/
def expected (r : Result α) : Labels := r.furthest.labels

/-- The index of the deepest failure. -/
def index (r : Result α) : Except Fault Nat :=
  match r.furthest.index with
  | some i => .ok i
  | none => .error .missingIndex

/-- A failure at an index where one of the labels would have matched. -/
def fail (index : Nat) (labels : Labels) : Result α := failure index (.raised index labels)

/-- The failure that a record describes. -/
def ofRecord (r : Record) : Except Fault (Result α) :=
  match r.index with
  | some i => .ok (failure i r)
  | none => .error .failureWithoutIndex

/-- The outcome that has also seen the failure of another record. -/
def aggregate (other : Record) : Result α → Result α
  | success v next r => success v next (r.merge other)
  | failure cursor r => failure cursor (r.merge other)

/-- The failure of an outcome as an outcome of another type, made anew from its record. -/
def failedAs (r : Result α) : Except Fault (Result β) := ofRecord r.furthest

/-- Changes the value of a success and nothing else. -/
def map (f : α → β) : Result α → Result β
  | success v next r => success (f v) next r
  | failure cursor r => failure cursor r

@[simp] theorem furthest_fail (index : Nat) (labels : Labels) :
    (fail index labels : Result α).furthest = .raised index labels := rfl

@[simp] theorem furthest_aggregate (r : Result α) (other : Record) :
    (r.aggregate other).furthest = r.furthest.merge other := by
  cases r <;> rfl

@[simp] theorem isSuccess_aggregate (r : Result α) (other : Record) :
    (r.aggregate other).isSuccess = r.isSuccess := by
  cases r <;> rfl

@[simp] theorem furthest_map (f : α → β) (r : Result α) : (r.map f).furthest = r.furthest := by
  cases r <;> rfl

@[simp] theorem aggregate_empty (r : Result α) : r.aggregate ∅ = r := by
  cases r <;> simp [aggregate]

/-- A failure is made of a record exactly if the record has an index. -/
theorem ofRecord_eq_ok_iff {r : Record} {x : Result α} :
    ofRecord r = .ok x ↔ ∃ i, r.index = some i ∧ x = failure i r := by
  unfold ofRecord
  split <;> simp_all [eq_comm]

end Result

end Furthest
