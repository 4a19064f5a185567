import Furthest.Labels

/-!
# Failure records

A record says how deep the deepest failure seen so far was and what would have matched there.
`Record.merge` keeps the deeper of two records and joins the labels of two at the same depth.
-/

namespace Furthest

/-- The deepest failure seen: its index and what was expected there. Without an index no failure has
been seen. -/
structure Record where
  index : Option Nat
  labels : Labels
deriving DecidableEq

namespace Record

/-- No failure has been seen. -/
def empty : Record := ⟨none, ∅⟩

instance : EmptyCollection Record := ⟨empty⟩
instance : Inhabited Record := ⟨empty⟩

@[simp] theorem index_empty : (∅ : Record).index = none := rfl
@[simp] theorem labels_empty : (∅ : Record).labels = ∅ := rfl

/-- A failure at an index, where one of the labels would have matched. -/
def raised (index : Nat) (labels : Labels) : Record := ⟨some index, labels⟩

/-- The record has an index, so that a failure has been seen. -/
def isEngaged (r : Record) : Bool := r.index.isSome

/-- The deeper record wins; records of the same depth join their labels. A record without an index
gives way to the first argument. -/
def merge (x y : Record) : Record :=
  match x.index, y.index with
  | _, none => x
  | none, some _ => y
  | some i, some j =>
    if i < j then y
    else if j < i then x
    else ⟨some i, x.labels ∪ y.labels⟩

/-- A record without an index adds nothing. -/
theorem merge_of_index_eq_none {x y : Record} (h : y.index = none) : x.merge y = x := by
  simp [merge, h]

@[simp] theorem merge_empty (x : Record) : x.merge ∅ = x := merge_of_index_eq_none rfl

/-- A record without an index gives way to one that has an index. -/
theorem merge_of_isEngaged {x y : Record} (hx : x.index = none) (hy : y.isEngaged) : x.merge y = y := by
  obtain ⟨j, hj⟩ := Option.isSome_iff_exists.1 hy
  simp [merge, hx, hj]

/-- The merged record has the greater of the two indexes. -/
theorem index_merge (x y : Record) :
    (x.merge y).index = match x.index, y.index with
      | i, none => i
      | none, some j => some j
      | some i, some j => some (max i j) := by
  unfold merge
  cases hx : x.index <;> cases hy : y.index
  · exact hx
  · exact hy
  · exact hx
  · dsimp only
    split
    · next h => rw [hy, Nat.max_eq_right (Nat.le_of_lt h)]
    · split
      · next h => rw [hx, Nat.max_eq_left (Nat.le_of_lt h)]
      · rw [Nat.max_eq_left (Nat.le_of_not_lt ‹_›)]

@[simp] theorem isEngaged_merge (x y : Record) : (x.merge y).isEngaged = (x.isEngaged || y.isEngaged) := by
  simp only [isEngaged, index_merge]
  split <;> simp_all

end Record

end Furthest
