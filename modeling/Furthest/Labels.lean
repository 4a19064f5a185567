import Furthest.Bytes

/-!
# Sets of labels

What would have matched at a place is a set of labels, kept as a strictly increasing list, so that
a set has one representation and is printed in the order of its labels. Main statements:
`Labels.ext` (sets with the same members are equal), `Labels.mem_insert` and `Labels.mem_union`.
-/

namespace Furthest

/-- A finite set of labels, listed in strictly increasing order. -/
structure Labels where
  toList : List Bytes
  sorted : toList.Pairwise (· < ·)
deriving DecidableEq

namespace Labels

instance : Membership Bytes Labels := ⟨fun s label => label ∈ s.toList⟩

theorem mem_toList {s : Labels} {label : Bytes} : label ∈ s.toList ↔ label ∈ s := Iff.rfl

/-- The set without labels. -/
def empty : Labels := ⟨[], .nil⟩

instance : EmptyCollection Labels := ⟨empty⟩
instance : Inhabited Labels := ⟨empty⟩

@[simp] theorem not_mem_empty (label : Bytes) : label ∉ (∅ : Labels) := List.not_mem_nil

/-- Puts a label at its place in an increasing list that may already hold it. -/
def place (label : Bytes) : List Bytes → List Bytes
  | [] => [label]
  | x :: xs =>
    if label < x then label :: x :: xs
    else if label = x then x :: xs
    else x :: place label xs

theorem mem_place {label y : Bytes} {xs : List Bytes} : y ∈ place label xs ↔ y = label ∨ y ∈ xs := by
  induction xs with
  | nil => simp [place]
  | cons x xs ih =>
    unfold place
    split
    · simp
    · split
      · next h => subst h; simp
      · simp only [List.mem_cons, ih]
        exact or_left_comm

theorem pairwise_place (label : Bytes) {xs : List Bytes} (h : xs.Pairwise (· < ·)) :
    (place label xs).Pairwise (· < ·) := by
  induction xs with
  | nil => simp [place]
  | cons x xs ih =>
    have ⟨hx, hxs⟩ := List.pairwise_cons.1 h
    unfold place
    split
    · next hlt => exact List.pairwise_cons.2 ⟨fun y hy => by
        rcases List.mem_cons.1 hy with rfl | hy
        · exact hlt
        · exact List.lt_trans hlt (hx y hy), h⟩
    · split
      · exact h
      · next hlt hne =>
        refine List.pairwise_cons.2 ⟨fun y hy => ?_, ih hxs⟩
        rcases mem_place.1 hy with rfl | hy
        · rcases Bytes.lt_or_eq_or_gt x y with h | h | h
          · exact h
          · exact absurd h.symm hne
          · exact absurd h hlt
        · exact hx y hy

/-- The set with one more label. -/
def insert (label : Bytes) (s : Labels) : Labels :=
  ⟨place label s.toList, pairwise_place label s.sorted⟩

@[simp] theorem mem_insert {label y : Bytes} {s : Labels} : y ∈ s.insert label ↔ y = label ∨ y ∈ s :=
  mem_place

/-- The set of one label. -/
def singleton (label : Bytes) : Labels := (∅ : Labels).insert label

@[simp] theorem mem_singleton {label y : Bytes} : y ∈ singleton label ↔ y = label := by
  simp [singleton]

/-- The set of the members of a list in any order, with repetitions or without. -/
def ofList (labels : List Bytes) : Labels := labels.foldr insert ∅

@[simp] theorem mem_ofList {labels : List Bytes} {y : Bytes} : y ∈ ofList labels ↔ y ∈ labels := by
  induction labels with
  | nil => simp [ofList]
  | cons label labels ih =>
    show y ∈ (ofList labels).insert label ↔ _
    rw [mem_insert, ih, List.mem_cons]

/-- The labels of either set. -/
def union (s t : Labels) : Labels := s.toList.foldr insert t

instance : Union Labels := ⟨union⟩

@[simp] theorem mem_union {s t : Labels} {y : Bytes} : y ∈ s ∪ t ↔ y ∈ s ∨ y ∈ t := by
  show y ∈ s.toList.foldr insert t ↔ y ∈ s.toList ∨ y ∈ t
  induction s.toList with
  | nil => simp
  | cons label labels ih => rw [List.foldr_cons, mem_insert, ih, List.mem_cons, or_assoc]

/-- Two strictly increasing lists with the same members are equal. -/
theorem eq_of_pairwise_of_mem_iff {xs ys : List Bytes} (hx : xs.Pairwise (· < ·))
    (hy : ys.Pairwise (· < ·)) (h : ∀ z, z ∈ xs ↔ z ∈ ys) : xs = ys := by
  induction xs generalizing ys with
  | nil =>
    cases ys with
    | nil => rfl
    | cons y ys => exact absurd ((h y).2 List.mem_cons_self) List.not_mem_nil
  | cons x xs ih =>
    cases ys with
    | nil => exact absurd ((h x).1 List.mem_cons_self) List.not_mem_nil
    | cons y ys =>
      have ⟨hx₁, hx₂⟩ := List.pairwise_cons.1 hx
      have ⟨hy₁, hy₂⟩ := List.pairwise_cons.1 hy
      have hxy : x = y := by
        rcases List.mem_cons.1 ((h x).1 List.mem_cons_self) with hxy | hxy
        · exact hxy
        · rcases List.mem_cons.1 ((h y).2 List.mem_cons_self) with hyx | hyx
          · exact hyx.symm
          · exact absurd (List.lt_trans (hx₁ y hyx) (hy₁ x hxy)) (List.lt_irrefl x)
      subst hxy
      refine congrArg (x :: ·) (ih hx₂ hy₂ fun z => ⟨fun hz => ?_, fun hz => ?_⟩)
      · rcases List.mem_cons.1 ((h z).1 (List.mem_cons_of_mem x hz)) with rfl | hz'
        · exact absurd (hx₁ z hz) (List.lt_irrefl z)
        · exact hz'
      · rcases List.mem_cons.1 ((h z).2 (List.mem_cons_of_mem x hz)) with rfl | hz'
        · exact absurd (hy₁ z hz) (List.lt_irrefl z)
        · exact hz'

/-- Sets with the same members are equal. -/
theorem ext {s t : Labels} (h : ∀ label, label ∈ s ↔ label ∈ t) : s = t := by
  cases s; cases t
  congr
  exact eq_of_pairwise_of_mem_iff ‹_› ‹_› h

end Labels

end Furthest
