import Mathlib.Data.List.Induction
import Furthest.Record

/-!
# The algebra of failure records

`Record.merge` is associative on all records, and commutative with the empty record as identity on
`Proper` ones, whose missing index comes with no labels. `Record.mergeAll` merges a list of records:

* `index_mergeAll`: its index is the greatest index in the list;
* `mem_labels_mergeAll`: its labels are those that some record of the list has at that index;
* `mergeAll_append`: the merged records of two lists are merged;
* `mergeAll_eq_of_mem_iff`: what a list has merged is told by its members that have an index.

Main statement: `merge_semilattice`.
-/

namespace Furthest

theorem Labels.union_comm (s t : Labels) : s ∪ t = t ∪ s :=
  ext fun label => by simp only [mem_union, or_comm]

theorem Labels.union_assoc (s t u : Labels) : s ∪ t ∪ u = s ∪ (t ∪ u) :=
  ext fun label => by simp only [mem_union, or_assoc]

namespace Record

@[simp] theorem isEngaged_raised (i : Nat) (s : Labels) : (raised i s).isEngaged = true := rfl
@[simp] theorem isEngaged_empty : (∅ : Record).isEngaged = false := rfl
@[simp] theorem index_raised (i : Nat) (s : Labels) : (raised i s).index = some i := rfl
@[simp] theorem labels_raised (i : Nat) (s : Labels) : (raised i s).labels = s := rfl

theorem isEngaged_iff {r : Record} : r.isEngaged ↔ ∃ i, r.index = some i := Option.isSome_iff_exists

/-- A missing index comes with no labels. -/
def Proper (r : Record) : Prop := r.index = none → r = ∅

theorem ext {x y : Record} (hindex : x.index = y.index) (hlabels : x.labels = y.labels) : x = y := by
  cases x
  cases y
  cases hindex
  cases hlabels
  rfl

theorem proper_empty : Proper ∅ := fun _ => rfl

theorem proper_of_isEngaged {r : Record} (h : r.isEngaged) : r.Proper := fun hn => by
  simp [isEngaged, hn] at h

/-! ## Merging two records -/

theorem merge_of_lt {x y : Record} {i j : Nat} (hx : x.index = some i) (hy : y.index = some j) (h : i < j) :
    x.merge y = y := by
  simp [merge, hx, hy, h]

theorem merge_of_gt {x y : Record} {i j : Nat} (hx : x.index = some i) (hy : y.index = some j) (h : j < i) :
    x.merge y = x := by
  simp [merge, hx, hy, h, Nat.lt_asymm h]

theorem merge_of_eq {x y : Record} {i : Nat} (hx : x.index = some i) (hy : y.index = some i) :
    x.merge y = ⟨some i, x.labels ∪ y.labels⟩ := by
  simp [merge, hx, hy]

theorem raised_merge_of_lt {i j : Nat} {s t : Labels} (h : i < j) :
    (raised i s).merge (raised j t) = raised j t := merge_of_lt rfl rfl h

theorem raised_merge_of_gt {i j : Nat} {s t : Labels} (h : j < i) :
    (raised i s).merge (raised j t) = raised i s := merge_of_gt rfl rfl h

theorem raised_merge_self (i : Nat) (s t : Labels) :
    (raised i s).merge (raised i t) = raised i (s ∪ t) := merge_of_eq rfl rfl

theorem empty_merge {y : Record} (hy : y.Proper) : (∅ : Record).merge y = y := by
  by_cases h : y.index = none
  · rw [hy h, merge_empty]
  · exact merge_of_isEngaged rfl (Option.isSome_iff_ne_none.2 h)

theorem Proper.merge {x y : Record} (hx : x.Proper) : (x.merge y).Proper := by
  by_cases h : y.index = none
  · rwa [merge_of_index_eq_none h]
  · have hy : y.isEngaged := Option.isSome_iff_ne_none.2 h
    exact proper_of_isEngaged (by simp [hy])

/-- Merging does not depend on the order of two proper records. -/
theorem merge_comm {x y : Record} (hx : x.Proper) (hy : y.Proper) : x.merge y = y.merge x := by
  rcases hi : x.index with _ | i
  · rw [hx hi, merge_empty, empty_merge hy]
  rcases hj : y.index with _ | j
  · rw [hy hj, merge_empty, empty_merge hx]
  rcases Nat.lt_trichotomy i j with h | rfl | h
  · rw [merge_of_lt hi hj h, merge_of_gt hj hi h]
  · rw [merge_of_eq hi hj, merge_of_eq hj hi, Labels.union_comm]
  · rw [merge_of_gt hi hj h, merge_of_lt hj hi h]

theorem merge_self (r : Record) : r.merge r = r := by
  rcases hr : r.index with _ | k
  · simp [merge, hr]
  · have hunion : r.labels ∪ r.labels = r.labels := Labels.ext fun label => by simp
    rw [merge_of_eq hr hr, hunion, ← hr]

/-- The labels of merged records are those of the records that have the merged index. -/
theorem mem_labels_merge {x y : Record} {label : Bytes} :
    label ∈ (x.merge y).labels ↔
      (x.index = (x.merge y).index ∧ label ∈ x.labels) ∨
        (y.isEngaged ∧ y.index = (x.merge y).index ∧ label ∈ y.labels) := by
  rcases hj : y.index with _ | j
  · simp [merge_of_index_eq_none hj, isEngaged, hj]
  have hy : y.isEngaged := by simp [isEngaged, hj]
  rcases hi : x.index with _ | i
  · simp [merge_of_isEngaged hi hy, hy, hj]
  rcases Nat.lt_trichotomy i j with h | rfl | h
  · simp [merge_of_lt hi hj h, hy, hj, Nat.ne_of_lt h]
  · simp [merge_of_eq hi hj, hy]
  · simp [merge_of_gt hi hj h, hi, Nat.ne_of_lt h]

/-- Merging is associative, also on records whose labels come without an index. -/
theorem merge_assoc (x y z : Record) : (x.merge y).merge z = x.merge (y.merge z) := by
  rcases hk : z.index with _ | k
  · rw [merge_of_index_eq_none hk, merge_of_index_eq_none hk]
  have hz : z.isEngaged := by simp [isEngaged, hk]
  rcases hj : y.index with _ | j
  · rw [merge_of_index_eq_none hj, merge_of_isEngaged hj hz]
  have hy : y.isEngaged := by simp [isEngaged, hj]
  rcases hi : x.index with _ | i
  · rw [merge_of_isEngaged hi hy, merge_of_isEngaged hi (by simp [hy])]
  have hjk : (y.merge z).index = some (max j k) := by rw [index_merge, hj, hk]
  rcases Nat.lt_trichotomy i j with hij | rfl | hij
  · rw [merge_of_lt hi hj hij, merge_of_lt hi hjk (by omega)]
  · rcases Nat.lt_trichotomy i k with hik | rfl | hik
    · rw [merge_of_lt hj hk hik, merge_of_lt hi hk hik, merge_of_eq hi hj, merge_of_lt rfl hk hik]
    · rw [merge_of_eq hj hk, merge_of_eq hi hj, merge_of_eq hi rfl, merge_of_eq rfl hk, Labels.union_assoc]
    · rw [merge_of_gt hj hk hik, merge_of_eq hi hj, merge_of_gt rfl hk hik]
  · rw [merge_of_gt hi hj hij]
    rcases Nat.lt_or_ge j k with hjk' | hjk'
    · rw [merge_of_lt hj hk hjk']
    · rw [merge_of_gt hi hk (by omega), merge_of_gt hi hjk (by omega)]

/-! ## Merging a list of records -/

/-- The records of a list, merged from left to right. -/
def mergeAll (rs : List Record) : Record := rs.foldl merge ∅

@[simp] theorem mergeAll_nil : mergeAll [] = ∅ := rfl

theorem mergeAll_concat (rs : List Record) (r : Record) : mergeAll (rs ++ [r]) = (mergeAll rs).merge r := by
  simp [mergeAll]

theorem proper_mergeAll {rs : List Record} (h : ∀ r ∈ rs, r.Proper) : (mergeAll rs).Proper := by
  induction rs using List.reverseRecOn with
  | nil => exact proper_empty
  | append_singleton rs r ih =>
    rw [mergeAll_concat]
    exact (ih fun r' hr => h r' (List.mem_append_left _ hr)).merge

/-- The merged records of two lists are merged. -/
theorem mergeAll_append {rs ss : List Record} (h : ∀ s ∈ ss, s.Proper) :
    mergeAll (rs ++ ss) = (mergeAll rs).merge (mergeAll ss) := by
  induction ss using List.reverseRecOn with
  | nil => simp
  | append_singleton ss s ih =>
    rw [← List.append_assoc, mergeAll_concat, mergeAll_concat,
      ih fun s' hs => h s' (List.mem_append_left _ hs), merge_assoc]

/-- No record of a list has a greater index than the merged records. -/
theorem le_index_mergeAll {rs : List Record} {r : Record} {j : Nat} (hr : r ∈ rs) (hj : r.index = some j) :
    ∃ k, (mergeAll rs).index = some k ∧ j ≤ k := by
  induction rs using List.reverseRecOn with
  | nil => simp at hr
  | append_singleton rs s ih =>
    rw [mergeAll_concat, index_merge]
    rcases List.mem_append.1 hr with hr | hr
    · obtain ⟨k, hk, hle⟩ := ih hr
      rw [hk]
      cases s.index with
      | none => exact ⟨k, rfl, hle⟩
      | some i => exact ⟨max k i, rfl, Nat.le_trans hle (Nat.le_max_left ..)⟩
    · rw [← List.mem_singleton.1 hr, hj]
      cases (mergeAll rs).index with
      | none => exact ⟨j, rfl, Nat.le_refl j⟩
      | some k => exact ⟨max k j, rfl, Nat.le_max_right ..⟩

/-- The index of the merged records is that of one of them. -/
theorem exists_of_index_mergeAll {rs : List Record} {k : Nat} (h : (mergeAll rs).index = some k) :
    ∃ r ∈ rs, r.index = some k := by
  induction rs using List.reverseRecOn generalizing k with
  | nil => simp at h
  | append_singleton rs s ih =>
    have of_left : (mergeAll rs).index = some k → ∃ r ∈ rs ++ [s], r.index = some k := fun hk =>
      have ⟨r, hr, hrk⟩ := ih hk
      ⟨r, List.mem_append_left _ hr, hrk⟩
    have of_right : s.index = some k → ∃ r ∈ rs ++ [s], r.index = some k := fun hk => ⟨s, by simp, hk⟩
    rw [mergeAll_concat, index_merge] at h
    rcases hm : (mergeAll rs).index with _ | m <;> rcases hj : s.index with _ | j <;>
      simp only [hm, hj, Option.some.injEq, reduceCtorEq] at h
    · exact of_right (by rw [hj, h])
    · exact of_left (by rw [hm, h])
    · rcases Nat.le_total m j with hle | hle
      · exact of_right (by rw [hj, ← h, Nat.max_eq_right hle])
      · exact of_left (by rw [hm, ← h, Nat.max_eq_left hle])

/-- The merged records have the greatest index of the list. -/
theorem index_mergeAll {rs : List Record} {k : Nat} :
    (mergeAll rs).index = some k ↔
      (∃ r ∈ rs, r.index = some k) ∧ ∀ r ∈ rs, ∀ j, r.index = some j → j ≤ k := by
  constructor
  · intro h
    refine ⟨exists_of_index_mergeAll h, fun r hr j hj => ?_⟩
    obtain ⟨m, hm, hle⟩ := le_index_mergeAll hr hj
    rw [h, Option.some.injEq] at hm
    rwa [hm]
  · rintro ⟨⟨r, hr, hk⟩, hle⟩
    obtain ⟨m, hm, hkm⟩ := le_index_mergeAll hr hk
    obtain ⟨s, hs, hsm⟩ := exists_of_index_mergeAll hm
    rw [hm, Nat.le_antisymm (hle s hs m hsm) hkm]

/-- The merged records have the labels that some record of the list has at the greatest index. -/
theorem mem_labels_mergeAll {rs : List Record} {label : Bytes} :
    label ∈ (mergeAll rs).labels ↔
      ∃ r ∈ rs, r.isEngaged ∧ r.index = (mergeAll rs).index ∧ label ∈ r.labels := by
  induction rs using List.reverseRecOn with
  | nil => simp
  | append_singleton rs r ih =>
    rw [mergeAll_concat, mem_labels_merge, ih]
    simp only [List.mem_append, List.mem_singleton, or_and_right, exists_or, exists_eq_left]
    refine or_congr_left ⟨?_, ?_⟩
    · rintro ⟨hm, s, hs, he, hi, hl⟩
      exact ⟨s, hs, he, hi.trans hm, hl⟩
    · rintro ⟨s, hs, he, hi, hl⟩
      obtain ⟨j, hj⟩ := isEngaged_iff.1 he
      obtain ⟨m, hm, hle⟩ := le_index_mergeAll hs hj
      -- the index of the merged records was reached before the last of them already
      obtain rfl : j = m := by
        rw [hj, index_merge, hm] at hi
        cases hr : r.index <;> simp only [hr, Option.some.injEq] at hi <;> omega
      exact ⟨by rw [hm, ← hi, hj], s, hs, he, by rw [hm, hj], hl⟩

/-- Records without an index are merged to none, whatever labels they carry. -/
theorem mergeAll_eq_empty {rs : List Record} (h : ∀ r ∈ rs, r.index = none) : mergeAll rs = ∅ := by
  induction rs using List.reverseRecOn with
  | nil => rfl
  | append_singleton rs r ih =>
    rw [mergeAll_concat, merge_of_index_eq_none (h r (by simp)), ih fun s hs => h s (List.mem_append_left _ hs)]

/-- Where a record has an index, so have the merged records. -/
theorem exists_index_mergeAll {rs : List Record} (h : ∃ r ∈ rs, r.isEngaged) : ∃ k, (mergeAll rs).index = some k := by
  obtain ⟨r, hr, he⟩ := h
  obtain ⟨j, hj⟩ := isEngaged_iff.1 he
  obtain ⟨k, hk, -⟩ := le_index_mergeAll hr hj
  exact ⟨k, hk⟩

/-- Lists with the same records that have an index are merged to the same record: neither the order of a list nor how
often a record stands in it plays a part. -/
theorem mergeAll_eq_of_mem_iff {rs rs' : List Record} (h : ∀ r, r.isEngaged → (r ∈ rs ↔ r ∈ rs')) :
    mergeAll rs = mergeAll rs' := by
  have hmem {r : Record} {k : Nat} (hk : r.index = some k) : r ∈ rs ↔ r ∈ rs' := h r (isEngaged_iff.2 ⟨k, hk⟩)
  have hindex : (mergeAll rs).index = (mergeAll rs').index := by
    refine Option.ext fun k => ?_
    rw [index_mergeAll, index_mergeAll]
    refine and_congr (exists_congr fun r => and_congr_left hmem) (forall_congr' fun r => ?_)
    exact ⟨fun hle hr j hj => hle ((hmem hj).2 hr) j hj, fun hle hr j hj => hle ((hmem hj).1 hr) j hj⟩
  refine ext hindex (Labels.ext fun label => ?_)
  rw [mem_labels_mergeAll, mem_labels_mergeAll, hindex]
  exact exists_congr fun r => and_congr_left fun ⟨he, _⟩ => h r he

/-- The first record of a list may as well be merged last. -/
theorem mergeAll_cons (r : Record) (rs : List Record) : mergeAll (r :: rs) = (mergeAll rs).merge r := by
  rw [← mergeAll_concat]
  exact mergeAll_eq_of_mem_iff fun s _ => by simp [or_comm]

/-- Proper records may be merged the other way round, one after the other. -/
theorem foldl_merge_swapped {rs : List Record} (hrs : ∀ r ∈ rs, r.Proper) {seen : Record} (hseen : seen.Proper) :
    rs.foldl (fun seen r => r.merge seen) seen = rs.foldl merge seen := by
  induction rs generalizing seen with
  | nil => rfl
  | cons r rs ih =>
    obtain ⟨hr, hrs⟩ := List.forall_mem_cons.1 hrs
    rw [List.foldl_cons, List.foldl_cons, merge_comm hr hseen, ih hrs hseen.merge]

/-- The record has an index that is not before another. -/
def reaches (n : Nat) (r : Record) : Bool := r.index.any (n ≤ ·)

/-- With a record that is raised at an index, only records that reach that index count. -/
theorem raised_merge_mergeAll (n : Nat) (s : Labels) (rs : List Record) :
    (raised n s).merge (mergeAll rs) = mergeAll (raised n s :: rs.filter (reaches n)) := by
  induction rs using List.reverseRecOn with
  | nil => rfl
  | append_singleton rs r ih =>
    rw [mergeAll_concat, ← merge_assoc, ih, List.filter_append]
    by_cases hr : r.reaches n
    · rw [List.filter_cons_of_pos hr, List.filter_nil, ← List.cons_append, mergeAll_concat]
    · rw [List.filter_cons_of_neg hr, List.filter_nil, List.append_nil]
      have first : raised n s ∈ raised n s :: rs.filter (reaches n) := List.mem_cons_self
      obtain ⟨k, hk, hle⟩ := le_index_mergeAll first rfl
      rcases hi : r.index with _ | i
      · exact merge_of_index_eq_none hi
      · have hin : i < n := by simpa [reaches, hi] using hr
        exact merge_of_gt hk hi (by omega)

/-! ## Main statement -/

/-- Records are a semilattice under merging, which is associative and idempotent, and on proper records also commutative
with the empty record as its identity. A list of records of any kind is merged to the empty record if none of them has
an index; else to the greatest index of them, with the labels of all records that have it. Only the members of the list
count, not their order or how often they stand in it; and if they are proper, each may as well take in what was merged
before it. -/
theorem merge_semilattice :
    (∀ x y z : Record, (x.merge y).merge z = x.merge (y.merge z)) ∧
    (∀ x : Record, x.merge x = x ∧ x.merge ∅ = x) ∧
    (∀ x y : Record, x.Proper → y.Proper → x.merge y = y.merge x ∧ (∅ : Record).merge x = x) ∧
    ∀ rs : List Record,
      ((∀ r ∈ rs, r.index = none) → mergeAll rs = ∅) ∧
      ((∃ r ∈ rs, r.isEngaged) → ∃ k,
        ((∃ r ∈ rs, r.index = some k) ∧ ∀ r ∈ rs, ∀ j, r.index = some j → j ≤ k) ∧ (mergeAll rs).index = some k ∧
          ∀ label, label ∈ (mergeAll rs).labels ↔ ∃ r ∈ rs, r.index = some k ∧ label ∈ r.labels) ∧
      (∀ rs' : List Record, (∀ r, r ∈ rs ↔ r ∈ rs') → mergeAll rs' = mergeAll rs) ∧
      ((∀ r ∈ rs, r.Proper) → rs.foldl (fun seen r => r.merge seen) ∅ = mergeAll rs) := by
  refine ⟨merge_assoc, fun x => ⟨merge_self x, merge_empty x⟩, fun x y hx hy => ⟨merge_comm hx hy, empty_merge hx⟩,
    fun rs => ⟨mergeAll_eq_empty, fun hengaged => ?_, fun rs' h => mergeAll_eq_of_mem_iff fun r _ => (h r).symm,
      fun hrs => foldl_merge_swapped hrs proper_empty⟩⟩
  obtain ⟨k, hk⟩ := exists_index_mergeAll hengaged
  refine ⟨k, index_mergeAll.1 hk, hk, fun label => ?_⟩
  rw [mem_labels_mergeAll, hk]
  refine exists_congr fun r => and_congr_right fun _ => and_iff_right_of_imp ?_
  exact fun ⟨hr, _⟩ => isEngaged_iff.2 ⟨k, hr⟩

/-- Two records of one depth among a shallower one and labels without an index, in two orders and with repetitions.
Taken in the other way round, the labels without an index would be kept until a record with an index comes. -/
theorem merge_semilattice_of_stray :
    let stray : Record := ⟨none, .singleton [120]⟩
    let a := raised 2 (.singleton [97])
    let b := raised 2 (.singleton [98])
    let shallow := raised 1 (.singleton [99])
    let both := raised 2 (.singleton [97] ∪ .singleton [98])
    mergeAll [stray, a, shallow, b] = both ∧ mergeAll [b, stray, a, shallow, b, stray] = both ∧
      mergeAll [stray] = ∅ ∧ a.Proper ∧ b.Proper ∧ a.merge b = b.merge a ∧
      [a, shallow, b].foldl (fun seen r => r.merge seen) ∅ = mergeAll [a, shallow, b] ∧
      ¬stray.Proper ∧ [stray].foldl (fun seen r => r.merge seen) ∅ ≠ mergeAll [stray] := by
  intro stray a b shallow both
  obtain ⟨-, -, commutes, merges⟩ := merge_semilattice
  obtain ⟨-, -, same, -⟩ := merges [stray, a, shallow, b]
  have hproper (i : Nat) (s : Labels) : (raised i s).Proper := proper_of_isEngaged rfl
  have hboth : mergeAll [stray, a, shallow, b] = both := by decide
  have hmem (r : Record) : r ∈ [stray, a, shallow, b] ↔ r ∈ [b, stray, a, shallow, b, stray] := by grind
  have hswapped : [a, shallow, b].foldl (fun seen r => r.merge seen) ∅ = mergeAll [a, shallow, b] :=
    (merges _).2.2.2 (by simp [a, shallow, b, hproper])
  have hstray : ¬stray.Proper := fun h => absurd (h rfl) (by decide)
  exact ⟨hboth, (same _ hmem).trans hboth, (merges [stray]).1 (by simp [stray]), hproper _ _, hproper _ _,
    (commutes a b (hproper _ _) (hproper _ _)).1, hswapped, hstray, by decide⟩

end Record

end Furthest
