import Furthest.Proofs.Calculator.Settled

/-!
# How far chains of operands get

A chain of operands that settle at one level settles at the level that adds the operators between them. The
repetition of operators and operands is followed by `Continues`: from after an operand it reads on, as far as the
higher level allows, and ends with what it could match of that.

The rules of the grammar settle by induction on how deep factors may nest (`factorWithin_settles`), and so does the
calculator itself (`calculator_settles`).
-/

namespace Furthest.Calculator

open Furthest.Parser

variable {σ ν : Type}

/-- A level that adds operators to another one. -/
structure Extends (L L' : Level) (ops : Bytes) : Prop where
  operators : L'.operators = L.operators ++ ops
  labels : L'.labels = L.labels ++ [(ItemClass.oneOf ops).label]
  disjoint : ∀ c ∈ ops, c ∉ L.operators

theorem extends_term : Extends .power .term (ascii "*/") := ⟨rfl, rfl, by simp [Level.operators, ascii]⟩

theorem extends_expression : Extends .term .expression (ascii "+-") :=
  ⟨rfl, rfl, by simp [Level.operators, ascii]⟩

namespace Extends

variable {L L' : Level} {ops : Bytes} {c : UInt8} (h : Extends L L' ops)
include h

theorem subset : L.operators ⊆ L'.operators := by
  rw [h.operators]
  exact List.subset_append_left ..

theorem mem (hc : c ∈ ops) : c ∈ L'.operators := by
  rw [h.operators]
  exact List.mem_append_right _ hc

theorem not_mem (hc : c ∈ L.operators) : c ∉ ops := fun hc' => h.disjoint c hc' hc

theorem not_blank (hc : c ∈ ops) : ¬ ItemClass.blank.accepts c := by
  simp [not_blank_of_operator (L'.operators_subset (h.mem hc))]

end Extends

/-- What operations add to any sentence before them is evaluated from the left. -/
def Folds (A : Arithmetic ν) (derives : Bytes → ν → Prop) (u : Bytes) (vs : List (UInt8 × ν)) : Prop :=
  ∀ w x, derives w x → derives (w ++ u) (A.chain x vs)

theorem Folds.nil {A : Arithmetic ν} {derives : Bytes → ν → Prop} : Folds A derives [] [] := fun w x h => by
  rw [List.append_nil]
  exact h

theorem Folds.cons {A : Arithmetic ν} {derives : Bytes → ν → Prop} {u w : Bytes} {vs : List (UInt8 × ν)} {c : UInt8}
    {y : ν} (h : Folds A derives u vs) (hw : ∀ v x, derives v x → derives (v ++ w) (A.apply c x y)) :
    Folds A derives (w ++ u) ((c, y) :: vs) := fun v x hv => by
  rw [← List.append_assoc]
  exact h _ _ (hw v x hv)

/-- After an operand a repetition of operations reads on, and ends with values for what it matches. -/
inductive Continues (x : Run σ (Result (List (UInt8 × ν)))) (A : Arithmetic ν) (L : Level) (s : Standing)
    (derives : Bytes → ν → Prop) (xs : Bytes) (k : Nat) : Prop where
  | complete {u rest : Bytes} {t : Standing} {vs : List (UInt8 × ν)} (hr : Reads L s (xs.drop k) u rest t)
    (ht : t.Accepting) (hf : Folds A derives u vs)
    (hx : x.Ends (.success vs (k + u.length) (.raised (k + u.length) (L.expected t))))
  | short {u rest : Bytes} {t : Standing} {vs : List (UInt8 × ν)} {n : Nat} {c : UInt8}
    (hr : Reads L s (xs.drop k) u rest t) (ht : ¬ t.Accepting)
    (hx : x.Ends (.success vs n (.raised (k + u.length) (L.expected t)))) (hk : k ≤ n) (hn : n < k + u.length)
    (hc : xs[n]? = some c) (hop : c ∈ L.operators)

section Chain

variable {A : Arithmetic ν} {L L' : Level} {ops xs : Bytes} {p : Parser σ UInt8 ν}
  {derives derives' : Bytes → ν → Prop}
  {i k n : Nat} {s t : Standing} {c : UInt8}

/-- An operator is missing where another byte follows. -/
theorem fails_opPair (hx : Countable xs) (hb : Unspaced (xs.drop k)) (hops : ∀ c ∈ (xs.drop k).head?, c ∉ ops) :
    (opPair ops p).Fails xs k
      (.raised k (.singleton (ItemClass.oneOf ops).label ∪ .singleton (ascii "a space"))) :=
  (fails_token_at hx hb fun c hc hcls => hops c hc (by simpa [ItemClass.oneOf] using hcls)).pair p

/-- One more operation before the rest of a repetition. -/
theorem Continues.cons {q : Parser σ UInt8 (UInt8 × ν)} {w rest : Bytes} {y : ν} {remaining : Nat} {f r : Record}
    (h : Continues (q.timesFrom true xs remaining 0 (k + w.length) (f.merge r)) A L t derives xs (k + w.length))
    (hdrop : xs.drop k = w ++ rest) (ha : L.advance s w = some t) (hw : w ≠ [])
    (hq : q.Matches xs k (c, y) (k + w.length) f) (hd : ∀ v x, derives v x → derives (v ++ w) (A.apply c x y)) :
    Continues (q.timesFrom true xs (remaining + 1) 0 k r) A L s derives xs k := by
  have hpos := List.length_pos_iff.2 hw
  cases h with
  | complete hr ht hfolds hx =>
    rw [add_length_append] at hx
    exact .complete (hr.after_drop hdrop ha) ht (hfolds.cons hd) (hq.timesFrom (by omega) hx)
  | short hr ht hx hk hn hc hop =>
    rw [add_length_append] at hx hn
    exact .short (hr.after_drop hdrop ha) ht (hq.timesFrom (by omega) hx) (by omega) hn hc hop

variable (hE : Extends L L' ops) (hx : Countable xs)
include hE hx

/-- A repetition of operations where no operator follows. -/
theorem timesFrom_stops (hs : s.Accepting) (hstuck : ∀ c ∈ (xs.drop k).head?, L.step s c = none)
    (hops : ∀ c ∈ (xs.drop k).head?, c ∉ ops) {remaining : Nat} :
    Continues ((opPair ops p).timesFrom true xs (remaining + 1) 0 k (.raised k (L.expected s))) A L' s derives' xs
      k := by
  have hunspaced : Unspaced (xs.drop k) := fun c hc hblank => L.step_blank s hblank (hstuck c hc)
  have hstop : ((opPair ops p).timesFrom true xs (remaining + 1) 0 k (.raised k (L.expected s))).Ends _ :=
    (fails_opPair hx hunspaced hops).timesFrom
  rw [token_merge_expected, Level.expected_union hs hE.labels] at hstop
  refine .complete (u := []) ⟨rfl, rfl, fun c hc => ?_⟩ hs .nil hstop
  have hmem : c ∉ L'.operators := by
    rw [hE.operators, List.mem_append]
    rintro (h | h)
    · have hstep := hstuck c hc
      rw [Level.step_operator hs h] at hstep
      cases hstep
    · exact hops c hc h
  rw [Level.step_accepting hs (Level.extend_of_step_eq_none (hstuck c hc)), if_neg hmem]

/-- A repetition of operations whose operands settle further on. -/
theorem timesFrom_continues (hp : ∀ j, k < j → j ≤ xs.length → Settles p L false derives xs j)
    (hd : ∀ {c u t w x y}, c ∈ ops → derives' u x → Padded [c] t → derives w y →
      derives' (u ++ t ++ w) (A.apply c x y))
    (hs : s.Accepting) (hstuck : ∀ c ∈ (xs.drop k).head?, L.step s c = none) {remaining : Nat}
    (hcount : (xs.drop k).countP (· ∈ ops) < remaining) :
    Continues ((opPair ops p).timesFrom true xs remaining 0 k (.raised k (L.expected s))) A L' s derives' xs k := by
  -- every operation takes an operator, so that as many operations may come as operators are left
  induction remaining generalizing k s with
  | zero => exact absurd hcount (Nat.not_lt_zero _)
  | succ remaining ih =>
    by_cases hop : ∃ c ∈ (xs.drop k).head?, c ∈ ops
    · obtain ⟨c, hc, hop⟩ := hop
      obtain ⟨ys, hys⟩ := List.head?_eq_some_iff.1 hc
      obtain ⟨o, rest, b', hdrop, ho, hb', -, htoken⟩ :=
        exists_token (σ := σ) (q := .oneOf ops) (b := []) hx hys nofun (by simpa [ItemClass.oneOf] using hop)
          (hE.not_blank hop)
      have hne : o ≠ [] := by simp [ho]
      have hpos := List.length_pos_iff.2 hne
      have hadvance : L'.advance s o = some ⟨.operand false, 0⟩ := by
        rw [ho]
        exact Level.advance_operator hs (hE.mem hop) hb'
      have hbeyond (u : Bytes) : k < k + (o ++ u).length := by
        rw [List.length_append]
        omega
      have hmany : 0 < o.countP (· ∈ ops) := List.countP_pos_iff.2 ⟨c, by simp [ho], by simpa using hop⟩
      cases hp (k + o.length) (by omega) (le_length_of_drop hdrop hne) with
      | @complete u rest' t v hr ht hdu hp' =>
        have hone : (opPair ops p).Matches xs k (c, v) _ _ := htoken.pair hp'
        rw [expected_merge_space (Nat.le_add_right ..), add_length_append] at hone
        have hlt := hbeyond u
        have hall : xs.drop k = o ++ u ++ rest' := by
          rw [hdrop, ← drop_add_length hdrop, hr.eq_append, List.append_assoc]
        have hstep : L'.advance s (o ++ u) = some t := by
          rw [Level.advance_append hadvance]
          exact Level.advance_mono hE.subset hr.advance
        have hrest := drop_add_length hall
        rw [hall, List.countP_append, List.countP_append] at hcount
        have hih := ih (k := k + (o ++ u).length) (fun j hj => hp j (by omega)) ht (by rw [hrest]; exact hr.stuck)
          (by rw [hrest]; omega)
        rw [← Record.raised_merge_of_gt hlt] at hih
        have hpadded : Padded [c] o := ⟨[], b', nofun, hb', by simp [ho]⟩
        refine .cons hih hall hstep (by simp [hne]) hone fun w x hw => ?_
        rw [← List.append_assoc]
        exact hd hop hw hpadded hdu
      | @refused u rest' t hr ht hp' =>
        have hone : (opPair ops p).Fails xs k _ := htoken.pair_fails hp'
        rw [expected_merge_space (Nat.le_add_right ..), add_length_append] at hone
        have hlt := hbeyond u
        have hstop : ((opPair ops p).timesFrom true xs (remaining + 1) 0 k (.raised k (L.expected s))).Ends _ :=
          hone.timesFrom
        rw [Record.raised_merge_of_gt hlt, Level.expected_congr L L' ht] at hstop
        have hread := (hr.of_not_accepting hE.subset ht).after_drop hdrop hadvance
        exact .short hread ht hstop (Nat.le_refl k) hlt (by rw [← List.head?_drop]; exact hc) (hE.mem hop)
      | @short u rest' t v n c' hr ht hp' hi hn hc' hop' =>
        have hone : (opPair ops p).Matches xs k (c, v) _ _ := htoken.pair hp'
        rw [expected_merge_space (Nat.le_add_right ..), add_length_append] at hone
        have hlt := hbeyond u
        rw [hdrop, List.countP_append] at hcount
        obtain ⟨remaining, rfl⟩ := Nat.exists_eq_succ_of_ne_zero (show remaining ≠ 0 by omega)
        have hnone := fails_opPair (p := p) hx (unspaced_of_operator hc' (L.operators_subset hop')) fun x hx => by
          rw [List.head?_drop, hc'] at hx
          cases hx
          exact hE.not_mem hop'
        rw [add_length_append] at hn
        have hstop : ((opPair ops p).timesFrom true xs (remaining + 1 + 1) 0 k (.raised k (L.expected s))).Ends _ :=
          hone.timesFrom (by omega) hnone.timesFrom
        rw [Record.raised_merge_of_gt hlt, Record.raised_merge_of_lt hn, Level.expected_congr L L' ht] at hstop
        have hread := (hr.of_not_accepting hE.subset ht).after_drop hdrop hadvance
        exact .short hread ht hstop (by omega) hn hc' (hE.subset hop')
    · exact timesFrom_stops hE hx hs hstuck fun c hc hmem => hop ⟨c, hc, hmem⟩

/-- A chain of operands that settle from here on. -/
theorem chainOf_settles (hi : i ≤ xs.length)
    (hp : ∀ j, i ≤ j → j ≤ xs.length → Settles p L false derives xs j)
    (hone : ∀ {u x}, derives u x → derives' u x)
    (hd : ∀ {c u t w x y}, c ∈ ops → derives' u x → Padded [c] t → derives w y →
      derives' (u ++ t ++ w) (A.apply c x y)) :
    Settles (chainOf A ops p) L' false derives' xs i := by
  cases hp i (Nat.le_refl i) hi with
  | refused hr ht hp =>
    have hall := hp.combine₂ A.chain (opPair ops p).many
    rw [Level.expected_congr L L' ht] at hall
    exact .refused (hr.of_not_accepting hE.subset ht) ht hall
  | @short u rest t v n c hr ht hp' hi hn hc hop =>
    have hnone := fails_opPair (p := p) hx (unspaced_of_operator hc (L.operators_subset hop)) fun x hx => by
      rw [List.head?_drop, hc] at hx
      cases hx
      exact hE.not_mem hop
    have hmany : (opPair ops p).many.Matches xs n [] n _ := hnone.timesFrom
    have hall := hp'.combine₂ A.chain hmany
    rw [Record.merge_empty, Record.raised_merge_of_lt hn, Level.expected_congr L L' ht] at hall
    exact .short (hr.of_not_accepting hE.subset ht) ht hall hi hn hc (hE.subset hop)
  | @complete u rest t v hr ht hdu hp' =>
    have hm := drop_add_length hr.eq_append
    have hcount : (xs.drop (i + u.length)).countP (· ∈ ops) < unbounded := by
      refine Nat.lt_of_le_of_lt ?_ hx.operators
      refine Nat.le_trans (List.Sublist.countP_le (List.drop_sublist ..)) (List.countP_mono_left fun c _ hc => ?_)
      simpa using L'.operators_subset (hE.mem (by simpa using hc))
    have hloop : Continues ((opPair ops p).timesFrom true xs unbounded 0 (i + u.length)
        (.raised (i + u.length) (L.expected t))) A L' t derives' xs (i + u.length) :=
      timesFrom_continues hE hx (fun j hj => hp j (by omega)) hd ht (by rw [hm]; exact hr.stuck) hcount
    have hstart : L'.advance ⟨.operand false, 0⟩ u = some t := Level.advance_mono hE.subset hr.advance
    cases hloop with
    | complete hr' ht' hf hloop =>
      have hall := hp'.combine₂_many A.chain rfl hloop
      rw [add_length_append] at hall
      exact .complete (hr'.after_drop hr.eq_append hstart) ht' (hf u v (hone hdu)) hall
    | short hr' ht' hloop hk hn hc hop =>
      have hall := hp'.combine₂_many A.chain rfl hloop
      rw [add_length_append] at hall hn
      exact .short (hr'.after_drop hr.eq_append hstart) ht' hall (by omega) hn hc hop

end Chain

/-! ## The rules of the grammar -/

section Rules

variable {A : Arithmetic ν} {xs : Bytes} {i : Nat} (hx : Countable xs)
include hx

theorem termOf_settles {factor : Parser σ UInt8 ν} (hi : i ≤ xs.length)
    (hf : ∀ j, i ≤ j → j ≤ xs.length → Settles factor .power false (Derives A Padded .factor) xs j) :
    Settles (termOf A factor) .term false (Derives A Padded .term) xs i := by
  refine .traced (chainOf_settles extends_term hx hi hf (.single rfl) fun {c u t w x y} hc hu ht hw => ?_) _
  have hc' : c = 42 ∨ c = 47 := by simpa [ascii] using hc
  rcases hc' with rfl | rfl
  · exact .operation rfl .mul hu ht hw
  · exact .operation rfl .div hu ht hw

theorem expressionOf_settles {factor : Parser σ UInt8 ν} (hi : i ≤ xs.length)
    (hf : ∀ j, i ≤ j → j ≤ xs.length → Settles factor .power false (Derives A Padded .factor) xs j) :
    Settles (expressionOf A factor) .expression false (Derives A Padded .expression) xs i := by
  have hterm : ∀ j, i ≤ j → j ≤ xs.length → Settles (termOf A factor) .term false (Derives A Padded .term) xs j :=
    fun j hj hle => termOf_settles hx hle fun k hk => hf k (by omega)
  refine .traced (chainOf_settles extends_expression hx hi hterm (.single rfl) fun {c u t w x y} hc hu ht hw => ?_) _
  have hc' : c = 43 ∨ c = 45 := by simpa [ascii] using hc
  rcases hc' with rfl | rfl
  · exact .operation rfl .add hu ht hw
  · exact .operation rfl .sub hu ht hw

/-- A factor settles if factors may nest deeper inside it than there are bytes left. -/
theorem factorWithin_settles {depth : Nat} (hi : i ≤ xs.length) (hdepth : xs.length - i < depth) :
    Settles (factorWithin A depth : Parser σ UInt8 ν) .power false (Derives A Padded .factor) xs i := by
  induction depth generalizing i with
  | zero => exact absurd hdepth (Nat.not_lt_zero _)
  | succ depth ih =>
    refine factorOf_settles hx hi fun j hj hle => ?_
    have hf : ∀ k, j < k → k ≤ xs.length →
        Settles (factorWithin A depth : Parser σ UInt8 ν) .power false (Derives A Padded .factor) xs k :=
      fun k hk hle => ih hle (by omega)
    exact powerOf_settles hx (fun k hk hle => expressionOf_settles hx hle fun l hl => hf l (by omega)) hf

theorem factor_settles (hi : i ≤ xs.length) :
    Settles (factor A : Parser σ UInt8 ν) .power false (Derives A Padded .factor) xs i :=
  (factorWithin_settles hx hi (Nat.lt_succ_self _)).congr rfl

omit hx in
theorem length_le_of_drop_zero {b ys : Bytes} (h : xs.drop 0 = b ++ ys) : 0 + b.length ≤ xs.length := by
  rw [List.drop_zero] at h
  rw [h, List.length_append]
  omega

/-- Blanks after what is matched change nothing. -/
theorem Settles.skip_blanks {p : Parser σ UInt8 ν} {L : Level} {signed : Bool} {derives : Bytes → ν → Prop}
    (h : Settles p L signed derives xs i) : Settles (p.skip space.many) L signed derives xs i := by
  cases h with
  | @complete u rest t v hr ht hd hp =>
    have hend : Unspaced (xs.drop (i + u.length)) := by
      rw [drop_add_length hr.eq_append]
      exact hr.unspaced
    have hall := hp.skip (matches_no_blanks hx hend)
    rw [space_merge_expected (Nat.le_refl _)] at hall
    exact .complete hr ht hd hall
  | refused hr ht hp => exact .refused hr ht (hp.skip _)
  | short hr ht hp hi hn hc hop =>
    have hall := hp.skip (matches_no_blanks hx (unspaced_of_operator hc (L.operators_subset hop)))
    rw [space_merge_expected (Nat.le_of_lt hn)] at hall
    exact .short hr ht hall hi hn hc hop

/-- The calculator settles at the beginning of the input. -/
theorem calculator_settles :
    Settles (calculator A : Parser σ UInt8 ν) .expression false (Derives A Padded .expression) xs 0 := by
  obtain ⟨b, ys, hdrop, hb, hys⟩ := exists_blanks (xs.drop 0)
  have hleading := matches_blanks (σ := σ) hx hdrop hb hys
  have hexpression := expressionOf_settles (σ := σ) (A := A) hx (length_le_of_drop_zero hdrop) fun j _ hj =>
    factor_settles hx hj
  refine .skip_blanks hx (hexpression.after hdrop (Level.advance_blanks hb) (fun hd => hd.prepend hb)
    (fun hk hp => ?_) fun hk hp => ?_)
  · have hall := hleading.andThen hp
    rwa [expected_merge_space hk] at hall
  · have hall := hleading.andThen_fails hp
    rwa [expected_merge_space hk] at hall

end Rules

end Furthest.Calculator
