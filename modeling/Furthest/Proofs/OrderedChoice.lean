import Furthest.Proofs.DescribedVariation
import Furthest.Proofs.LazyConstruction
import Furthest.Proofs.Repeatability

/-!
# Ordered choice

An ordered choice ends with the first of its parsers that does not fail, and has seen what those before it have seen; if
all fail, it fails with what they have seen together, in whatever order they were tried. `Choice.Ends` says so of the
outcomes of parsers that can be run again.

Nested choices are one choice between their branches (`Combination.branches`, `Grammar.branches`): the inner choice
begins without a record and hands on what it has seen, the flat one hands the record along, and merging is associative.
A choice without parsers is a branch that never decides anything (`Result.verdict`): what it raises at the cursor is no
deeper than any failure of another branch, and expects nothing.

Main statement: `ordered_choice`.
-/

namespace Furthest

variable {σ ι α : Type}

namespace Record

/-- A failure that expects nothing adds nothing to one that is as deep. -/
theorem merge_raised_empty {r : Record} {i k : Nat} (hk : r.index = some k) (hik : i ≤ k) :
    r.merge (raised i ∅) = r ∧ (raised i ∅).merge r = r := by
  have hr : r.Proper := proper_of_isEngaged (isEngaged_iff.2 ⟨k, hk⟩)
  rw [merge_comm (proper_of_isEngaged rfl) hr, and_self]
  rcases Nat.lt_or_eq_of_le hik with hlt | rfl
  · exact merge_of_gt hk rfl hlt
  · have hunion : r.labels ∪ ∅ = r.labels := Labels.ext fun label => by simp
    rw [merge_of_eq hk rfl, labels_raised, hunion, ← hk]

end Record

/-! ## What is chosen between outcomes -/

namespace Choice

/-- The outcome is a failure. -/
def Failed (o : Except Fault (Result α)) : Prop := ∃ c r, o = .ok (.failure c r)

/-- The records of some outcomes. -/
def records (os : List (Except Fault (Result α))) : List Record := os.map Chain.record

/-- What an ordered choice at a cursor ends with, by the outcomes of its parsers there. -/
structure Ends (i : Nat) (os : List (Except Fault (Result α))) (o : Except Fault (Result α)) : Prop where
  /-- It succeeds as the first parser that does not fail, and has seen what the parsers up to it have seen. -/
  success {v : α} {n : Nat} {r : Record} : o = .ok (.success v n r) ↔
    ∃ before s after, os = before ++ .ok (.success v n s) :: after ∧ (∀ e ∈ before, Failed e) ∧
      r = .mergeAll (records before ++ [s])
  /-- It fails if all parsers fail, with what they have seen. Without parsers, nothing is expected at the cursor. -/
  failure {c : Nat} {r : Record} : o = .ok (.failure c r) ↔
    (∀ e ∈ os, Failed e) ∧ r.index = some c ∧ r = if os = [] then .raised i ∅ else .mergeAll (records os)
  /-- It is given up with the cause of the first parser that does not fail. -/
  error {cause : Fault} : o = .error cause ↔
    ∃ before after, os = before ++ .error cause :: after ∧ ∀ e ∈ before, Failed e

variable {os os' before before' after after' : List (Except Fault (Result α))} {o o' e e' : Except Fault (Result α)}
variable {i : Nat} {x : Result α}

theorem not_failed_success {v : α} {n : Nat} {r : Record} : ¬Failed (.ok (.success v n r)) := by
  rintro ⟨c, r', h⟩
  cases h

theorem not_failed_error {cause : Fault} : ¬Failed (.error cause : Except Fault (Result α)) := by
  rintro ⟨c, r, h⟩
  cases h

/-- What comes after the members with a property, and does not have it, comes first in one place. -/
theorem split_unique {κ : Type*} {P : κ → Prop} {before before' after after' : List κ} {e e' : κ}
    (hbefore : ∀ e ∈ before, P e) (hbefore' : ∀ e ∈ before', P e) (he : ¬P e) (he' : ¬P e')
    (h : before ++ e :: after = before' ++ e' :: after') : before = before' ∧ e = e' ∧ after = after' := by
  induction before generalizing before' with
  | nil =>
    cases before' with
    | nil => exact ⟨rfl, List.cons_eq_cons.1 h⟩
    | cons y ys =>
      obtain ⟨rfl, -⟩ := List.cons_eq_cons.1 h
      exact absurd (hbefore' e List.mem_cons_self) he
  | cons y ys ih =>
    cases before' with
    | nil =>
      obtain ⟨rfl, -⟩ := List.cons_eq_cons.1 h
      exact absurd (hbefore y List.mem_cons_self) he'
    | cons y' ys' =>
      obtain ⟨rfl, htail⟩ := List.cons_eq_cons.1 h
      obtain ⟨rfl, hrest⟩ := ih (fun e he => hbefore e (List.mem_cons_of_mem _ he))
        (fun e he => hbefore' e (List.mem_cons_of_mem _ he)) htail
      exact ⟨rfl, hrest⟩

theorem not_all_failed (he : ¬Failed e) : ¬∀ e' ∈ before ++ e :: after, Failed e' := fun h =>
  he (h e (List.mem_append_right _ List.mem_cons_self))

/-- The first parser that does not fail is given up. -/
theorem Ends.of_error (hbefore : ∀ e ∈ before, Failed e) (cause : Fault) :
    Ends i (before ++ .error cause :: after) (.error cause) where
  success := by
    refine iff_of_false nofun ?_
    rintro ⟨before', s, after', h, hbefore', -⟩
    cases (split_unique hbefore hbefore' not_failed_error not_failed_success h).2.1
  failure := iff_of_false nofun fun h => not_all_failed not_failed_error h.1
  error {cause'} := by
    constructor
    · rintro ⟨⟩
      exact ⟨before, after, rfl, hbefore⟩
    · rintro ⟨before', after', h, hbefore'⟩
      exact (split_unique hbefore hbefore' not_failed_error not_failed_error h).2.1

/-- The first parser that does not fail succeeds. -/
theorem Ends.of_success (hbefore : ∀ e ∈ before, Failed e) (v : α) (n : Nat) (s : Record) :
    Ends i (before ++ .ok (.success v n s) :: after) (.ok (.success v n (.mergeAll (records before ++ [s])))) where
  success {v' n' r} := by
    constructor
    · rintro ⟨⟩
      exact ⟨before, s, after, rfl, hbefore, rfl⟩
    · rintro ⟨before', s', after', h, hbefore', rfl⟩
      obtain ⟨rfl, hsame, -⟩ :=
        split_unique hbefore hbefore' not_failed_success not_failed_success h
      cases hsame
      rfl
  failure := iff_of_false nofun fun h => not_all_failed not_failed_success h.1
  error := by
    refine iff_of_false nofun ?_
    rintro ⟨before', after', h, hbefore'⟩
    cases (split_unique hbefore hbefore' not_failed_success not_failed_error h).2.1

/-- All parsers fail. -/
theorem Ends.of_failed (hos : ∀ e ∈ os, Failed e) {c : Nat} {r : Record} (hc : r.index = some c)
    (hr : r = if os = [] then .raised i ∅ else .mergeAll (records os)) : Ends i os (.ok (.failure c r)) where
  success := by
    refine iff_of_false nofun ?_
    rintro ⟨before, s, after, rfl, -⟩
    exact not_all_failed not_failed_success hos
  failure {c' r'} := by
    constructor
    · rintro ⟨⟩
      exact ⟨hos, hc, hr⟩
    · rintro ⟨-, hc', rfl⟩
      subst hr
      cases hc.symm.trans hc'
      rfl
  error := by
    refine iff_of_false nofun ?_
    rintro ⟨before, after, rfl, -⟩
    exact not_all_failed not_failed_error hos

/-- A choice that is not given up succeeds if one of its parsers does. -/
theorem Ends.succeeded_iff (h : Ends i os o) (ho : ∀ cause, o ≠ .error cause) :
    Chain.Succeeded o ↔ ∃ e ∈ os, Chain.Succeeded e := by
  constructor
  · rintro ⟨v, n, r, hr⟩
    obtain ⟨before, s, after, rfl, -⟩ := h.success.1 hr
    exact ⟨_, List.mem_append_right _ List.mem_cons_self, v, n, s, rfl⟩
  · rintro ⟨e, he, v, n, s, rfl⟩
    rcases hended : o with cause | ⟨w, m, r⟩ | ⟨c, r⟩
    · exact absurd hended (ho cause)
    · exact ⟨w, m, r, rfl⟩
    · exact absurd ((h.failure.1 hended).1 _ he) not_failed_success

/-- The outcomes of some parsers are well formed. -/
def WellFormed (os : List (Except Fault (Result α))) : Prop := ∀ o : Result α, .ok o ∈ os → o.WellFormed

theorem WellFormed.proper (h : WellFormed os) : ∀ r ∈ records os, r.Proper := fun r hr => by
  obtain ⟨e, he, rfl⟩ := List.mem_map.1 hr
  cases e with
  | error cause => exact Record.proper_empty
  | ok o => exact (h o he).proper

/-- Failures have seen a failure together. -/
theorem WellFormed.isEngaged (h : WellFormed os) (hos : ∀ e ∈ os, Failed e) (hnil : os ≠ []) :
    (Record.mergeAll (records os)).isEngaged := by
  obtain ⟨e, he⟩ := List.exists_mem_of_ne_nil os hnil
  obtain ⟨c, r, rfl⟩ := hos e he
  obtain ⟨k, hk⟩ := (h _ he).index_of_failure
  have hr : r ∈ records os := List.mem_map.2 ⟨_, he, rfl⟩
  obtain ⟨k', hk', -⟩ := Record.le_index_mergeAll hr hk
  exact Record.isEngaged_iff.2 ⟨k', hk'⟩

/-- The record of an outcome is added to those before it. -/
theorem WellFormed.merge_eq (h : WellFormed (before ++ .ok x :: after)) :
    x.furthest.merge (.mergeAll (records before)) = .mergeAll (records before ++ [x.furthest]) := by
  have hbefore : WellFormed before := fun o ho => h o (List.mem_append_left _ ho)
  have hx : x.WellFormed := h x (List.mem_append_right _ List.mem_cons_self)
  rw [Record.mergeAll_concat, Record.merge_comm hx.proper (Record.proper_mergeAll hbefore.proper)]

/-- Where all parsers fail, their order plays no part. -/
theorem Ends.eq_of_perm (h : Ends i os o) (h' : Ends i os' o') (hperm : os.Perm os') (ho : Failed o) :
    o' = o := by
  obtain ⟨c, r, rfl⟩ := ho
  obtain ⟨hall, hc, hr⟩ := h.failure.1 rfl
  have hrecords : Record.mergeAll (records os) = .mergeAll (records os') :=
    Record.mergeAll_eq_of_mem_iff fun r _ => (hperm.map Chain.record).mem_iff
  have hnil : os = [] ↔ os' = [] := ⟨fun h => (h ▸ hperm).symm.eq_nil, fun h => (h ▸ hperm).eq_nil⟩
  simp only [hrecords, hnil] at hr
  exact h'.failure.2 ⟨fun e he => hall e (hperm.mem_iff.2 he), hc, hr⟩

/-- What is chosen after some failures. The record that is handed along is merged of theirs. -/
theorem ends_choose (hwell : WellFormed (before ++ os)) (hbefore : ∀ e ∈ before, Failed e) :
    Ends i (before ++ os) (Result.choose i os (.mergeAll (records before))) := by
  induction os generalizing before with
  | nil =>
    rw [List.append_nil] at hwell ⊢
    by_cases hnil : before = []
    · subst hnil
      exact .of_failed hbefore rfl rfl
    · obtain ⟨k, hk⟩ := Record.isEngaged_iff.1 (hwell.isEngaged hbefore hnil)
      rw [Result.choose_nil hk]
      exact .of_failed hbefore hk (if_neg hnil).symm
  | cons e os ih =>
    rcases e with cause | ⟨v, n, s⟩ | ⟨c, s⟩
    · exact .of_error hbefore cause
    · show Ends i _ (.ok (.success v n (s.merge _)))
      rw [show s.merge _ = _ from hwell.merge_eq]
      exact .of_success hbefore v n s
    · show Ends i _ (Result.choose i os (s.merge _))
      have hrecords : records (before ++ [.ok (.failure c s : Result α)]) = records before ++ [s] := List.map_append
      rw [show s.merge _ = _ from hwell.merge_eq, List.append_cons]
      show Ends i _ (Result.choose i os (.mergeAll (records before ++ [s])))
      rw [← hrecords]
      refine ih (List.append_cons .. ▸ hwell) fun e he => ?_
      rcases List.mem_append.1 he with he | he
      · exact hbefore e he
      · exact ⟨c, s, List.mem_singleton.1 he⟩

end Choice

/-! ## Nested choices -/

namespace Combination

/-- Whatever an expression is a choice between, also where that is nested. A choice without parsers is a branch. -/
def branches : {α : Type} → Combination σ ι α → List (Combination σ ι α)
  | _, alt (n := 0) ps => [alt ps]
  | _, alt (n := _ + 1) ps => (List.finRange _).flatMap fun k => (ps k).branches
  | _, e => [e]

/-- A choice without parsers. -/
def isEmptyChoice : {α : Type} → Combination σ ι α → Bool
  | _, alt (n := 0) _ => true
  | _, _ => false

/-- The choice between some expressions. -/
def choice (es : List (Combination σ ι α)) : Combination σ ι α := alt es.get

theorem parser_choice (es : List (Combination σ ι α)) : (choice es).parser = Parser.alt (es.map parser) :=
  congrArg Parser.alt (map_finRange_eq es)

theorem branches_choice {es : List (Combination σ ι α)} (hes : es ≠ []) :
    (choice es).branches = es.flatMap branches := by
  cases es with
  | nil => exact absurd rfl hes
  | cons e es =>
    show (List.finRange (e :: es).length).flatMap (fun k => ((e :: es).get k).branches) = _
    rw [← List.flatMap_map, List.map_get_finRange]

end Combination

namespace Parser

variable {xs : List ι} {i : Nat}

/-- Goes on after a failure with the rest of a choice. -/
def orFrom (xs : List ι) (i : Nat) (ps : List (Parser σ ι α)) : Result α → Run σ (Result α)
  | .success v n r => return .success v n r
  | .failure _ r => altFrom xs i ps r

theorem altFrom_nil {r : Record} {k : Nat} (hk : r.index = some k) :
    (altFrom xs i [] r : Run σ (Result α)) = return .failure k r := by
  rw [altFrom, if_pos (Record.isEngaged_iff.2 ⟨k, hk⟩), Result.ofRecord_eq_ok_iff.2 ⟨k, hk, rfl⟩]
  rfl

theorem altFrom_cons (p : Parser σ ι α) (ps : List (Parser σ ι α)) (r : Record) :
    altFrom xs i (p :: ps) r = p xs i >>= fun o => orFrom xs i ps (o.aggregate r) :=
  bind_congr fun o => by cases o <;> rfl

/-- Where a choice goes on after a library parser, it has seen a proper record. -/
theorem altFrom_cons_congr (e : Combination σ ι α) {ps ps' : List (Parser σ ι α)} (r : Record)
    (h : ∀ s : Record, s.Proper → altFrom xs i ps s = altFrom xs i ps' s) :
    altFrom xs i (e.parser :: ps) r = altFrom xs i (e.parser :: ps') r := by
  rw [altFrom_cons, altFrom_cons]
  refine Run.bind_congr_of_outcome fun env o ho => ?_
  have hwell := e.wellFormed ho
  cases o with
  | success v n s => rfl
  | failure c s => exact h (s.merge r) hwell.proper.merge

/-- A choice that comes first in another one begins without a record, and hands on what it has seen. The rest goes on
with that, merged with what was seen before. -/
theorem altFrom_append (es : List (Combination σ ι α)) (ps : List (Parser σ ι α)) {s : Record} (r : Record)
    (hs : s.isEngaged ∨ es ≠ []) :
    (altFrom xs i (es.map Combination.parser) s >>= fun o => orFrom xs i ps (o.aggregate r)) =
      altFrom xs i (es.map Combination.parser ++ ps) (s.merge r) := by
  induction es generalizing s with
  | nil =>
    obtain ⟨k, hk⟩ := Record.isEngaged_iff.1 (hs.resolve_right (absurd rfl))
    rw [List.map_nil, altFrom_nil hk, pure_bind]
    rfl
  | cons e es ih =>
    rw [List.map_cons, List.cons_append, altFrom_cons, altFrom_cons, bind_assoc]
    refine Run.bind_congr_of_outcome fun env o ho => ?_
    rw [← Result.aggregate_aggregate]
    have hwell := (e.wellFormed ho).aggregate s
    cases o with
    | success v n t => exact pure_bind _ _
    | failure c t =>
      -- A failure engages the record that is handed along, so the inner choice may end after it.
      have ht : (t.merge s).isEngaged := hwell.isEngaged_of_failure
      simp only [Result.aggregate, orFrom, Record.merge_assoc] at ih ⊢
      rw [ih (.inl ht), Record.merge_assoc]

/-- The branches of some expressions stand in their place in a choice, if those of each do. -/
theorem altFrom_flatMap {κ : Type*} (qs : κ → Combination σ ι α) (ps : List (Parser σ ι α))
    (h : ∀ k (ps : List (Parser σ ι α)) (r : Record), r.Proper →
      altFrom xs i ((qs k).parser :: ps) r = altFrom xs i ((qs k).branches.map Combination.parser ++ ps) r)
    (ks : List κ) {r : Record} (hr : r.Proper) :
    altFrom xs i (ks.map (fun k => (qs k).parser) ++ ps) r =
      altFrom xs i ((ks.flatMap fun k => (qs k).branches).map Combination.parser ++ ps) r := by
  induction ks generalizing r with
  | nil => rfl
  | cons k ks ih =>
    rw [List.map_cons, List.cons_append, altFrom_cons_congr (qs k) r fun s hs => ih hs, h k _ r hr,
      List.flatMap_cons, List.map_append, List.append_assoc]

/-- The branches of an expression stand in its place in a choice. -/
theorem altFrom_branches (e : Combination σ ι α) (ps : List (Parser σ ι α)) (r : Record) (hr : r.Proper) :
    altFrom xs i (e.parser :: ps) r = altFrom xs i (e.branches.map Combination.parser ++ ps) r := by
  induction e generalizing r with
  | @alt α n qs ih =>
    cases n with
    | zero => rfl
    | succ n =>
      have hne : (List.finRange (n + 1)).map qs ≠ [] := by simp
      have happend := @altFrom_append σ ι α xs i ((List.finRange (n + 1)).map qs) ps ∅ r (.inr hne)
      rw [Record.empty_merge hr, List.map_map] at happend
      -- First the inner choice is opened, then each of its parsers.
      rw [altFrom_cons]
      exact happend.trans (altFrom_flatMap qs ps ih _ hr)
  | _ => rfl

/-- A choice is the choice between the branches of its parsers. -/
theorem alt_flatMap (es : List (Combination σ ι α)) :
    alt (es.map Combination.parser) = alt ((es.flatMap Combination.branches).map Combination.parser) :=
  funext fun xs => funext fun i => by
    have hflat := @altFrom_flatMap σ ι α xs i _ id [] (fun e => altFrom_branches e) es ∅ Record.proper_empty
    rwa [List.append_nil, List.append_nil] at hflat

end Parser

/-! ## Choices without parsers -/

/-- What an outcome comes to where nothing else is tried: the value and the next cursor of a success, and the record of
a failure. -/
def Result.verdict : Result α → Except Record (α × Nat)
  | .success v n _ => .ok (v, n)
  | .failure _ r => .error r

theorem Combination.le_index_of_failure (e : Combination σ ι α) {xs : List ι} {i c : Nat} {r : Record} {env : Env σ}
    (h : (e.parser xs i).outcome env = .ok (.failure c r)) : ∃ k, r.index = some k ∧ i ≤ k := by
  obtain ⟨-, hwithin⟩ := (e.guides (.notBeyond xs) i).outcome env
  rw [h] at hwithin
  obtain ⟨k, hk, hik, -⟩ := hwithin
  exact ⟨k, hk, hik⟩

theorem Combination.parser_of_isEmptyChoice {e : Combination σ ι α} (he : e.isEmptyChoice = true) :
    e.parser = Parser.alt [] := by
  cases e with
  | @alt _ n ps =>
    cases n with
    | zero => rfl
    | succ n => cases he
  | _ => cases he

namespace Parser

/-- On every input and from every cursor, two parsers change the environment alike, and are given up with the same fault
or come to the same verdict. -/
def DecidesAs (p q : Parser σ ι α) : Prop :=
  ∀ xs i, (do return (← p xs i).verdict) = do return (← q xs i).verdict

variable {xs : List ι} {i : Nat}

/-- The verdict on a choice that goes on after a parser. -/
theorem altFrom_cons_verdict (e : Combination σ ι α) {ps ps' : List (Parser σ ι α)} {r r' : Record}
    (h : ∀ (s : Record) (k : Nat), s.index = some k → i ≤ k → (do return (← altFrom xs i ps (s.merge r)).verdict) =
      do return (← altFrom xs i ps' (s.merge r')).verdict) :
    (do return (← altFrom xs i (e.parser :: ps) r).verdict) =
      do return (← altFrom xs i (e.parser :: ps') r').verdict := by
  rw [altFrom_cons, altFrom_cons, bind_assoc, bind_assoc]
  refine Run.bind_congr_of_outcome fun env o ho => ?_
  cases o with
  | success v n s => rfl
  | failure c s =>
    obtain ⟨k, hk, hik⟩ := e.le_index_of_failure ho
    exact h s k hk hik

/-- That nothing was expected at the cursor is no more than that nothing was tried. -/
theorem altFrom_raised_empty (es : List (Combination σ ι α)) :
    (do return (← altFrom xs i (es.map Combination.parser) (.raised i ∅)).verdict) =
      do return (← altFrom xs i (es.map Combination.parser) ∅).verdict := by
  cases es with
  | nil => rfl
  | cons e es =>
    refine altFrom_cons_verdict e fun s k hk hik => ?_
    rw [(Record.merge_raised_empty hk hik).1, Record.merge_empty]

/-- Choices without parsers decide nothing in a choice. -/
theorem altFrom_filter (es : List (Combination σ ι α)) {r : Record}
    (hr : r = ∅ ∨ ∃ k, r.index = some k ∧ i ≤ k) :
    (do return (← altFrom xs i (es.map Combination.parser) r).verdict) =
      do return (← altFrom xs i ((es.filter (!·.isEmptyChoice)).map Combination.parser) r).verdict := by
  induction es generalizing r with
  | nil => rfl
  | cons e es ih =>
    by_cases he : e.isEmptyChoice
    · rw [List.filter_cons_of_neg (by simp [he]), List.map_cons, altFrom_cons, Combination.parser_of_isEmptyChoice he]
      show (do return (← altFrom xs i (es.map Combination.parser) ((Record.raised i ∅).merge r)).verdict) = _
      -- Nothing was tried before, or something failed at the cursor or beyond.
      rcases hr with rfl | ⟨k, hk, hik⟩
      · rw [Record.merge_empty, ih (.inr ⟨i, rfl, Nat.le_refl i⟩)]
        exact altFrom_raised_empty _
      · rw [(Record.merge_raised_empty hk hik).2]
        exact ih (.inr ⟨k, hk, hik⟩)
    · rw [List.filter_cons_of_pos (by simp [he]), List.map_cons, List.map_cons]
      refine altFrom_cons_verdict e fun s k hk hik => ih (.inr ?_)
      rw [Record.index_merge, hk]
      rcases r.index with _ | j
      · exact ⟨k, rfl, hik⟩
      · exact ⟨max k j, rfl, hik.trans (Nat.le_max_left k j)⟩

/-- A library parser decides as the choice of it alone. -/
theorem decidesAs_alt (e : Combination σ ι α) : e.parser.DecidesAs (alt [e.parser]) := fun xs i => by
  show _ = do return (← altFrom xs i [e.parser] ∅).verdict
  rw [altFrom_cons, bind_assoc]
  refine Run.bind_congr_of_outcome fun env o ho => ?_
  cases o with
  | success v n s => rfl
  | failure c s =>
    obtain ⟨k, hk⟩ := (e.wellFormed ho).index_of_failure
    simp only [Result.aggregate, Record.merge_empty, orFrom, altFrom_nil hk]
    rfl

/-- A library parser decides as the choice between its branches, those without parsers left out. -/
theorem decidesAs_branches (e : Combination σ ι α) :
    e.parser.DecidesAs (alt ((e.branches.filter (!·.isEmptyChoice)).map Combination.parser)) := fun xs i => by
  refine Eq.trans ?_ (altFrom_filter e.branches (.inl rfl))
  rw [decidesAs_alt e xs i]
  show (do return (← altFrom xs i [e.parser] ∅).verdict) = _
  rw [altFrom_branches e [] ∅ Record.proper_empty, List.append_nil]

end Parser

/-! ## Described choices -/

namespace Grammar

variable {a : Alphabet} {enter : Grammar a → Meaning a}

mutual

/-- Whatever a description is a choice between, also where that is nested. -/
def branches : Grammar a → List (Grammar a)
  | alt [] => [alt []]
  | alt (q :: qs) => q.branches ++ branchesOf qs
  | q => [q]

/-- The branches of some descriptions, one after another. -/
def branchesOf : List (Grammar a) → List (Grammar a)
  | [] => []
  | q :: qs => q.branches ++ branchesOf qs

end

/-- A described choice without parsers. -/
def isEmptyChoice : Grammar a → Bool
  | alt [] => true
  | _ => false

theorem branchesOf_eq_flatMap (qs : List (Grammar a)) : branchesOf qs = qs.flatMap branches := by
  induction qs with
  | nil => rfl
  | cons q qs ih => rw [branchesOf, ih, List.flatMap_cons]

theorem branches_alt_cons (q : Grammar a) (qs : List (Grammar a)) :
    (alt (q :: qs)).branches = (q :: qs).flatMap branches := by
  rw [branches, branchesOf_eq_flatMap, List.flatMap_cons]

/-- A choice that is built two at a time from the left is a choice between all parts. -/
theorem branches_orElseAll (p : Grammar a) (qs : List (Grammar a)) :
    (orElseAll p qs).branches = (p :: qs).flatMap branches := by
  induction qs generalizing p with
  | nil => rw [List.flatMap_singleton]; rfl
  | cons q qs ih =>
    show (orElseAll (alt [p, q]) qs).branches = _
    rw [ih, List.flatMap_cons, branches_alt_cons, List.flatMap_cons, List.flatMap_singleton, List.append_assoc]
    rfl

theorem exists_orElseAll_eq_alt (p q : Grammar a) (qs : List (Grammar a)) :
    ∃ p' q', orElseAll p (q :: qs) = alt [p', q'] := by
  induction qs generalizing p q with
  | nil => exact ⟨p, q, rfl⟩
  | cons r qs ih => exact ih (alt [p, q]) r

/-- An expression stands for a description, and is a choice without parsers if that is. -/
def StandsFor (enter : Grammar a → Meaning a) (e : Combination (Store a) a.Carrier Value) (q : Grammar a) : Prop :=
  e.parser = parserBy enter q ∧ e.isEmptyChoice = q.isEmptyChoice

/-- An expression that stands for a description and has the same branches. -/
def Mirrors (enter : Grammar a → Meaning a) (e : Combination (Store a) a.Carrier Value) (q : Grammar a) : Prop :=
  e.parser = parserBy enter q ∧ List.Forall₂ (StandsFor enter) e.branches q.branches

/-- What is not a choice is mirrored by an expression that is none. -/
theorem exists_mirrors_branch {q : Grammar a} (h : ∀ p, (enter p).Combined Run.Silent) (hq : q.branches = [q])
    (hempty : q.isEmptyChoice = false) : ∃ e, Mirrors enter e q := by
  obtain ⟨e, -, he⟩ := combined_parserBy h q
  exact ⟨.rule fun _ _ => e, he, hq ▸ .cons ⟨he, hempty.symm⟩ .nil⟩

mutual

theorem exists_mirrors (h : ∀ p, (enter p).Combined Run.Silent) : (q : Grammar a) → ∃ e, Mirrors enter e q
  | alt [] => ⟨.choice [], rfl, .cons ⟨rfl, rfl⟩ .nil⟩
  | alt (q :: qs) => by
    obtain ⟨e, hparser, hbranches⟩ := exists_mirrors h q
    obtain ⟨es, hparsers, hrest⟩ := exists_mirrors_all h qs
    refine ⟨.choice (e :: es), ?_, ?_⟩
    · rw [Combination.parser_choice, List.map_cons, hparser, hparsers]
      rfl
    · rw [Combination.branches_choice (List.cons_ne_nil e es), List.flatMap_cons]
      exact List.rel_append hbranches hrest
  | leaf _ | andThen _ _ | skip _ _ | tuple _ | sequence _ | times _ _ | sepBy _ _ _ | manyUntil _ _ _ | map _ _
  | bind _ _ | mark _ | desc _ _ | shouldFail _ _ | peek _ | traced _ _ | lazy _ _ | rule _ | call _ | ref _
  | forward _ | cell _ | declared _ | raise _ => exists_mirrors_branch h rfl rfl

theorem exists_mirrors_all (h : ∀ p, (enter p).Combined Run.Silent) : (qs : List (Grammar a)) →
    ∃ es : List (Combination (Store a) a.Carrier Value), es.map Combination.parser = parsersBy enter qs ∧
      List.Forall₂ (StandsFor enter) (es.flatMap Combination.branches) (branchesOf qs)
  | [] => ⟨[], rfl, .nil⟩
  | q :: qs => by
    obtain ⟨e, hparser, hbranches⟩ := exists_mirrors h q
    obtain ⟨es, hparsers, hrest⟩ := exists_mirrors_all h qs
    refine ⟨e :: es, ?_, ?_⟩
    · rw [List.map_cons, hparser, hparsers]
      rfl
    · rw [List.flatMap_cons]
      exact List.rel_append hbranches hrest

end

theorem map_parser_eq {es : List (Combination (Store a) a.Carrier Value)} {qs : List (Grammar a)}
    (h : List.Forall₂ (StandsFor enter) es qs) : es.map Combination.parser = qs.map (parserBy enter) := by
  induction h with
  | nil => rfl
  | cons he _ ih => rw [List.map_cons, List.map_cons, he.1, ih]

theorem standsFor_filter {es : List (Combination (Store a) a.Carrier Value)} {qs : List (Grammar a)}
    (h : List.Forall₂ (StandsFor enter) es qs) :
    List.Forall₂ (StandsFor enter) (es.filter (!·.isEmptyChoice)) (qs.filter (!·.isEmptyChoice)) :=
  List.rel_filter (fun _ _ he => by simp only [he.2]) h

variable (limit : Nat)

/-- A described choice is the choice between its described parts. -/
theorem parserWithin_alt (qs : List (Grammar a)) :
    (alt qs).parserWithin (limit + 1) = Parser.alt (qs.map (parserWithin (limit + 1))) :=
  congrArg Parser.alt (parsersBy_eq_map _ qs)

/-- A described choice is the choice between the branches of its parts. -/
theorem parserWithin_alt_branches (qs : List (Grammar a)) :
    (alt qs).parserWithin limit = (alt (qs.flatMap branches)).parserWithin limit := by
  cases limit with
  | zero => rfl
  | succ limit =>
    obtain ⟨es, hes, hbranches⟩ := exists_mirrors_all (combined_parserWithin limit) qs
    show Parser.alt (parsersBy _ qs) = Parser.alt (parsersBy _ (qs.flatMap branches))
    rw [← hes, Parser.alt_flatMap, map_parser_eq hbranches, branchesOf_eq_flatMap, parsersBy_eq_map]

/-- A described choice that is built two at a time from the left is the choice between all its parts. -/
theorem parserWithin_orElseAll (p q : Grammar a) (qs : List (Grammar a)) :
    (orElseAll p (q :: qs)).parserWithin limit = (alt (p :: q :: qs)).parserWithin limit := by
  obtain ⟨p', q', halt⟩ := exists_orElseAll_eq_alt p q qs
  have hbranches := branches_orElseAll p (q :: qs)
  rw [halt, branches_alt_cons] at hbranches
  rw [halt, parserWithin_alt_branches, hbranches, ← parserWithin_alt_branches]

/-- A described parser decides as the choice between its branches, those without parsers left out. -/
theorem decidesAs_branches (q : Grammar a) : (q.parserWithin (limit + 1)).DecidesAs
    ((alt (q.branches.filter (!·.isEmptyChoice))).parserWithin (limit + 1)) := by
  obtain ⟨e, he, hbranches⟩ := exists_mirrors (combined_parserWithin limit) q
  have hdecides := Parser.decidesAs_branches e
  rwa [he, map_parser_eq (standsFor_filter hbranches), ← parsersBy_eq_map] at hdecides

end Grammar

/-! ## Main statement -/

namespace Choice

/-- A choice is ordered: it ends with the first part that does not fail, succeeds if a part does, and fails alike in
every order of its parts. -/
structure Ordered {κ : Type*} (i : Nat) (tried : κ → Except Fault (Result α))
    (ended : List κ → Except Fault (Result α)) (ks : List κ) : Prop where
  ends : Ends i (ks.map tried) (ended ks)
  succeeded_iff (hgiven : ∀ cause, ended ks ≠ .error cause) :
    Chain.Succeeded (ended ks) ↔ ∃ k ∈ ks, Chain.Succeeded (tried k)
  perm {ks' : List κ} (hperm : ks.Perm ks') (hfailed : Failed (ended ks)) : ended ks' = ended ks

variable {κ : Type*} {steady : Env σ → Prop} {xs : List ι} {i : Nat} {env : Env σ} {p : κ → Parser σ ι α}

/-- A choice between library parsers that can be run again. -/
theorem ends_alt {ks : List κ} (hcombined : ∀ k, ∃ e : Combination σ ι α, e.parser = p k)
    (hanswers : ∀ k ∈ ks, (p k).Answers xs steady fun j => (p k xs j).outcome env) (henv : steady env) :
    WellFormed (ks.map fun k => (p k xs i).outcome env) ∧
      Ends i (ks.map fun k => (p k xs i).outcome env) ((Parser.alt (ks.map p) xs i).outcome env) := by
  have hwell : WellFormed (ks.map fun k => (p k xs i).outcome env) := fun o ho => by
    obtain ⟨k, -, hended⟩ := List.mem_map.1 ho
    obtain ⟨e, he⟩ := hcombined k
    exact e.wellFormed (he ▸ hended)
  have hgives : List.Forall₂ (fun p o => (p xs i).Gives steady o) (ks.map p)
      (ks.map fun k => (p k xs i).outcome env) :=
    List.forall₂_map_left_iff.2 <| List.forall₂_map_right_iff.2 <| List.forall₂_same.2 fun k hk =>
      Parser.answers_iff.1 (hanswers k hk) i
  rw [(Run.Gives.alt hgives env henv).1]
  exact ⟨hwell, ends_choose hwell (List.forall_mem_nil _)⟩

theorem ordered_alt {ks : List κ} (hcombined : ∀ k, ∃ e : Combination σ ι α, e.parser = p k)
    (hanswers : ∀ k ∈ ks, (p k).Answers xs steady fun j => (p k xs j).outcome env) (henv : steady env) :
    Ordered i (fun k => (p k xs i).outcome env) (fun ks => (Parser.alt (ks.map p) xs i).outcome env) ks where
  ends := (ends_alt hcombined hanswers henv).2
  succeeded_iff hgiven := ((ends_alt hcombined hanswers henv).2.succeeded_iff hgiven).trans (by simp)
  perm {ks'} hperm hfailed := by
    obtain ⟨-, hends⟩ := ends_alt (i := i) hcombined hanswers henv
    obtain ⟨-, hends'⟩ := ends_alt (i := i) hcombined (fun k hk => hanswers k (hperm.mem_iff.2 hk)) henv
    exact hends.eq_of_perm hends' (hperm.map _) hfailed

end Choice

/-- An ordered choice between library parsers that can be run again ends as the first of them that does not fail at the
cursor (`Choice.Ends`). If it is not given up, it succeeds exactly if one of them does. If it fails, it fails alike in
every order of its parsers. Described parsers can be run again, whatever is deferred in them.

A choice between choices is one choice between all branches, and the same parser, however the branches are bracketed;
so is a described choice that is built two at a time. Choices without parsers, wherever they are put in, play no part
in the verdict: not in the value and the next cursor of a success, nor in the record of a failure. -/
theorem ordered_choice :
    (∀ {steady : Env σ → Prop} {xs : List ι} {env : Env σ} (es : List (Combination σ ι α)) (i : Nat), steady env →
      (∀ e ∈ es, e.parser.Answers xs steady fun j => (e.parser xs j).outcome env) →
        Choice.Ordered i (fun e : Combination σ ι α => (e.parser xs i).outcome env)
          (fun es => (Parser.alt (es.map Combination.parser) xs i).outcome env) es) ∧
    (∀ {a : Alphabet} (limit : Nat) (qs : List (Grammar a)) (xs : List a.Carrier) (i : Nat) (env : Env (Store a)),
      env.store.Scoped → (∀ q ∈ qs, q.Within env.store.cells.size) →
        let ended (q : Grammar a) := (q.parserWithin (limit + 1) xs i).outcome env
        Choice.Ordered i ended (fun qs => ended (.alt qs)) qs) ∧
    (∀ es : List (Combination σ ι α), Parser.alt (es.map Combination.parser) =
      Parser.alt ((es.flatMap Combination.branches).map Combination.parser)) ∧
    (∀ e e' : Combination σ ι α,
      e.branches.filter (!·.isEmptyChoice) = e'.branches.filter (!·.isEmptyChoice) → e.parser.DecidesAs e'.parser) ∧
    (∀ {a : Alphabet} (limit : Nat) (qs : List (Grammar a)),
      (Grammar.alt qs).parserWithin limit = (Grammar.alt (qs.flatMap Grammar.branches)).parserWithin limit) ∧
    (∀ {a : Alphabet} (limit : Nat) (p q : Grammar a) (qs : List (Grammar a)),
      (Grammar.orElseAll p (q :: qs)).parserWithin limit = (Grammar.alt (p :: q :: qs)).parserWithin limit) ∧
    ∀ {a : Alphabet} (limit : Nat) (q q' : Grammar a),
      q.branches.filter (!·.isEmptyChoice) = q'.branches.filter (!·.isEmptyChoice) →
        (q.parserWithin limit).DecidesAs (q'.parserWithin limit) := by
  refine ⟨fun es i henv hanswers => Choice.ordered_alt (fun e => ⟨e, rfl⟩) hanswers henv,
    fun {a} limit qs xs i env hs hqs => ?described, Parser.alt_flatMap, fun e e' h xs i => ?units,
    Grammar.parserWithin_alt_branches, Grammar.parserWithin_orElseAll, fun {a} limit q q' h xs i => ?describedUnits⟩
  case described =>
    have hordered := Choice.ordered_alt (i := i) (p := Grammar.parserWithin (limit + 1))
      (fun q => (Grammar.combined_parserWithin (limit + 1) q).imp fun _ => And.right)
      (fun q hq => Grammar.answers hs (hqs q hq) (limit + 1) xs) hs.grown
    simpa only [← Grammar.parserWithin_alt] using hordered
  case units => rw [Parser.decidesAs_branches e xs i, h, Parser.decidesAs_branches e' xs i]
  case describedUnits =>
    cases limit with
    | zero => rfl
    | succ limit => rw [Grammar.decidesAs_branches limit q xs i, h, Grammar.decidesAs_branches limit q' xs i]

/-- A pair or its first item, and a choice between a rule and an item. -/
theorem ordered_choice_of_pair_or_item :
    let item (b : UInt8) : Combination Unit UInt8 UInt8 := .primitive (.satisfy (.symbol b))
    let es := [(item 97).andThen (item 98), item 97]
    let env : Env Unit := ⟨.ofLevel .off, ()⟩
    let ended (xs : Bytes) := (Parser.alt (es.map Combination.parser) xs 0).outcome env
    let described (b : UInt8) : Grammar .bytes := .one (.symbol b)
    let rule : Grammar .bytes := .call (ascii "item")
    let session : Env (Store .bytes) := Session.initial [(ascii "item", described 97)] .off
    let choice (q q' : Grammar .bytes) := ((Grammar.alt [q, q']).parserWithin 2 [99] 0).outcome session
    (∀ xs, ∀ e ∈ es, e.parser.Answers xs (fun _ => True) fun j => (e.parser xs j).outcome env) ∧
      ended [97, 99] = .ok (.success 97 1 (.raised 1 (.singleton [98]))) ∧
      (∃ before s after, es.map (fun e => (e.parser [97, 99] 0).outcome env) =
        before ++ .ok (.success 97 1 s) :: after ∧ ∀ e ∈ before, Choice.Failed e) ∧
      session.store.Scoped ∧ rule.Within session.store.cells.size ∧
      choice rule (described 98) = .ok (.fail 0 (.singleton [97] ∪ .singleton [98])) ∧
      choice (described 98) rule = choice rule (described 98) ∧
      (Combination.choice [.choice [], item 97]).parser.DecidesAs (item 97).parser ∧
      ((Grammar.alt [.alt [], rule]).parserWithin 2).DecidesAs (rule.parserWithin 2) := by
  intro item es env ended described rule session choice
  obtain ⟨combined, describes, -, units, -, -, describedUnits⟩ := ordered_choice (σ := Unit) (ι := UInt8) (α := UInt8)
  have hanswers : ∀ xs, ∀ e ∈ es, e.parser.Answers xs (fun _ => True) fun j => (e.parser xs j).outcome env := by
    intro xs e he
    have himmediate : e.Immediate := by
      rcases List.mem_pair.1 he with rfl | rfl
      · exact ⟨trivial, trivial⟩
      · exact trivial
    exact himmediate.answers xs env
  have hended : ended [97, 99] = .ok (.success 97 1 (.raised 1 (.singleton [98]))) := by decide
  obtain ⟨before, s, after, hsplit, hbefore, -⟩ :=
    (combined es 0 trivial (hanswers [97, 99])).ends.success.1 hended
  have hrules : ∀ r ∈ [(ascii "item", described 97)], r.2.Source := List.forall_mem_singleton.2 trivial
  have hscoped : session.store.Scoped := Session.scoped_initial hrules .off
  have hrule : rule.Within session.store.cells.size := .deferred (.call _)
  have hdescribed : (described 98).Within session.store.cells.size := .leaf _
  have hfailed : choice rule (described 98) = .ok (.fail 0 (.singleton [97] ∪ .singleton [98])) := rfl
  have hwithin : ∀ q ∈ [rule, described 98], q.Within session.store.cells.size := by simp [hrule, hdescribed]
  exact ⟨hanswers, hended, ⟨before, s, after, hsplit, hbefore⟩, hscoped, hrule, hfailed,
    (describes 1 _ [99] 0 session hscoped hwithin).perm (.swap _ _ _) ⟨_, _, hfailed⟩, units _ _ rfl,
    describedUnits 2 _ _ rfl⟩

end Furthest
