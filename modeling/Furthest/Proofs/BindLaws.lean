import Furthest.Proofs.RaisedRecords
import Furthest.Proofs.SeparatedRepetition

/-!
# Laws of going on from a value

Parsers with `succeed` and `bind` are a monad, as far as can be told from what they report: the laws hold of what they
decide and of the failures that they have seen, but not of the cursor that a failure keeps. `Parser.ReportsAs` has that
two parsers report the same, are given up with the same fault, and leave the same environment.

The two sides of a law merge the same records in another order. So they report the same because library parsers end well
formed (`Combination.wellFormed`): a record without an index is empty, and a failure has an index.

Main statement: `bind_laws`.
-/

namespace Furthest

variable {σ ι α β γ : Type}

/-! ## Well-formed outcomes -/

/-- The record of the outcome is proper, and that of a failure has an index. -/
structure Result.WellFormed (o : Result α) : Prop where
  proper : o.furthest.Proper
  engaged : o.isSuccess ∨ o.furthest.isEngaged

namespace Result

theorem WellFormed.isEngaged_of_failure {c : Nat} {r : Record} (h : (failure c r : Result α).WellFormed) :
    r.isEngaged := h.engaged.resolve_left Bool.false_ne_true

theorem WellFormed.index_of_failure {c : Nat} {r : Record} (h : (failure c r : Result α).WellFormed) :
    ∃ k, r.index = some k := Record.isEngaged_iff.1 h.isEngaged_of_failure

theorem WellFormed.aggregate {o : Result α} (h : o.WellFormed) (r : Record) : (o.aggregate r).WellFormed where
  proper := by
    rw [furthest_aggregate]
    exact h.proper.merge
  engaged := by
    rw [isSuccess_aggregate, furthest_aggregate, Record.isEngaged_merge, Bool.or_eq_true]
    exact h.engaged.imp_right .inl

/-- Records that are seen one after the other are seen together. -/
theorem aggregate_aggregate (o : Result α) (r s : Record) : (o.aggregate r).aggregate s = o.aggregate (r.merge s) := by
  cases o <;> simp only [aggregate, Record.merge_assoc]

end Result

/-- The outcomes of library parsers are well formed. -/
theorem Combination.wellFormed (e : Combination σ ι α) {xs : List ι} {i : Nat} {env : Env σ} {o : Result α}
    (h : (e.parser xs i).outcome env = .ok o) : o.WellFormed := by
  obtain ⟨-, hsees⟩ := (e.guides (.seesRaised xs) i).outcome env
  rw [h] at hsees
  cases o with
  | success v n r =>
    refine ⟨?_, .inl rfl⟩
    rw [show (Result.success v n r).furthest = _ from hsees]
    exact Record.proper_mergeAll (Event.proper_of_mem_raisedAll _)
  | failure c r => exact ⟨Record.proper_of_isEngaged hsees.2, .inr hsees.2⟩

/-! ## Parsers that report the same -/

namespace Parser

/-- On every input and from every cursor, two parsers change the environment alike, and are given up with the same
fault or report the same. -/
def ReportsAs (p q : Parser σ ι α) : Prop :=
  ∀ xs i, (do return (← p xs i).report) = do return (← q xs i).report

theorem bind_succeed_left (v : α) (f : α → Parser σ ι β) : (succeed v).bind f = f v :=
  funext fun xs => funext fun i => by
    simp only [bind, succeed, pure_bind, Result.proceed, Result.aggregate_empty, bind_pure]

/-- Nothing is added to a success by succeeding again, and a failure is made anew of its record. -/
theorem bind_succeed (e : Combination σ ι α) : (e.parser.bind succeed).ReportsAs e.parser := fun xs i => by
  simp only [bind, bind_assoc]
  refine Run.bind_congr_of_outcome fun env o ho => ?_
  have hwell := e.wellFormed ho
  cases o with
  | success v n r =>
    have hr : (∅ : Record).merge r = r := Record.empty_merge hwell.proper
    simp only [Result.proceed, succeed, pure_bind, Result.aggregate, hr]
  | failure c r =>
    obtain ⟨k, hk⟩ := hwell.index_of_failure
    exact ofRecord_bind_report hk

/-- The records of three parsers are merged in either order. Where the second parser fails, one side makes its failure
anew before the record of the first is added, and the other side after. -/
theorem bind_bind (p : Combination σ ι α) (f : α → Combination σ ι β) (g : β → Parser σ ι γ) :
    ((p.parser.bind fun v => (f v).parser).bind g).ReportsAs (p.parser.bind fun v => (f v).parser.bind g) :=
  fun xs i => by
  simp only [bind, bind_assoc]
  refine Run.bind_congr_of_outcome fun env o ho => ?_
  cases o with
  | failure c r =>
    obtain ⟨k, hk⟩ := (p.wellFormed ho).index_of_failure
    simp only [Result.proceed, Result.ofRecord_eq_ok_iff.2 ⟨k, hk, rfl⟩]
    exact ofRecord_bind_report hk
  | success v m r =>
    simp only [Result.proceed, bind_assoc, pure_bind]
    refine Run.bind_congr_of_outcome fun env o ho => ?_
    cases o with
    | success w n s =>
      have hs : (Result.success w n s).aggregate r = .success w n (s.merge r) := rfl
      simp only [hs, bind_assoc, pure_bind, Result.aggregate_aggregate]
    | failure c s =>
      have hwell := (f v).wellFormed ho
      obtain ⟨k, hk⟩ := hwell.index_of_failure
      obtain ⟨k', hk'⟩ := (hwell.aggregate r).index_of_failure
      simp only [Result.aggregate, Result.ofRecord_eq_ok_iff.2 ⟨k, hk, rfl⟩]
      exact ofRecord_bind_report hk'

/-- A function that may decline a value goes on with `succeed`, or gives up. -/
theorem tryMap_eq_bind (e : Combination σ ι α) (h : α → Except Fault β) :
    e.parser.tryMap h = e.parser.bind fun v => match h v with
      | .ok w => succeed w
      | .error cause => giveUp cause :=
  funext fun xs => funext fun i => Run.bind_congr_of_outcome fun env o ho => by
    cases o with
    | failure c r => rfl
    | success v n r =>
      have hr : (∅ : Record).merge r = r := Record.empty_merge (e.wellFormed ho).proper
      simp only [Result.proceed]
      rcases h v with cause | w
      · rfl
      · simp only [succeed, pure_bind, Result.aggregate, hr]
        rfl

end Parser

/-! ## Main statement -/

/-- The laws of a monad, for library parsers: `succeed` is the left and the right identity of `bind`, `bind` is
associative, and to change a value is to succeed with the changed one, or to give up if the function declines it. -/
theorem bind_laws (p : Combination σ ι α) (f : α → Combination σ ι β) (g : β → Combination σ ι γ) :
    (∀ v, ((Parser.succeed v).bind fun v => (f v).parser) = (f v).parser) ∧
    (p.parser.bind Parser.succeed).ReportsAs p.parser ∧
    ((p.parser.bind fun v => (f v).parser).bind fun w => (g w).parser).ReportsAs
      (p.parser.bind fun v => (f v).parser.bind fun w => (g w).parser) ∧
    (∀ h : α → β, p.parser.map h = p.parser.bind fun v => Parser.succeed (h v)) ∧
    ∀ h : α → Except Fault β, p.parser.tryMap h = p.parser.bind fun v => match h v with
      | .ok w => Parser.succeed w
      | .error cause => Parser.giveUp cause :=
  ⟨fun v => Parser.bind_succeed_left v _, Parser.bind_succeed p, Parser.bind_bind p f _,
    fun h => Parser.tryMap_eq_bind p fun v => .ok (h v), Parser.tryMap_eq_bind p⟩

end Furthest
