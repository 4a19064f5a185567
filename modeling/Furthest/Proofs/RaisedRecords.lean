import Furthest.Proofs.Discipline

/-!
# What an outcome has seen

`Event.raisedAll` lists the records that an invocation raised, in order, read off what was noted of it: a
primitive parser that fails raises its label, and a combinator raises what the parsers inside it raised,
attempts that it absorbed or gave back included. Only a named parser that fails replaces what was raised
inside it, and a parser that tries whether another one fails hides it.

Main statement: `furthest_eq_mergeAll_raised`. The record of an outcome is exactly the merge of the records
that were raised.
-/

namespace Furthest

variable {σ ι α : Type}

namespace Event

mutual

/-- The records that were raised in what an event stands for. -/
def raised : Event → List Record
  | leaf start label (.failed _) => [.raised start (.singleton label)]
  | leaf .. => []
  | emptyChoice start => [.raised start ∅]
  | desc start label (.failed _) _ => [.raised start (.singleton label)]
  | desc _ _ _ inside => raisedAll inside
  | shouldFail start label (.failed _) _ => [.raised start (.singleton label)]
  | shouldFail .. => []

def raisedAll : List Event → List Record
  | [] => []
  | e :: es => e.raised ++ raisedAll es

end

@[simp] theorem raisedAll_nil : raisedAll [] = [] := rfl

@[simp] theorem raisedAll_singleton (e : Event) : raisedAll [e] = e.raised := List.append_nil _

@[simp] theorem raisedAll_append (es es' : List Event) :
    raisedAll (es ++ es') = raisedAll es ++ raisedAll es' := by
  induction es with
  | nil => rfl
  | cons e es ih => simp [raisedAll, ih]

mutual

/-- Every record that was raised has an index. -/
theorem isEngaged_of_mem_raised : (e : Event) → ∀ r ∈ e.raised, r.isEngaged
  | leaf _ _ (.failed _) => by simp [raised]
  | leaf _ _ (.matched ..) | leaf _ _ (.gaveUp _) => by simp [raised]
  | emptyChoice _ => by simp [raised]
  | desc _ _ (.failed _) _ => by simp [raised]
  | desc _ _ (.matched ..) inside | desc _ _ (.gaveUp _) inside => isEngaged_of_mem_raisedAll inside
  | shouldFail _ _ (.failed _) _ => by simp [raised]
  | shouldFail _ _ (.matched ..) _ | shouldFail _ _ (.gaveUp _) _ => by simp [raised]

theorem isEngaged_of_mem_raisedAll : (es : List Event) → ∀ r ∈ raisedAll es, r.isEngaged
  | [] => by simp
  | e :: es => fun r hr => (List.mem_append.1 hr).elim (isEngaged_of_mem_raised e r)
    (isEngaged_of_mem_raisedAll es r)

end

theorem proper_of_mem_raisedAll (es : List Event) : ∀ r ∈ raisedAll es, r.Proper := fun r hr =>
  Record.proper_of_isEngaged (isEngaged_of_mem_raisedAll es r hr)

end Event

namespace Ending

/-- The ending has seen the merge of some records, and a failure has seen one at least. -/
def Sees (rs : List Record) : Ending → Prop
  | matched _ r => r = Record.mergeAll rs
  | failed r => r = Record.mergeAll rs ∧ r.isEngaged
  | gaveUp _ => True

theorem Sees.aggregate {rs rs' : List Record} {e : Ending} (hrs : ∀ r ∈ rs, r.Proper) (hrs' : ∀ r ∈ rs', r.Proper)
    (h : e.Sees rs') : (e.aggregate (.mergeAll rs)).Sees (rs ++ rs') := by
  have hmerge : (Record.mergeAll rs').merge (Record.mergeAll rs) = Record.mergeAll (rs ++ rs') := by
    rw [Record.mergeAll_append hrs', Record.merge_comm (Record.proper_mergeAll hrs') (Record.proper_mergeAll hrs)]
  cases e with
  | matched n r => rw [Ending.aggregate, show r = _ from h, hmerge]; rfl
  | failed r => exact ⟨by rw [h.1, hmerge], by simp [h.2]⟩
  | gaveUp cause => trivial

end Ending

namespace Discipline

/-- The record of an ending is the merge of the records that were raised. -/
def seesRaised (xs : List ι) : Discipline xs where
  holds _ l e := e.Sees (Event.raisedAll l)
  engaged h := h.2
  leaf p i := by
    rcases p.ended_cases xs i with ⟨v, n, h, -⟩ | h | ⟨-, h⟩ <;> rw [h]
    · exact rfl
    · exact ⟨rfl, rfl⟩
    · trivial
  idle _ := rfl
  declined _ := trivial
  next h h' := by
    rw [Event.raisedAll_append, show _ = Record.mergeAll _ from h]
    exact h'.aggregate (Event.proper_of_mem_raisedAll _) (Event.proper_of_mem_raisedAll _)
  absorb h := h.1
  back h := h
  refuse h he := ⟨h, he⟩
  emptyChoice i := ⟨rfl, rfl⟩
  desc {i l e} label h := by
    cases e with
    | matched n r => simpa [Ending.named, Event.raised] using h
    | failed r => exact ⟨rfl, rfl⟩
    | gaveUp cause => trivial
  shouldFail {i l e} label h := by
    cases e with
    | matched n r => exact ⟨rfl, rfl⟩
    | failed r => rfl
    | gaveUp cause => trivial

end Discipline

/-- The records that an invocation raises. -/
def Combination.raised (e : Combination σ ι α) (xs : List ι) (i : Nat) (env : Env σ) : List Record :=
  Event.raisedAll ((e.observed xs i).noted env)

/-- The record of an outcome is the merge of the records that were raised: without an index if none was
raised, and otherwise with the greatest index and all labels that were raised there. -/
theorem furthest_eq_mergeAll_raised (e : Combination σ ι α) (xs : List ι) (i : Nat) (env : Env σ)
    (r : Result α) (h : (e.parser xs i).outcome env = .ok r) :
    (e.observed xs i).outcome (env.observe []) = .ok r ∧
      r.furthest = .mergeAll (e.raised xs i env) ∧
      (r.furthest = ∅ ↔ e.raised xs i env = []) ∧
      (∀ k, r.furthest.index = some k ↔
        (∃ s ∈ e.raised xs i env, s.index = some k) ∧
          ∀ s ∈ e.raised xs i env, ∀ j, s.index = some j → j ≤ k) ∧
      ∀ label, label ∈ r.furthest.labels ↔
        ∃ s ∈ e.raised xs i env, s.index = r.furthest.index ∧ label ∈ s.labels := by
  obtain ⟨hrun, hsees⟩ := (e.guides (.seesRaised xs) i).outcome env
  rw [h] at hrun hsees
  have hr : r.furthest = .mergeAll (e.raised xs i env) := by
    cases r with
    | success v n f => exact hsees
    | failure c f => exact hsees.1
  have engaged : ∀ s ∈ e.raised xs i env, s.isEngaged := Event.isEngaged_of_mem_raisedAll _
  refine ⟨hrun, hr, ⟨fun he => ?_, fun hn => ?_⟩, fun k => by rw [hr, Record.index_mergeAll], fun label => ?_⟩
  · refine List.eq_nil_iff_forall_not_mem.2 fun s hs => ?_
    obtain ⟨j, hj⟩ := Record.isEngaged_iff.1 (engaged s hs)
    obtain ⟨k, hk, -⟩ := Record.le_index_mergeAll hs hj
    rw [← hr, he] at hk
    cases hk
  · rw [hr, hn, Record.mergeAll_nil]
  · rw [hr, Record.mem_labels_mergeAll]
    exact ⟨fun ⟨s, hs, _, hl⟩ => ⟨s, hs, hl⟩, fun ⟨s, hs, hl⟩ => ⟨s, hs, engaged s hs, hl⟩⟩

/-- A success with a failure that was absorbed one byte later, deeper than the alternative that succeeded. -/
theorem furthest_eq_mergeAll_raised_of_absorbed :
    let digit : Combination Unit UInt8 UInt8 := .primitive (.satisfy .digit)
    let e : Combination Unit UInt8 UInt8 := .alt (n := 2) (Fin.cons (digit.andThen digit) fun _ => digit)
    (e.parser [49, 97] 0).outcome ⟨.ofLevel .off, ()⟩ =
        .ok (.success 49 1 (.raised 1 (.singleton (ascii "a digit")))) ∧
      Record.raised 1 (.singleton (ascii "a digit")) = .mergeAll (e.raised [49, 97] 0 ⟨.ofLevel .off, ()⟩) := by
  intro digit e
  have hrun : (e.parser [49, 97] 0).outcome ⟨.ofLevel .off, ()⟩ =
      .ok (.success 49 1 (.raised 1 (.singleton (ascii "a digit")))) := by decide
  obtain ⟨-, hmerge, -⟩ := furthest_eq_mergeAll_raised e [49, 97] 0 ⟨.ofLevel .off, ()⟩ _ hrun
  exact ⟨hrun, hmerge⟩

end Furthest
