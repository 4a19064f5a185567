import Furthest.Proofs.BindLaws

/-!
# Runs that report the same

What goes on from an outcome looks at no more of it than what it reports. So runs that report the same may stand for
each other wherever a run goes on from them: `Run.SameReport.bind`.

A loop that is handed the record of what ran before it merges that with what it sees itself: `Run.HandsOn`. It may as
well begin without a record, and have the record added to its outcome. So what goes on from a library parser in one pass
reports what the combinators report that invoke one parser after another, each of them without a record: `bind_reports`,
`pair_reports`, `skip_reports`.
-/

namespace Furthest

variable {σ ι α β γ : Type}

namespace Result

theorem report_aggregate (o : Result α) (r : Record) : (o.aggregate r).report = (o.report.1, o.report.2.merge r) := by
  cases o <;> rfl

theorem report_map (f : α → β) (o : Result α) :
    (o.map f).report = (o.report.1.map (Prod.map f id), o.report.2) := by
  cases o <;> rfl

/-- An outcome that reports what is given. -/
def ofReport : Option (α × Nat) × Record → Result α
  | (some (v, n), r) => success v n r
  | (none, r) => failure 0 r

theorem report_ofReport (o : Result α) : (ofReport o.report).report = o.report := by
  cases o <;> rfl

theorem map_map (f : α → β) (g : β → γ) (o : Result α) : (o.map f).map g = o.map fun v => g (f v) := by
  cases o <;> rfl

theorem map_id' (o : Result α) : (o.map fun v => v) = o := by
  cases o <;> rfl

theorem map_proceed (g : α → β) (o : Result α) (f : β → Nat → Record → Run σ (Result γ)) :
    (o.map g).proceed f = o.proceed fun v => f (g v) := by
  cases o <;> rfl

section

variable (o : Result α) (f : α → Nat → Record → Run σ (Result β))

theorem proceed_map (g : β → γ) :
    (do return (← o.proceed f).map g) = o.proceed fun v n r => do return (← f v n r).map g := by
  cases o with
  | success v n r => rfl
  | failure c r =>
    simp only [proceed, ofRecord]
    cases r.index <;> rfl

/-- To go on twice is to go on once with what goes on. -/
theorem proceed_proceed (g : β → Nat → Record → Run σ (Result γ)) :
    (o.proceed f >>= fun o' => o'.proceed g) = o.proceed fun v n r => f v n r >>= fun o' => o'.proceed g := by
  cases o with
  | success v n r => rfl
  | failure c r =>
    simp only [proceed, ofRecord]
    rcases hr : r.index with _ | k
    · rfl
    · show Run.ofExcept (ofRecord r) = _
      simp only [ofRecord, hr]

end

end Result

namespace Run

/-- Two runs change the environment alike, and are given up with the same fault or report the same. -/
def SameReport (x y : Run σ (Result α)) : Prop := (do return (← x).report) = do return (← y).report

namespace SameReport

variable {x y z : Run σ (Result α)} {f g : Result α → Run σ (Result β)} {o o' : Result α} {r : Record}

theorem refl (x : Run σ (Result α)) : x.SameReport x := rfl

theorem of_eq (h : x = y) : x.SameReport y := h ▸ refl x

theorem symm (h : x.SameReport y) : y.SameReport x := Eq.symm h

theorem trans (h : x.SameReport y) (h' : y.SameReport z) : x.SameReport z := Eq.trans h h'

theorem pure (h : o.report = o'.report) : SameReport (Pure.pure o : Run σ (Result α)) (Pure.pure o') := by
  unfold SameReport
  rw [pure_bind, pure_bind, h]

/-- Runs that report the same are gone on from alike. -/
theorem bind (h : x.SameReport y) (hgo : ∀ o o', o.report = o'.report → (f o).SameReport (g o')) :
    (x >>= f).SameReport (y >>= g) := by
  have of_report (z : Run σ (Result α)) {go : Result α → Run σ (Result β)}
      (hz : ∀ o, (go o).SameReport (g (.ofReport o.report))) :
      (z >>= go).SameReport ((do return (← z).report) >>= fun told => g (.ofReport told)) := by
    unfold SameReport
    simp only [bind_assoc, pure_bind]
    exact bind_congr hz
  have hleft := of_report x fun o => hgo o _ (Result.report_ofReport o).symm
  have hright := of_report y fun o => (hgo o o rfl).symm.trans (hgo o _ (Result.report_ofReport o).symm)
  rw [show (do return (← x).report : Run σ (Option (α × Nat) × Record)) = _ from h] at hleft
  exact hleft.trans hright.symm

/-- What a run cannot end with plays no part in what is reported after it. -/
theorem bind_of_outcome {x : Run σ γ} {f g : γ → Run σ (Result β)}
    (h : ∀ env o, x.outcome env = .ok o → (f o).SameReport (g o)) : (x >>= f).SameReport (x >>= g) := by
  unfold SameReport
  simp only [bind_assoc]
  exact bind_congr_of_outcome h

/-- To make a failure anew of its record is to keep it, as far as it is reported. -/
theorem ofRecord (h : r.isEngaged) (c : Nat) :
    SameReport (Run.ofExcept (Result.ofRecord r) : Run σ (Result α)) (Pure.pure (.failure c r)) := by
  obtain ⟨k, hk⟩ := Record.isEngaged_iff.1 h
  exact Parser.ofRecord_bind_report hk

theorem proceed {f g : α → Nat → Record → Run σ (Result β)} (h : o.report = o'.report)
    (hgo : ∀ v n r, (f v n r).SameReport (g v n r)) : (o.proceed f).SameReport (o'.proceed g) := by
  cases o with
  | success v n r =>
    cases o' with
    | success v' n' r' =>
      cases h
      exact hgo v n r
    | failure c' r' => cases congrArg Prod.fst h
  | failure c r =>
    cases o' with
    | success v' n' r' => cases congrArg Prod.fst h
    | failure c' r' =>
      obtain rfl : r = r' := congrArg Prod.snd h
      exact refl _

/-- To succeed with a changed value, and else to fail anew, is to change the value of the outcome. -/
theorem proceed_success (ho : o.WellFormed) (f : α → β) :
    SameReport (o.proceed fun v n r => return .success (f v) n r : Run σ (Result β)) (Pure.pure (o.map f)) := by
  cases o with
  | success v n r => exact refl _
  | failure c r => exact ofRecord ho.isEngaged_of_failure c

theorem aggregate (h : x.SameReport y) (r : Record) :
    SameReport (do return (← x).aggregate r) (do return (← y).aggregate r) :=
  h.bind fun o o' ho => pure (by rw [Result.report_aggregate, Result.report_aggregate, ho])

theorem map (h : x.SameReport y) (f : α → β) : SameReport (do return (← x).map f) (do return (← y).map f) :=
  h.bind fun o o' ho => pure (by rw [Result.report_map, Result.report_map, ho])

end SameReport

/-! ## Records that are handed on -/

/-- Handed a record, the run reports that record merged with what it sees itself. -/
def HandsOn (go : Record → Run σ (Result α)) : Prop :=
  ∀ s r : Record, (go (s.merge r)).SameReport (do return (← go s).aggregate r)

namespace HandsOn

variable {go : Record → Run σ (Result α)} {rest : α → Nat → Record → Run σ (Result β)}

theorem success (v : α) (n : Nat) : HandsOn fun r => (return .success v n r : Run σ (Result α)) := fun _ _ => .refl _

theorem map (h : HandsOn go) (f : α → β) : HandsOn fun r => do return (← go r).map f := fun s r => by
  refine ((h s r).map f).trans ?_
  simp only [bind_assoc, pure_bind]
  exact .bind (.refl _) fun o o' ho => .pure (by simp only [Result.report_aggregate, Result.report_map, ho])

/-- After a library parser, the record is handed on merged with that of the parser. -/
theorem step (e : Combination σ ι α) (h : ∀ v n, HandsOn (rest v n)) (xs : List ι) (i : Nat) :
    HandsOn fun r => (do ((← e.parser xs i).aggregate r).proceed rest) := fun s r => by
  simp only [bind_assoc]
  refine .bind_of_outcome fun env o ho => ?_
  cases o with
  | success v n t =>
    show (rest v n (t.merge (s.merge r))).SameReport (do return (← rest v n (t.merge s)).aggregate r)
    rw [← Record.merge_assoc]
    exact h v n (t.merge s) r
  | failure c t =>
    have ht : t.isEngaged := (e.wellFormed ho).isEngaged_of_failure
    have hall : (t.merge (s.merge r)).isEngaged := by simp [ht]
    have hfirst : (t.merge s).isEngaged := by simp [ht]
    refine (SameReport.ofRecord hall c).trans (.trans ?_ ((SameReport.ofRecord hfirst c).aggregate r).symm)
    exact .pure (by simp only [Result.aggregate, Record.merge_assoc])

/-- The record may be added at the end. -/
theorem added (h : HandsOn go) {r : Record} (hr : r.Proper) : SameReport (do return (← go ∅).aggregate r) (go r) := by
  have hadded := (h ∅ r).symm
  rwa [Record.empty_merge hr] at hadded

end HandsOn

end Run

/-! ## Going on in one pass -/

namespace Parser

open Run

variable {p q : Parser σ ι α} {xs : List ι} {i : Nat}

theorem ReportsAs.of_eq (h : p = q) : p.ReportsAs q := fun xs i =>
  SameReport.of_eq (congrFun (congrFun h xs) i)

theorem ReportsAs.refl (p : Parser σ ι α) : p.ReportsAs p := .of_eq rfl

theorem ReportsAs.symm (h : p.ReportsAs q) : q.ReportsAs p := fun xs i => (h xs i).symm

theorem ReportsAs.trans {r : Parser σ ι α} (h : p.ReportsAs q) (h' : q.ReportsAs r) : p.ReportsAs r := fun xs i =>
  (h xs i).trans (h' xs i)

/-- Values may be changed by a function that may decline them, where parsers report the same. -/
theorem tryMap_congr (h : (p xs i).SameReport (q xs i)) (f : α → Except Fault β) :
    SameReport (p.tryMap f xs i) (q.tryMap f xs i) :=
  h.bind fun _ _ ho => .proceed ho fun _ _ _ => .refl _

theorem ReportsAs.tryMap (h : p.ReportsAs q) (f : α → Except Fault β) : (p.tryMap f).ReportsAs (q.tryMap f) :=
  fun xs i => tryMap_congr (h xs i) f

/-- To change the value of a library parser is to change that of its outcome, as far as it is reported. -/
theorem map_reports (e : Combination σ ι α) (f : α → β) (xs : List ι) (i : Nat) :
    SameReport (e.parser.map f xs i) (do return (← e.parser xs i).map f) :=
  SameReport.bind_of_outcome fun _ _ ho => .proceed_success (e.wellFormed ho) f

/-- A second change of the value is made after the first. -/
theorem tryMap_tryMap (e : Combination σ ι α) (f : α → Except Fault β) (g : β → Except Fault γ) :
    ((e.parser.tryMap f).tryMap g).ReportsAs (e.parser.tryMap fun v => f v >>= g) := fun xs i => by
  show SameReport ((e.parser xs i >>= _) >>= _) (e.parser xs i >>= _)
  rw [bind_assoc]
  refine .bind_of_outcome fun env o ho => ?_
  cases o with
  | success v n r =>
    simp only [Result.proceed]
    rcases f v with cause | w
    · exact .refl _
    · exact .refl _
  | failure c r =>
    obtain ⟨k, hk⟩ := (e.wellFormed ho).index_of_failure
    simp only [Result.proceed, Result.ofRecord_eq_ok_iff.2 ⟨k, hk, rfl⟩]
    have hr : r.isEngaged := Record.isEngaged_iff.2 ⟨k, hk⟩
    exact SameReport.ofRecord hr k

variable {e : Combination σ ι α} {f : Combination σ ι β}

/-- What follows a library parser without a record may be handed the record of the parser. -/
theorem proceed_added {go go' : α → Nat → Record → Run σ (Result β)}
    (h : ∀ v n (r : Record), r.Proper → (go v n r).SameReport (go' v n r)) :
    SameReport (do (← e.parser xs i).proceed go) (do (← e.parser xs i).proceed go') :=
  .bind_of_outcome fun env o ho => by
    cases o with
    | success v n r => exact h v n r (e.wellFormed ho).proper
    | failure c r => exact .refl _

theorem bind_reports {k : α → Parser σ ι β} {go : α → Nat → Record → Run σ (Result β)}
    (hk : ∀ v n, SameReport (k v xs n) (go v n ∅)) (hgo : ∀ v n, HandsOn (go v n)) :
    SameReport (e.parser.bind k xs i) (do (← e.parser xs i).proceed go) :=
  proceed_added fun v n r hr => ((hk v n).aggregate r).trans ((hgo v n).added hr)

/-- The value of a library parser is changed after a record was added. -/
theorem aggregate_proceed_map (g : β → γ) (r : Record) (n : Nat) :
    SameReport (do ((← f.parser xs n).aggregate r).proceed fun w m s => return .success (g w) m s)
      (do return ((← f.parser xs n).aggregate r).map g) :=
  .bind_of_outcome fun _ _ ho => .proceed_success ((f.wellFormed ho).aggregate r) g

variable {go : Nat → Record → Run σ (Result β)} (hf : ∀ n, SameReport (f.parser xs n) (go n ∅))
  (hgo : ∀ n, HandsOn (go n))
include hf hgo

theorem aggregate_map_reports (g : β → γ) {r : Record} (hr : r.Proper) (n : Nat) :
    SameReport (do return ((← f.parser xs n).aggregate r).map g) (do return (← go n r).map g) := by
  have hadded := (((hf n).aggregate r).trans ((hgo n).added hr)).map g
  simpa only [bind_assoc, pure_bind] using hadded

theorem pair_reports :
    SameReport (e.parser.pair f.parser xs i)
      (do (← e.parser xs i).proceed fun v n r => do return (← go n r).map (v, ·)) :=
  proceed_added fun v n _ hr => (aggregate_proceed_map (v, ·) _ n).trans (aggregate_map_reports hf hgo (v, ·) hr n)

theorem skip_reports :
    SameReport (e.parser.skip f.parser xs i)
      (do (← e.parser xs i).proceed fun v n r => do return (← go n r).map fun _ => v) :=
  .bind_of_outcome fun env o ho => by
    cases o with
    | success v n r =>
      exact (aggregate_proceed_map (fun _ => v) r n).trans
        (aggregate_map_reports hf hgo (fun _ => v) (e.wellFormed ho).proper n)
    | failure c r => exact (SameReport.ofRecord (e.wellFormed ho).isEngaged_of_failure c).symm

theorem combine₂_reports (h : α → β → γ) :
    SameReport (combine₂ h e.parser f.parser xs i)
      (do (← e.parser xs i).proceed fun v n r => do return (← go n r).map (h v)) := by
  refine (map_reports (.pair e f) _ xs i).trans (((pair_reports hf hgo).map _).trans ?_)
  simp only [bind_assoc]
  refine .bind_of_outcome fun env o ho => ?_
  cases o with
  | success v n r =>
    simp only [Result.proceed, bind_assoc, pure_bind]
    exact .bind (.refl _) fun o o' ho => .pure (by simp only [Result.report_map, ho, Option.map_map]; rfl)
  | failure c r =>
    have hr := (e.wellFormed ho).isEngaged_of_failure
    exact ((SameReport.ofRecord hr c).map _).trans (SameReport.ofRecord hr c).symm

end Parser

end Furthest
