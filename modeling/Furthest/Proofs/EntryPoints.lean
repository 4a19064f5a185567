import Furthest.Proofs.CursorBounds
import Furthest.Proofs.RaisedRecords

/-!
# The entry points

`parse` looks for the end of the input by a test of its own, and merges by itself what is expected there.
`Parser.endedOf` is what `skip eof` makes of an outcome; where the cursor stays within the input, as it does for
every parser of the library, `parse` reports just that. `parsePartial` reports the outcome itself.

Main statement: `entry_points_agree`.
-/

namespace Furthest

variable {σ ι α : Type}

namespace Parser

/-- What `skip eof` makes of an outcome. -/
def endedOf (xs : List ι) : Result α → Except Fault (Result α)
  | .failure c r => .ok (.failure c r)
  | .success v n r =>
    if xs.length ≤ n then .ok (.success v n (Record.merge ∅ r))
    else Result.ofRecord ((Record.raised n (.singleton endLabel)).merge r)

theorem skip_eof_eq (p : Parser σ ι α) (xs : List ι) (i : Nat) :
    p.skip eof xs i = p xs i >>= fun o => Run.ofExcept (endedOf xs o) := by
  refine bind_congr fun o => ?_
  cases o with
  | failure c r => rfl
  | success v n r =>
    by_cases hn : xs.length ≤ n
    · simp [eof, endedOf, hn, Result.aggregate, Result.proceed]
      rfl
    · simp [eof, endedOf, hn, Result.aggregate, Result.proceed, Result.fail]

end Parser

theorem Run.outcome_bind_ofExcept {β : Type} (x : Run σ α) (f : α → Except Fault β) (env : Env σ) :
    (x >>= fun o => Run.ofExcept (f o)).outcome env = (x.outcome env).bind f := by
  rw [Run.outcome, Run.execute_bind]
  rcases hx : x.execute env with ⟨cause | v, env'⟩ <;> simp [Run.outcome, hx, Except.bind]

/-- The error has the index and the labels of a record, and tells the place of that index. -/
def ParseError.Reports [Item ι] (err : ParseError) (xs : List ι) (r : Record) : Prop :=
  ∃ k, r.index = some k ∧ err = ⟨r.labels, k, Item.describe xs k⟩

theorem ParseError.reports_ofRecord [Item ι] {xs : List ι} {r : Record} (h : r.isEngaged) (err : ParseError) :
    ofRecord xs r = err ↔ err.Reports xs r := by
  obtain ⟨k, hk⟩ := Record.isEngaged_iff.1 h
  simp [ofRecord, Reports, hk, eq_comm]

namespace Parser

variable {xs : List ι} {o : Result α}

/-- Where more input follows, the end was expected beside all that was seen. -/
theorem endedOf_success {v : α} {n : Nat} {r : Record} (hn : n < xs.length) :
    ∃ c, endedOf xs (.success v n r) = .ok (.failure c ((Record.raised n (.singleton endLabel)).merge r)) := by
  obtain ⟨k, hk⟩ : ∃ k, ((Record.raised n (.singleton endLabel)).merge r).index = some k :=
    Record.isEngaged_iff.1 (by simp)
  exact ⟨k, by simp [endedOf, Result.ofRecord, hk, Nat.not_le.2 hn]⟩

/-- Skipping the end gives nothing up. -/
theorem endedOf_ne_error (cause : Fault) : endedOf xs o ≠ .error cause := by
  cases o with
  | failure c r => nofun
  | success v n r =>
    rcases Nat.lt_or_ge n xs.length with hn | hn
    · obtain ⟨c, hc⟩ := endedOf_success (v := v) (r := r) hn
      rw [hc]
      nofun
    · simp [endedOf, hn]

variable [Item ι]

/-- The whole input is taken if it is skipped to its end. -/
theorem wholeOf_eq_ok (h : (Ending.of (.ok o)).Within 0 xs.length) {v : α} :
    wholeOf xs o = .ok v ↔ ∃ n r, endedOf xs o = .ok (.success v n r) := by
  cases o with
  | failure c r => simp [wholeOf, endedOf]
  | success w n r =>
    obtain ⟨-, hn, -⟩ := h
    rcases Nat.lt_or_eq_of_le hn with hn | rfl
    · obtain ⟨c, hc⟩ := endedOf_success (v := w) (r := r) hn
      simp [wholeOf, hc, Nat.ne_of_lt hn]
    · simp [wholeOf, endedOf]

theorem wholeOf_eq_error (h : (Ending.of (.ok o)).Within 0 xs.length) {err : ParseError} :
    wholeOf xs o = .error err ↔ ∃ c r, endedOf xs o = .ok (.failure c r) ∧ err.Reports xs r := by
  cases o with
  | failure c r =>
    obtain ⟨k, hk, -⟩ := h
    simp [wholeOf, endedOf, ParseError.reports_ofRecord (Record.isEngaged_iff.2 ⟨k, hk⟩)]
  | success w n r =>
    obtain ⟨-, hn, -⟩ := h
    rcases Nat.lt_or_eq_of_le hn with hn | rfl
    · obtain ⟨c, hc⟩ := endedOf_success (v := w) (r := r) hn
      simp [wholeOf, hc, Nat.ne_of_lt hn, ParseError.reports_ofRecord]
    · simp [wholeOf, endedOf]

theorem partOf_eq_ok (h : (Ending.of (.ok o)).Within 0 xs.length) {v : α} {rest : List ι} :
    partOf xs o = .ok (v, rest) ↔
      ∃ n r, o = .success v n r ∧ n ≤ xs.length ∧ xs = xs.take n ++ rest := by
  cases o with
  | failure c r => simp [partOf]
  | success w n r =>
    obtain ⟨-, hn, -⟩ := h
    constructor
    · rintro ⟨⟩
      exact ⟨n, r, rfl, hn, (List.take_append_drop n xs).symm⟩
    · rintro ⟨m, s, ⟨⟩, -, hxs⟩
      have hrest : xs.drop n = rest := List.append_cancel_left ((List.take_append_drop n xs).trans hxs)
      rw [partOf, hrest]

theorem partOf_eq_error (h : (Ending.of (.ok o)).Within 0 xs.length) {err : ParseError} :
    partOf xs o = .error err ↔ ∃ c r, o = .failure c r ∧ err.Reports xs r := by
  cases o with
  | failure c r =>
    obtain ⟨k, hk, -⟩ := h
    simp [partOf, ParseError.reports_ofRecord (Record.isEngaged_iff.2 ⟨k, hk⟩)]
  | success w n r => simp [partOf]

/-- The whole input is taken if nothing is left. -/
theorem wholeOf_eq_ok_iff_partOf (h : (Ending.of (.ok o)).Within 0 xs.length) {v : α} :
    wholeOf xs o = .ok v ↔ partOf xs o = .ok (v, []) := by
  cases o with
  | failure c r => simp [wholeOf, partOf]
  | success w n r =>
    obtain ⟨-, hn, -⟩ := h
    rcases Nat.lt_or_eq_of_le hn with hn | rfl
    · simp [wholeOf, partOf, Nat.ne_of_lt hn, Nat.not_le.2 hn]
    · simp [wholeOf, partOf]

end Parser

/-- With all that an invocation raised, what is expected where more input follows. -/
theorem Combination.endedOf_raised (e : Combination σ ι α) {xs : List ι} {env : Env σ} {v : α} {n : Nat} {r : Record}
    (h : (e.parser xs 0).outcome env = .ok (.success v n r)) (hn : n ≠ xs.length) :
    ∃ c, Parser.endedOf xs (.success v n r) = .ok (.failure c (.mergeAll
      (.raised n (.singleton Parser.endLabel) :: (e.raised xs 0 env).filter (Record.reaches n)))) := by
  have hwithin := e.ended_within (Nat.zero_le xs.length) env
  obtain ⟨-, hsees⟩ := (e.guides (.seesRaised xs) 0).outcome env
  rw [h] at hwithin hsees
  have hr : r = .mergeAll (e.raised xs 0 env) := hsees
  obtain ⟨-, hle, -⟩ := hwithin
  obtain ⟨c, hc⟩ := Parser.endedOf_success (v := v) (r := r) (Nat.lt_of_le_of_ne hle hn)
  exact ⟨c, by rw [hc, ← Record.raised_merge_mergeAll, ← hr]⟩

/-- `parse` gives the value of the parser followed by the end of the input, or reports its failure; where more
input follows, the end was expected beside all that was raised no less deep. `parsePartial` gives the value of
the parser and what is left of the input, or reports its failure. A value is that of the whole input if nothing
is left. Faults are those of the invocation. An index is told as line and column in a text, and as it is among
other items. -/
theorem entry_points_agree [Item ι] (e : Combination σ ι α) (xs : List ι) (env : Env σ) :
    ((∀ (text : Bytes) k, Item.describe text k = (LineColumn.locate text k).render) ∧
        (∀ (numbers : List Int32) k, Item.describe numbers k = decimal k) ∧
        ∀ (words : List Bytes) k, Item.describe words k = decimal k) ∧
      (∀ v, (e.parser.parse xs).outcome env = .ok (.ok v) ↔
        ∃ n r, (e.parser.skip Parser.eof xs 0).outcome env = .ok (.success v n r)) ∧
      (∀ err, (e.parser.parse xs).outcome env = .ok (.error err) ↔
        ∃ c r, (e.parser.skip Parser.eof xs 0).outcome env = .ok (.failure c r) ∧ err.Reports xs r) ∧
      (∀ cause, (e.parser.parse xs).outcome env = .error cause ↔
        (e.parser.skip Parser.eof xs 0).outcome env = .error cause) ∧
      (∀ v n r, (e.parser xs 0).outcome env = .ok (.success v n r) → n ≠ xs.length →
        ∃ c, (e.parser.skip Parser.eof xs 0).outcome env = .ok (.failure c (.mergeAll
          (.raised n (.singleton Parser.endLabel) :: (e.raised xs 0 env).filter (Record.reaches n))))) ∧
      (∀ v rest, (e.parser.parsePartial xs).outcome env = .ok (.ok (v, rest)) ↔
        ∃ n r, (e.parser xs 0).outcome env = .ok (.success v n r) ∧ n ≤ xs.length ∧ xs = xs.take n ++ rest) ∧
      (∀ err, (e.parser.parsePartial xs).outcome env = .ok (.error err) ↔
        ∃ c r, (e.parser xs 0).outcome env = .ok (.failure c r) ∧ err.Reports xs r) ∧
      (∀ cause, (e.parser.parsePartial xs).outcome env = .error cause ↔
        (e.parser xs 0).outcome env = .error cause) ∧
      ∀ v, (e.parser.parse xs).outcome env = .ok (.ok v) ↔
        (e.parser.parsePartial xs).outcome env = .ok (.ok (v, [])) := by
  refine ⟨⟨fun _ _ => rfl, fun _ _ => rfl, fun _ _ => rfl⟩, ?_⟩
  have hwithin := e.ended_within (Nat.zero_le xs.length) env
  have hended v n r (h : (e.parser xs 0).outcome env = .ok (.success v n r)) (hn : n ≠ xs.length) :=
    e.endedOf_raised h hn
  simp only [Parser.parse_eq, Parser.parsePartial_eq, Parser.skip_eof_eq, Run.outcome_bind_pure,
    Run.outcome_bind_ofExcept]
  generalize (e.parser xs 0).outcome env = ended at hwithin hended ⊢
  cases ended with
  | error cause => simp [Except.map, Except.bind]
  | ok o =>
    simp only [Except.map, Except.bind, Except.ok.injEq, reduceCtorEq, false_iff] at hended ⊢
    refine ⟨fun v => Parser.wholeOf_eq_ok hwithin, fun err => Parser.wholeOf_eq_error hwithin,
      fun cause => Parser.endedOf_ne_error cause, fun v n r ho hn => ?_, fun v rest => Parser.partOf_eq_ok hwithin,
      fun err => Parser.partOf_eq_error hwithin, fun _ => trivial,
      fun v => Parser.wholeOf_eq_ok_iff_partOf hwithin⟩
    rw [ho]
    exact hended v n r ho hn

/-- A digit that is read before other input, where a second digit was missed at the same place. -/
theorem entry_points_agree_of_trailing :
    let digit : Combination Unit UInt8 UInt8 := .primitive (.satisfy .digit)
    let e : Combination Unit UInt8 UInt8 := .alt (n := 2) (Fin.cons (digit.andThen digit) fun _ => digit)
    let env : Env Unit := ⟨.ofLevel .off, ()⟩
    (e.parser [49, 97] 0).outcome env = .ok (.success 49 1 (.raised 1 (.singleton (ascii "a digit")))) ∧
      (e.parser.parse [49, 97]).outcome env =
        .ok (.error ⟨.ofList [ascii "EOF", ascii "a digit"], 1, ascii "0:1"⟩) ∧
      (e.parser.parsePartial [49, 97]).outcome env = .ok (.ok (49, [97])) ∧
      ∃ c, (e.parser.skip Parser.eof [49, 97] 0).outcome env = .ok (.failure c (.mergeAll
        (.raised 1 (.singleton (ascii "EOF")) :: (e.raised [49, 97] 0 env).filter (Record.reaches 1)))) := by
  intro digit e env
  have hrun : (e.parser [49, 97] 0).outcome env =
      .ok (.success 49 1 (.raised 1 (.singleton (ascii "a digit")))) := by decide
  have hskip : (e.parser.skip Parser.eof [49, 97] 0).outcome env =
      .ok (.failure 1 (.raised 1 (.ofList [ascii "EOF", ascii "a digit"]))) := by decide
  obtain ⟨-, -, hparse, -, htrailing, hpartial, -⟩ := entry_points_agree e [49, 97] env
  refine ⟨hrun, (hparse _).2 ⟨_, _, hskip, 1, rfl, ?_⟩, (hpartial _ _).2 ⟨1, _, hrun, by decide, rfl⟩,
    htrailing _ _ _ hrun (by decide)⟩
  decide

end Furthest
