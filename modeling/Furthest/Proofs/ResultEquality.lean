import Furthest.Proofs.BindLaws

/-!
# Equality of outcomes

Outcomes are compared with the cursor that they keep. For a success that is the next cursor. A failure keeps the cursor
at which it was made, whatever deeper failure is added to it later, until it is made anew of its record. So two failures
with one record can differ: they are equal if they keep the same cursor, which lies at the index of the record or before
it. `Combination.obtainable` has that of library parsers, whose outcomes are made by the operations on outcomes.

The laws of `bind` hold up to that cursor. To go on with `succeed` makes a failure anew, so the right identity holds of
equality exactly where failures are `Result.Settled`. Associativity holds of equality exactly where the parser that the
second one goes on from has seen no deeper failure than that of the second.

Main statement: `result_eq_iff_cursor`.
-/

namespace Furthest

variable {σ τ ι κ α β γ : Type}

/-- A record stays as deep as it is exactly if no deeper one is merged with it. -/
theorem Record.index_merge_eq_left_iff {x y : Record} {k : Nat} (hx : x.index = some k) :
    (x.merge y).index = some k ↔ ∀ j, y.index = some j → j ≤ k := by
  rw [index_merge, hx]
  cases y.index with
  | none => simp
  | some j => simp

namespace Result

/-- If the outcome is a failure, it keeps the index of its record as its cursor. -/
def Settled (o : Result α) : Prop := ∀ c r, o = failure c r → r.index = some c

theorem settled_fail (i : Nat) (labels : Labels) : (fail i labels : Result α).Settled := by
  rintro c r ⟨⟩
  rfl

/-- The operations on outcomes never move the cursor of a failure beyond its index. -/
theorem Obtainable.cursor_le {o : Result α} (h : o.Obtainable) :
    o.isSuccess ∨ ∃ k, o.furthest.index = some k ∧ o.cursor ≤ k := by
  have made {α : Type} {r : Record} {o : Result α} (h : Result.ofRecord r = .ok o) :
      ∃ k, o.furthest.index = some k ∧ o.cursor ≤ k := by
    obtain ⟨k, hk, rfl⟩ := ofRecord_eq_ok_iff.1 h
    exact ⟨k, hk, Nat.le_refl k⟩
  induction h with
  | success v n r => exact .inl rfl
  | fail i labels => exact .inr ⟨i, rfl, Nat.le_refl i⟩
  | ofRecord h => exact .inr (made h)
  | @aggregate _ o _ other ih =>
    rw [isSuccess_aggregate]
    refine ih.imp_right fun ⟨k, hk, hle⟩ => ?_
    have hcursor : (o.aggregate other).cursor = o.cursor := by cases o <;> rfl
    rw [furthest_aggregate, Record.index_merge, hk, hcursor]
    cases other.index with
    | none => exact ⟨k, rfl, hle⟩
    | some j => exact ⟨max k j, rfl, hle.trans (Nat.le_max_left k j)⟩
  | failedAs _ ho => exact .inr (made ho)

theorem isSuccess_eq_of_report {o o' : Result α} (h : o.report = o'.report) : o.isSuccess = o'.isSuccess := by
  cases o <;> cases o' <;> first | rfl | cases congrArg Prod.fst h

/-- Outcomes that report the same are equal if they are successes, or keep the same cursor. -/
theorem eq_iff_of_report {o o' : Result α} (h : o.report = o'.report) :
    o = o' ↔ o.isSuccess ∨ o.cursor = o'.cursor := by
  obtain ⟨hdecision, hfurthest⟩ := Prod.ext_iff.1 h
  constructor
  · rintro rfl
    exact .inr rfl
  intro hsame
  cases o with
  | success v n r =>
    cases o' with
    | success v' n' r' =>
      cases hdecision
      exact congrArg (success v n) hfurthest
    | failure c' r' => cases hdecision
  | failure c r =>
    cases o' with
    | success v' n' r' => cases hdecision
    | failure c' r' => exact congrArg₂ failure (hsame.resolve_left nofun) hfurthest

end Result

/-! ## Library parsers make obtainable outcomes -/

/-- Any cause and any value is allowed. -/
theorem Fault.ends_true (e : Except Fault α) : Fault.Ends (fun _ => True) (fun _ => True) e := by
  cases e <;> trivial

namespace Combination

/-- The assembly of the same parts, which may be given up with any cause. -/
def assembly : {α : Type} → Combination σ ι α → Assembly σ ι (fun _ => True) α
  | _, primitive l => .callable l.parser (l.genuine.mono fun _ _ => trivial)
  | _, giveUp cause => .callable (Parser.giveUp cause) fun _ _ _ => trivial
  | _, andThen p q => .andThen p.assembly q.assembly
  | _, skip p q => .skip p.assembly q.assembly
  | _, pair p q => .pair p.assembly q.assembly
  | _, sequence ps => .sequence fun k => (ps k).assembly
  | _, alt ps => .alt fun k => (ps k).assembly
  | _, times p b => .times p.assembly b
  | _, sepBy p sep b => .sepBy p.assembly sep.assembly b
  | _, manyUntil p stop b => .manyUntil p.assembly stop.assembly b
  | _, tryMap p f => .tryMap p.assembly f fun v => Fault.ends_true (f v)
  | _, bind p f => .bind p.assembly fun v => (f v).assembly
  | _, mark p => .mark p.assembly
  | _, desc p label => .desc p.assembly label
  | _, shouldFail p label => .shouldFail p.assembly label
  | _, peek p => .peek p.assembly
  | _, traced p name => .traced p.assembly name
  | _, deferred found enter =>
    .deferred found (fun env => Fault.ends_true (found.outcome env)) fun v => (enter v).assembly
  | _, rule body => .rule fun xs i => (body xs i).assembly

theorem parser_assembly (e : Combination σ ι α) : e.assembly.parser = e.parser := by
  induction e with
  | primitive l => rfl
  | giveUp cause => rfl
  | andThen p q hp hq => simp only [assembly, Assembly.parser, parser, hp, hq]
  | skip p q hp hq => simp only [assembly, Assembly.parser, parser, hp, hq]
  | pair p q hp hq => simp only [assembly, Assembly.parser, parser, hp, hq]
  | sequence ps hp => simp only [assembly, Assembly.parser, parser, hp]
  | alt ps hp => simp only [assembly, Assembly.parser, parser, hp]
  | times p b hp => simp only [assembly, Assembly.parser, parser, hp]
  | sepBy p sep b hp hsep => simp only [assembly, Assembly.parser, parser, hp, hsep]
  | manyUntil p stop b hp hstop => simp only [assembly, Assembly.parser, parser, hp, hstop]
  | tryMap p f hp => simp only [assembly, Assembly.parser, parser, hp]
  | bind p f hp hf => simp only [assembly, Assembly.parser, parser, hp, hf]
  | mark p hp => simp only [assembly, Assembly.parser, parser, hp]
  | desc p label hp => simp only [assembly, Assembly.parser, parser, hp]
  | shouldFail p label hp => simp only [assembly, Assembly.parser, parser, hp]
  | peek p hp => simp only [assembly, Assembly.parser, parser, hp]
  | traced p name hp => simp only [assembly, Assembly.parser, parser, hp]
  | deferred found enter hp =>
    simp only [assembly, Assembly.parser, hp]
    rfl
  | rule body hp =>
    simp only [assembly, Assembly.parser, hp]
    rfl

/-- The outcomes of library parsers are made by the operations on outcomes. -/
theorem obtainable (e : Combination σ ι α) {xs : List ι} {i : Nat} {env : Env σ} {o : Result α}
    (h : (e.parser xs i).outcome env = .ok o) : o.Obtainable := by
  obtain ⟨-, hends⟩ := e.assembly.blames xs i env []
  rw [parser_assembly, show ((e.parser xs i).execute env).1 = .ok o from h] at hends
  exact hends

end Combination

/-! ## Going on, step by step -/

namespace Parser

variable {p : Parser σ ι α} {f : α → Parser σ ι β} {xs : List ι} {i : Nat} {env after : Env σ}

theorem execute_bind_of_error {cause : Fault} (h : (p xs i).execute env = (.error cause, after)) :
    (p.bind f xs i).execute env = (.error cause, after) := by
  rw [bind, Run.execute_bind, h]

/-- A failure of the first parser is made anew of its record. -/
theorem execute_bind_of_failure {c k : Nat} {r : Record} (h : (p xs i).execute env = (.ok (.failure c r), after))
    (hk : r.index = some k) : (p.bind f xs i).execute env = (.ok (.failure k r), after) := by
  rw [bind, Run.execute_bind, h]
  exact Prod.ext (Result.ofRecord_eq_ok_iff.2 ⟨k, hk, rfl⟩) rfl

/-- After a success of the first parser, its record is added to the outcome of the second. -/
theorem execute_bind_of_success {v : α} {m : Nat} {r : Record}
    (h : (p xs i).execute env = (.ok (.success v m r), after)) :
    (p.bind f xs i).execute env =
      (((f v xs m).outcome after).map (·.aggregate r), ((f v xs m).execute after).2) := by
  rw [bind, Run.execute_bind, h]
  show (f v xs m >>= _).execute after = _
  rw [Run.execute_bind, Run.outcome]
  rcases (f v xs m).execute after with ⟨_ | _, _⟩ <;> rfl

/-- To go on with `succeed` settles a failure. -/
theorem bind_succeed_eq_iff (e : Combination σ ι α) (xs : List ι) (i : Nat) (env : Env σ) :
    (e.parser.bind succeed xs i).outcome env = (e.parser xs i).outcome env ↔
      ∀ o, (e.parser xs i).outcome env = .ok o → o.Settled := by
  rcases h : (e.parser xs i).execute env with ⟨cause | ⟨v, m, r⟩ | ⟨c, r⟩, after⟩
  · have hp : (e.parser xs i).outcome env = .error cause := congrArg Prod.fst h
    rw [Run.outcome, execute_bind_of_error h, hp]
    refine iff_of_true rfl ?_
    rintro _ ⟨⟩
  · have hp : (e.parser xs i).outcome env = .ok (.success v m r) := congrArg Prod.fst h
    have hr : (∅ : Record).merge r = r := Record.empty_merge (e.wellFormed hp).proper
    rw [Run.outcome, execute_bind_of_success h, hp]
    refine iff_of_true ?_ ?_
    · exact congrArg (fun s => Except.ok (Result.success v m s)) hr
    · rintro _ ⟨⟩ c r' ⟨⟩
  · have hp : (e.parser xs i).outcome env = .ok (.failure c r) := congrArg Prod.fst h
    obtain ⟨k, hk⟩ := (e.wellFormed hp).index_of_failure
    rw [Run.outcome, execute_bind_of_failure h hk, hp]
    constructor
    · rintro ⟨⟩ _ ⟨⟩ c r ⟨⟩
      exact hk
    · intro hsettled
      cases hk.symm.trans (hsettled _ rfl c r rfl)
      rfl

/-- Where the second of three parsers fails, one side has the index of its record as the cursor, and the other side the
index of the record that the first parser is added to. -/
theorem bind_bind_eq_iff (p : Combination σ ι α) (f : α → Combination σ ι β) (g : β → Parser σ ι γ) (xs : List ι)
    (i : Nat) (env : Env σ) :
    ((p.parser.bind fun v => (f v).parser).bind g xs i).outcome env =
        (p.parser.bind (fun v => (f v).parser.bind g) xs i).outcome env ↔
      ∀ v m r after c s, (p.parser xs i).execute env = (.ok (.success v m r), after) →
        ((f v).parser xs m).outcome after = .ok (.failure c s) →
          ∀ j k, r.index = some j → s.index = some k → j ≤ k := by
  rcases hp : (p.parser xs i).execute env with ⟨cause | ⟨v, m, r⟩ | ⟨c, r⟩, after⟩
  · rw [Run.outcome, Run.outcome, execute_bind_of_error (execute_bind_of_error hp), execute_bind_of_error hp]
    refine iff_of_true rfl ?_
    rintro v m r after' c s ⟨⟩
  · have hleft := execute_bind_of_success (f := fun v => (f v).parser) hp
    have hright := execute_bind_of_success (f := fun v => (f v).parser.bind g) hp
    rw [Run.outcome] at hleft
    rw [Run.outcome, Run.outcome, hright, Run.outcome]
    rcases hf : ((f v).parser xs m).execute after with ⟨cause | ⟨w, n, s⟩ | ⟨c, s⟩, last⟩
    · rw [hf] at hleft
      rw [execute_bind_of_error hleft, execute_bind_of_error hf]
      refine iff_of_true rfl ?_
      rintro v m r after c s ⟨⟩ hfailed
      rw [Run.outcome, hf] at hfailed
      cases hfailed
    · rw [hf] at hleft
      rw [execute_bind_of_success hleft, execute_bind_of_success hf]
      refine iff_of_true ?_ ?_
      · cases (g w xs n).outcome last with
        | error cause => rfl
        | ok o => exact congrArg Except.ok (Result.aggregate_aggregate o s r).symm
      · rintro v m r after c s' ⟨⟩ hfailed
        rw [Run.outcome, hf] at hfailed
        cases hfailed
    · have hwell := (f v).wellFormed (congrArg Prod.fst hf)
      obtain ⟨k, hk⟩ := hwell.index_of_failure
      obtain ⟨k', hk'⟩ := (hwell.aggregate r).index_of_failure
      rw [hf] at hleft
      rw [execute_bind_of_failure hleft hk', execute_bind_of_failure hf hk]
      have hsame : (Except.ok (.failure k' (s.merge r)) : Except Fault (Result γ)) =
          .ok (.failure k (s.merge r)) ↔ (s.merge r).index = some k := by
        simp [hk']
      refine hsame.trans ((Record.index_merge_eq_left_iff hk).trans ⟨?_, fun hle j hj => ?_⟩)
      · rintro hle v m r after c s ⟨⟩ hfailed j k'' hj hk''
        rw [Run.outcome, hf] at hfailed
        cases hfailed
        cases hk.symm.trans hk''
        exact hle j hj
      · exact hle v m r after c s rfl (congrArg Prod.fst hf) j k hj hk
  · obtain ⟨k, hk⟩ := (p.wellFormed (congrArg Prod.fst hp)).index_of_failure
    have hleft := execute_bind_of_failure (f := fun v => (f v).parser) hp hk
    rw [Run.outcome, Run.outcome, execute_bind_of_failure hleft hk, execute_bind_of_failure hp hk]
    refine iff_of_true rfl ?_
    rintro v m r after' c s ⟨⟩

end Parser

/-! ## Main statement -/

/-- Two outcomes of library parsers that report the same, wherever they come from, are equal if they are successes, or
failures that keep the same cursor. That lies at the index of the failure or before it.

So the laws of `bind` hold of equality where no failure keeps a cursor before its index that the other side does not
keep: the right identity exactly if a failure has its index as the cursor, and associativity exactly if a failure of the
second parser is not followed by a deeper record of the first. -/
theorem result_eq_iff_cursor (p : Combination σ ι α) (f : α → Combination σ ι β) (g : β → Combination σ ι γ)
    (xs : List ι) (i : Nat) (env : Env σ) :
    (∀ (q : Combination τ κ α) ys j env' o o', (p.parser xs i).outcome env = .ok o →
      (q.parser ys j).outcome env' = .ok o' → o.report = o'.report →
        (o = o' ↔ o.isSuccess ∨ o.cursor = o'.cursor) ∧
        (o.isSuccess ∨ ∃ k, o.index = .ok k ∧ o'.index = .ok k ∧ o.cursor ≤ k ∧ o'.cursor ≤ k)) ∧
    ((p.parser.bind Parser.succeed xs i).outcome env = (p.parser xs i).outcome env ↔
      ∀ o, (p.parser xs i).outcome env = .ok o → o.Settled) ∧
    (((p.parser.bind fun v => (f v).parser).bind (fun w => (g w).parser) xs i).outcome env =
        (p.parser.bind (fun v => (f v).parser.bind fun w => (g w).parser) xs i).outcome env ↔
      ∀ v m r after c s, (p.parser xs i).execute env = (.ok (.success v m r), after) →
        ((f v).parser xs m).outcome after = .ok (.failure c s) →
          ∀ j k, r.index = some j → s.index = some k → j ≤ k) := by
  refine ⟨fun q ys j env' o o' ho ho' h => ⟨Result.eq_iff_of_report h, ?_⟩, Parser.bind_succeed_eq_iff p xs i env,
    Parser.bind_bind_eq_iff p f _ xs i env⟩
  have hfurthest : o.furthest = o'.furthest := congrArg Prod.snd h
  rcases (p.obtainable ho).cursor_le with hsuccess | ⟨k, hk, hle⟩
  · exact .inl hsuccess
  rcases (q.obtainable ho').cursor_le with hsuccess | ⟨k', hk', hle'⟩
  · exact .inl (Result.isSuccess_eq_of_report h ▸ hsuccess)
  · cases hk.symm.trans (hfurthest ▸ hk')
    exact .inr ⟨k, by simp only [Result.index, hk], by simp only [Result.index, hk'], hle, hle'⟩

/-- An optional pair before an item. After the first item of a pair alone, the pair has failed deeper than the item
fails. -/
def optionalPairThenItem : Combination Unit UInt8 UInt8 :=
  let item (b : UInt8) : Combination Unit UInt8 UInt8 := .primitive (.satisfy (.symbol b))
  .andThen (.tryMap (.times (.andThen (item 97) (item 98)) (.atMost 1)) fun vs => .ok vs.head?) (item 120)

/-- Going on with `succeed`. -/
def optionalPairThenItemAgain : Combination Unit UInt8 UInt8 :=
  .bind optionalPairThenItem fun v => .primitive (.succeed v)

/-- Where the pair fails no deeper than the item, to go on with `succeed` gives an equal failure. -/
theorem result_eq_iff_cursor_of_shallow :
    let p := optionalPairThenItem
    let env : Env Unit := ⟨.ofLevel .off, ()⟩
    let o : Result UInt8 := .fail 0 (Labels.singleton [97] ∪ .singleton [120])
    (p.parser [99] 0).outcome env = .ok o ∧ (optionalPairThenItemAgain.parser [99] 0).outcome env = .ok o ∧
      (∃ k, o.index = .ok k ∧ o.cursor ≤ k) ∧ o.Settled ∧
      (p.parser.bind Parser.succeed [99] 0).outcome env = (p.parser [99] 0).outcome env := by
  intro p env o
  have hrun : (p.parser [99] 0).outcome env = .ok o := by decide
  have hrun' : (optionalPairThenItemAgain.parser [99] 0).outcome env = .ok o := by decide
  have hsettled : o.Settled := Result.settled_fail _ _
  obtain ⟨pairs, identity, -⟩ :=
    result_eq_iff_cursor (τ := Unit) (κ := UInt8) p (fun _ => p) (fun _ => p) [99] 0 env
  obtain ⟨k, hk, -, hle, -⟩ := ((pairs _ _ _ _ o o hrun hrun' rfl).2).resolve_left nofun
  exact ⟨hrun, hrun', ⟨k, hk, hle⟩, hsettled,
    identity.2 fun o' ho' => Except.ok.inj (hrun.symm.trans ho') ▸ hsettled⟩

/-- Outcomes of library parsers that report the same and are not equal: the right identity of `bind` fails. -/
theorem equal_reports_of_unequal_results :
    let env : Env Unit := ⟨.ofLevel .off, ()⟩
    ∃ o o' : Result UInt8, (optionalPairThenItem.parser [97, 99] 0).outcome env = .ok o ∧
      (optionalPairThenItemAgain.parser [97, 99] 0).outcome env = .ok o' ∧ o.report = o'.report ∧ o ≠ o' :=
  ⟨.failure 0 (.raised 1 (.singleton [98])), .failure 1 (.raised 1 (.singleton [98])), by decide, by decide, rfl,
    by decide⟩

end Furthest
