import Furthest.Proofs.Notes
import Furthest.Proofs.RepetitionChain

/-!
# The attempts of a repetition

`Run.Makes` has how a computation ends and which calls it makes, from every environment in which some calls were
made before. What that is to say of an environment is a parameter, so that calls may be counted or not.

A repetition goes on from one link of its chain to the next (`Chain.Repeats`, and `Chain.Proceeds` where it looks
for its end first). One round is a step lemma (`timesFrom_step`, `untilRound_step`), any number of rounds a run
lemma (`timesFrom_run`, `manyUntilFrom_run`), and the first round that does not go on (`timesFrom_last`,
`manyUntilFrom_last`) ends the repetition in one of the ways of `Chain.TimesEnds` and `Chain.UntilEnds`.

Main statements: `Parser.Makes.exists_timesEnds` and `Parser.Makes.exists_untilEnds`.
-/

namespace Furthest

variable {σ ι α β γ : Type}

/-! ## Calls that a computation makes -/

/-- From an environment in which some calls were made, the computation ends in one way and has made some more. -/
def Run.Makes (made : List Call → Env σ → Prop) (x : Run σ α) (ended : Except Fault α) (calls : List Call) : Prop :=
  ∀ before env, made before env → x.outcome env = ended ∧ made (before ++ calls) (x.execute env).2

namespace Run.Makes

variable {made : List Call → Env σ → Prop} {x : Run σ α} {f : α → Run σ β} {v : α} {e : Except Fault β}
variable {calls calls' : List Call}

theorem ofExcept (e : Except Fault α) : (Run.ofExcept e : Run σ α).Makes made e [] := fun before env h => by
  rw [List.append_nil]
  exact ⟨rfl, h⟩

theorem pure (v : α) : (Pure.pure v : Run σ α).Makes made (.ok v) [] := ofExcept _

theorem bind (hx : x.Makes made (.ok v) calls) (hf : (f v).Makes made e calls') :
    (x >>= f).Makes made e (calls ++ calls') := fun before env h => by
  obtain ⟨hended, hafter⟩ := hx before env h
  rw [Run.outcome] at hended
  rw [Run.outcome, Run.execute_bind, ← List.append_assoc]
  generalize x.execute env = ran at hended hafter ⊢
  obtain ⟨ended, after⟩ := ran
  subst hended
  exact hf _ after hafter

/-- What follows makes no calls. -/
theorem bind_quiet (hx : x.Makes made (.ok v) calls) (hf : (f v).Makes made e []) :
    (x >>= f).Makes made e calls := by
  have h := hx.bind hf
  rwa [List.append_nil] at h

theorem bind_error {cause : Fault} (hx : x.Makes made (.error cause) calls) (f : α → Run σ β) :
    (x >>= f).Makes made (.error cause) calls := fun before env h => by
  obtain ⟨hended, hafter⟩ := hx before env h
  rw [Run.outcome] at hended
  rw [Run.outcome, Run.execute_bind]
  generalize x.execute env = ran at hended hafter ⊢
  obtain ⟨ended, after⟩ := ran
  subst hended
  exact ⟨rfl, hafter⟩

theorem map {e : Except Fault α} (hx : x.Makes made e calls) (f : α → β) :
    (do return f (← x) : Run σ β).Makes made (e.map f) calls := by
  cases e with
  | error cause => exact hx.bind_error _
  | ok v => exact hx.bind_quiet (pure (f v))

/-- A failure is made of a record that has an index. -/
theorem ofRecord (made : List Call → Env σ → Prop) {r : Record} (h : r.isEngaged) :
    ∃ c, (Run.ofExcept (Result.ofRecord r) : Run σ (Result α)).Makes made (.ok (.failure c r)) [] := by
  obtain ⟨k, hk⟩ := Record.isEngaged_iff.1 h
  exact ⟨k, (Result.ofRecord_eq_ok_iff (x := .failure k r)).2 ⟨k, hk, rfl⟩ ▸ ofExcept _⟩

end Run.Makes

namespace Chain

/-- The call that an attempt is. -/
def call (f : Nat → Except Fault (Result α)) (i : Nat) : Call := ⟨i, .of (f i)⟩

/-- The first `t` attempts of a chain, as calls. -/
def calls (f : Nat → Except Fault (Result α)) (i t : Nat) : List Call :=
  (List.range t).map fun k => call f (cursor f i k)

variable {f : Nat → Except Fault (Result α)} {i : Nat}

theorem calls_succ (t : Nat) : calls f i (t + 1) = calls f i t ++ [call f (cursor f i t)] := by
  simp [calls, List.range_succ]

@[simp] theorem length_calls (t : Nat) : (calls f i t).length = t := by simp [calls]

theorem not_succeeded_of_error {o : Except Fault (Result α)} {cause : Fault} (h : o = .error cause) :
    ¬Succeeded o := by
  rintro ⟨v, n, r, hs⟩
  cases h.symm.trans hs

theorem not_succeeded_of_failure {o : Except Fault (Result α)} {c : Nat} {r : Record} (h : o = .ok (.failure c r)) :
    ¬Succeeded o := by
  rintro ⟨v, n, r', hs⟩
  cases h.symm.trans hs

theorem values_succ {n m : Nat} {v : α} {r : Record} (h : attempt f i n = .ok (.success v m r)) :
    values f i (n + 1) = values f i n ++ [v] := by
  simp [values, List.range_succ, h, value?, Result.value?]

theorem cursor_succ_of_success {n m : Nat} {v : α} {r : Record} (h : attempt f i n = .ok (.success v m r)) :
    cursor f i (n + 1) = m := by
  rw [cursor_succ, h]
  rfl

/-- Where a property holds of bounded numbers only, there is a first number that does not have it. -/
theorem exists_first {P : Nat → Prop} {max : Nat} (h : ∀ k, P k → k < max) : ∃ n, (∀ k < n, P k) ∧ ¬P n := by
  classical
  have hend : ∃ n, ¬P n := ⟨max, fun hmax => Nat.lt_irrefl _ (h max hmax)⟩
  exact ⟨Nat.find hend, fun k hk => not_not.1 (Nat.find_min hend hk), Nat.find_spec hend⟩

/-- How a repetition ends whose first values were found before. -/
def prepend (vs : List α) (e : Except Fault (Result (List α))) : Except Fault (Result (List α)) :=
  e.map (Result.map (vs ++ ·))

@[simp] theorem prepend_nil (e : Except Fault (Result (List α))) : prepend [] e = e := by
  rcases e with cause | ⟨vs, n, r⟩ | ⟨c, r⟩ <;> rfl

@[simp] theorem prepend_success (vs ws : List α) (n : Nat) (r : Record) :
    prepend vs (.ok (.success ws n r)) = .ok (.success (vs ++ ws) n r) := rfl

@[simp] theorem prepend_failure (vs : List α) (c : Nat) (r : Record) :
    prepend vs (.ok (.failure c r)) = .ok (.failure c r) := rfl

@[simp] theorem prepend_error (vs : List α) (cause : Fault) : prepend vs (.error cause) = .error cause := rfl

theorem prepend_append (vs : List α) (v : α) (e : Except Fault (Result (List α))) :
    prepend (vs ++ [v]) e = prepend vs (e.map (Result.map (v :: ·))) := by
  rcases e with cause | ⟨ws, n, r⟩ | ⟨c, r⟩ <;> simp [prepend, Except.map, Result.map]

end Chain

/-- At every cursor the parser ends as a function of the cursor tells, and makes the calls that another tells. -/
def Parser.Makes (made : List Call → Env σ → Prop) (p : Parser σ ι α) (xs : List ι)
    (f : Nat → Except Fault (Result α)) (calls : Nat → List Call) : Prop :=
  ∀ i, (p xs i).Makes made (f i) (calls i)

open Chain

variable {made : List Call → Env σ → Prop} {p : Parser σ ι α} {stop : Parser σ ι β} {xs : List ι}
variable {f : Nat → Except Fault (Result α)} {g : Nat → Except Fault (Result β)}
variable {isOpen : Bool} {max needed i n : Nat} {seen : Record}

theorem Parser.Answers.makes {steady : Env σ → Prop} (hp : p.Answers xs steady f) (calls : Nat → List Call) :
    p.Makes (fun _ => steady) xs f calls := fun i _ _ h => ⟨hp.outcome h i, hp.steady_after h i⟩

/-! ## A repetition within bounds -/

/-- After `k` values a repetition makes an attempt, which succeeds and does not end it. -/
structure Chain.Repeats (f : Nat → Except Fault (Result α)) (i : Nat) (isOpen : Bool) (max needed k : Nat) : Prop where
  within : k < max
  succeeds : Succeeded (attempt f i k)
  moves : isOpen → needed ≤ k + 1 → cursor f i (k + 1) ≠ cursor f i k

/-- The ways in which a repetition ends after `n` rounds that went on, with how many values it has collected, how
many attempts it has made, and how it ends. -/
inductive Chain.TimesEnds (f : Nat → Except Fault (Result α)) (i : Nat) (isOpen : Bool) (max needed n : Nat) :
    (collected tried : Nat) → Except Fault (Result (List α)) → Prop
  | full (h : n = max) (r : Record) : TimesEnds f i isOpen max needed n n n
    (.ok (.success (values f i n) (cursor f i n) r))
  | gaveUp {cause : Fault} (h : attempt f i n = .error cause) : TimesEnds f i isOpen max needed n n (n + 1)
    (.error cause)
  | failed {c : Nat} {r : Record} (h : attempt f i n = .ok (.failure c r)) (hn : n < needed) (c' : Nat) {r' : Record}
    (hr : r'.isEngaged) : TimesEnds f i isOpen max needed n n (n + 1) (.ok (.failure c' r'))
  | absorbed {c : Nat} {r : Record} (h : attempt f i n = .ok (.failure c r)) (hmax : n < max) (hn : needed ≤ n)
    (r' : Record) : TimesEnds f i isOpen max needed n n (n + 1) (.ok (.success (values f i n) (cursor f i n) r'))
  | idle (ho : isOpen) (hmax : n < max) (h : Succeeded (attempt f i n))
    (hidle : cursor f i (n + 1) = cursor f i n) (hn : needed ≤ n + 1) (r : Record) :
    TimesEnds f i isOpen max needed n (n + 1) (n + 1) (.ok (.success (values f i (n + 1)) (cursor f i (n + 1)) r))

/-- A value that does not end the repetition comes before what follows it. -/
theorem Run.Makes.timesFrom_step {v : α} {m : Nat} {r : Record} {l l' : List Call} {e : Except Fault (Result (List α))}
    (hp : (p xs i).Makes made (.ok (.success v m r)) l) (hgo : ¬(m = i ∧ isOpen ∧ needed ≤ 1))
    (hrest : (p.timesFrom isOpen xs max (needed - 1) m (r.merge seen)).Makes made e l') :
    (p.timesFrom isOpen xs (max + 1) needed i seen).Makes made (e.map (Result.map (v :: ·))) (l ++ l') := by
  rw [Parser.timesFrom]
  refine hp.bind ?_
  simp only [Result.aggregate, if_neg hgo]
  exact hrest.map _

/-- Rounds that go on leave the rest of the repetition to do. -/
theorem Parser.Makes.timesFrom_run (hp : p.Makes made xs f fun i => [call f i])
    (hgo : ∀ k < n, Repeats f i isOpen max needed k) (seen : Record) :
    ∃ seen', ∀ e l, (p.timesFrom isOpen xs (max - n) (needed - n) (cursor f i n) seen').Makes made e l →
      (p.timesFrom isOpen xs max needed i seen).Makes made (prepend (values f i n) e) (calls f i n ++ l) := by
  induction n with
  | zero => exact ⟨seen, fun e l h => by simpa [values, calls, cursor] using h⟩
  | succ n ih =>
    obtain ⟨seen', hrun⟩ := ih fun k hk => hgo k (Nat.lt_succ_of_lt hk)
    obtain ⟨hmax, ⟨v, m, r, h⟩, hmoves⟩ := hgo n (Nat.lt_succ_self n)
    have hm := cursor_succ_of_success h
    refine ⟨r.merge seen', fun e l hrest => ?_⟩
    have hone : (p xs (cursor f i n)).Makes made (.ok (.success v m r)) [call f (cursor f i n)] := h ▸ hp _
    rw [hm] at hrest hmoves
    rw [values_succ h, prepend_append, calls_succ, List.append_assoc]
    refine hrun _ _ ?_
    obtain ⟨left, hleft⟩ : ∃ left, max - n = left + 1 := ⟨max - n - 1, by omega⟩
    rw [Nat.sub_add_eq, hleft] at hrest
    rw [hleft]
    have hgoes : ¬(m = cursor f i n ∧ isOpen ∧ needed - n ≤ 1) := by
      rintro ⟨hidle, ho, hn⟩
      exact hmoves ho (by omega) hidle
    exact hone.timesFrom_step hgoes hrest

/-- An attempt that does not go on ends the repetition. -/
theorem Parser.Makes.timesFrom_last (hp : p.Makes made xs f fun i => [call f i]) {size : Nat}
    (hf : Advances size f) (hi : i ≤ size) (hmax : n < max) (hlast : ¬Repeats f i isOpen max needed n) (seen : Record) :
    ∃ collected e, TimesEnds f i isOpen max needed n collected (n + 1) (prepend (values f i n) e) ∧
      (p.timesFrom isOpen xs (max - n) (needed - n) (cursor f i n) seen).Makes made e [call f (cursor f i n)] := by
  obtain ⟨left, hleft⟩ : ∃ left, max - n = left + 1 := ⟨max - n - 1, by omega⟩
  have hone : (p xs (cursor f i n)).Makes made (attempt f i n) [call f (cursor f i n)] := hp _
  rw [hleft, Parser.timesFrom]
  rcases h : attempt f i n with cause | ⟨v, m, r⟩ | ⟨c, r⟩ <;> rw [h] at hone
  · exact ⟨n, .error cause, .gaveUp h, hone.bind_error _⟩
  · have hm := cursor_succ_of_success h
    have hidle : isOpen ∧ needed ≤ n + 1 ∧ cursor f i (n + 1) = cursor f i n := by
      by_contra hidle
      exact hlast ⟨hmax, ⟨v, m, r, h⟩, fun ho hneeded he => hidle ⟨ho, hneeded, he⟩⟩
    obtain ⟨ho, hneeded, hidle⟩ := hidle
    have hends := TimesEnds.idle ho hmax ⟨v, m, r, h⟩ hidle hneeded (r.merge seen)
    rw [values_succ h, hm, ← prepend_success] at hends
    refine ⟨n + 1, _, hends, hone.bind_quiet ?_⟩
    have hfirst : m = cursor f i n ∧ isOpen ∧ needed - n ≤ 1 := ⟨hm.symm.trans hidle, ho, by omega⟩
    simp only [Result.aggregate, if_pos hfirst]
    exact .pure _
  · have hseen : (r.merge seen).isEngaged := by simp [hf.engaged (cursor_le hf hi n) h]
    by_cases hneeded : needed ≤ n
    · have hends : TimesEnds f i isOpen max needed n n (n + 1) _ := .absorbed h hmax hneeded (r.merge seen)
      rw [← List.append_nil (values f i n), ← prepend_success] at hends
      refine ⟨n, _, hends, hone.bind_quiet ?_⟩
      simp only [Result.aggregate, if_pos (Nat.sub_eq_zero_of_le hneeded)]
      exact .pure _
    · obtain ⟨c', hc'⟩ := Run.Makes.ofRecord (α := List α) made hseen
      refine ⟨n, .ok (.failure c' _), .failed h (Nat.lt_of_not_le hneeded) c' hseen, hone.bind_quiet ?_⟩
      simp only [Result.aggregate, if_neg (Nat.sub_ne_zero_of_lt (Nat.lt_of_not_le hneeded))]
      exact hc'

/-- A repetition ends in one of its ways, having made the attempts of its chain. -/
theorem Parser.Makes.exists_timesEnds (hp : p.Makes made xs f fun i => [call f i]) {size : Nat}
    (hf : Advances size f) (hi : i ≤ size) (isOpen : Bool) (max needed : Nat) (seen : Record) :
    ∃ n collected tried e, (∀ k < n, Repeats f i isOpen max needed k) ∧
      TimesEnds f i isOpen max needed n collected tried e ∧
      (p.timesFrom isOpen xs max needed i seen).Makes made e (calls f i tried) := by
  obtain ⟨n, hgo, hlast⟩ := exists_first (P := Repeats f i isOpen max needed) fun k h => h.within
  obtain ⟨seen', hrun⟩ := hp.timesFrom_run hgo seen
  have hn : n ≤ max := Nat.le_of_not_lt fun hlt => Nat.lt_irrefl _ (hgo max hlt).within
  rcases Nat.lt_or_eq_of_le hn with hmax | rfl
  · obtain ⟨collected, e, hends, hmakes⟩ := hp.timesFrom_last hf hi hmax hlast seen'
    refine ⟨n, collected, n + 1, _, hgo, hends, ?_⟩
    rw [calls_succ]
    exact hrun e _ hmakes
  · refine ⟨n, n, n, _, hgo, .full rfl seen', ?_⟩
    rw [← List.append_nil (values f i n), ← List.append_nil (calls f i n), ← prepend_success]
    rw [Nat.sub_self] at hrun
    exact hrun _ _ (.pure _)

/-! ## A repetition that looks for its end -/

/-- After `k` values a repetition makes an attempt: more values may come, and it is not stopped. -/
structure Chain.Tries (f : Nat → Except Fault (Result α)) (g : Nat → Except Fault (Result β)) (i max needed k : Nat) :
    Prop where
  within : k < max
  looked : ∃ o, g (cursor f i k) = .ok o ∧ (o.isSuccess → k < needed)

/-- After `k` values a repetition makes an attempt, which succeeds and does not end it. -/
structure Chain.Proceeds (f : Nat → Except Fault (Result α)) (g : Nat → Except Fault (Result β)) (i : Nat)
    (isOpen : Bool) (max needed k : Nat) : Prop extends Tries f g i max needed k where
  succeeds : Succeeded (attempt f i k)
  moves : isOpen → cursor f i (k + 1) = cursor f i k → Succeeded (g (cursor f i k))

/-- The ways in which a repetition that looks for its end ends after `n` rounds that went on, with how many values
it has collected, how many attempts it has made, and how it ends. -/
inductive Chain.UntilEnds (f : Nat → Except Fault (Result α)) (g : Nat → Except Fault (Result β)) (i : Nat)
    (isOpen : Bool) (max needed n : Nat) : (collected tried : Nat) → Except Fault (Result (List α)) → Prop
  | full (h : n = max) (r : Record) : UntilEnds f g i isOpen max needed n n n
    (.ok (.success (values f i n) (cursor f i n) r))
  | stopGaveUp {cause : Fault} (h : g (cursor f i n) = .error cause) :
    UntilEnds f g i isOpen max needed n n n (.error cause)
  | stopped (h : Succeeded (g (cursor f i n))) (hn : needed ≤ n) (r : Record) :
    UntilEnds f g i isOpen max needed n n n (.ok (.success (values f i n) (cursor f i n) r))
  | gaveUp {cause : Fault} (ht : Tries f g i max needed n) (h : attempt f i n = .error cause) :
    UntilEnds f g i isOpen max needed n n (n + 1) (.error cause)
  | failed {c : Nat} {r : Record} (ht : Tries f g i max needed n) (h : attempt f i n = .ok (.failure c r)) (c' : Nat)
    {r' : Record} (hr : r'.isEngaged) : UntilEnds f g i isOpen max needed n n (n + 1) (.ok (.failure c' r'))
  | stuck (ho : isOpen) (ht : Tries f g i max needed n) (h : Succeeded (attempt f i n))
    (hidle : cursor f i (n + 1) = cursor f i n) (hstop : ¬Succeeded (g (cursor f i n))) (c' : Nat) {r' : Record}
    (hr : r'.isEngaged) : UntilEnds f g i isOpen max needed n (n + 1) (n + 1) (.ok (.failure c' r'))

/-- A round of a repetition after it has looked for its end, with what was seen by then. -/
def Parser.untilRound (p : Parser σ ι α) (stop : Parser σ ι β) (isOpen : Bool) (xs : List ι) (max needed i : Nat)
    (stopped : Bool) (seen : Record) : Run σ (Result (List α)) := do
  ((← p xs i).aggregate seen).proceed fun v next r => do
    if next = i ∧ stopped = false ∧ isOpen then Run.ofExcept (Result.ofRecord r)
    else return (← p.manyUntilFrom stop isOpen xs max (needed - 1) next r).map (v :: ·)

namespace Run.Makes

variable {o : Result β} {v : α} {m : Nat} {r : Record} {l l' : List Call} {e : Except Fault (Result (List α))}

/-- A repetition that does not find its end goes on with a round. -/
theorem manyUntilFrom_look (hstop : (stop xs i).Makes made (.ok o) []) (ho : o.isSuccess → 0 < needed)
    (hround : (p.untilRound stop isOpen xs max needed i o.isSuccess (o.furthest.merge seen)).Makes made e l) :
    (p.manyUntilFrom stop isOpen xs (max + 1) needed i seen).Makes made e l := by
  rw [Parser.manyUntilFrom]
  refine hstop.bind ?_
  have hgo : ¬(o.isSuccess ∧ needed = 0) := fun h => Nat.ne_of_gt (ho h.1) h.2
  simp only [Result.isSuccess_aggregate, Result.furthest_aggregate, if_neg hgo]
  exact hround

/-- A value that does not end the repetition comes before what follows it. -/
theorem untilRound_step {stopped : Bool} (hp : (p xs i).Makes made (.ok (.success v m r)) l)
    (hgo : ¬(m = i ∧ stopped = false ∧ isOpen))
    (hrest : (p.manyUntilFrom stop isOpen xs max (needed - 1) m (r.merge seen)).Makes made e l') :
    (p.untilRound stop isOpen xs max needed i stopped seen).Makes made (e.map (Result.map (v :: ·))) (l ++ l') := by
  refine hp.bind ?_
  simp only [Result.aggregate, Result.proceed, if_neg hgo]
  exact hrest.map _

end Run.Makes

/-- Rounds that go on leave the rest of the repetition to do. -/
theorem Parser.Makes.manyUntilFrom_run (hp : p.Makes made xs f fun i => [call f i])
    (hstop : stop.Makes made xs g fun _ => []) (hgo : ∀ k < n, Proceeds f g i isOpen max needed k) (seen : Record) :
    ∃ seen', ∀ e l,
      (p.manyUntilFrom stop isOpen xs (max - n) (needed - n) (cursor f i n) seen').Makes made e l →
        (p.manyUntilFrom stop isOpen xs max needed i seen).Makes made (prepend (values f i n) e)
          (calls f i n ++ l) := by
  induction n with
  | zero => exact ⟨seen, fun e l h => by simpa [values, calls, cursor] using h⟩
  | succ n ih =>
    obtain ⟨seen', hrun⟩ := ih fun k hk => hgo k (Nat.lt_succ_of_lt hk)
    obtain ⟨⟨hmax, o, hlook, ho⟩, ⟨v, m, r, h⟩, hmoves⟩ := hgo n (Nat.lt_succ_self n)
    have hm := cursor_succ_of_success h
    refine ⟨r.merge (o.furthest.merge seen'), fun e l hrest => ?_⟩
    have hone : (p xs (cursor f i n)).Makes made (.ok (.success v m r)) [call f (cursor f i n)] := h ▸ hp _
    have hlooked : (stop xs (cursor f i n)).Makes made (.ok o) [] := hlook ▸ hstop _
    rw [hm] at hrest hmoves
    rw [values_succ h, prepend_append, calls_succ, List.append_assoc]
    refine hrun _ _ ?_
    obtain ⟨left, hleft⟩ : ∃ left, max - n = left + 1 := ⟨max - n - 1, by omega⟩
    rw [Nat.sub_add_eq, hleft] at hrest
    rw [hleft]
    refine hlooked.manyUntilFrom_look (fun hs => Nat.sub_pos_of_lt (ho hs)) (hone.untilRound_step ?_ hrest)
    rintro ⟨hidle, hfailed, hopen⟩
    obtain ⟨w, m', r', hw⟩ := hmoves hopen hidle
    cases hlook.symm.trans hw
    cases hfailed

variable (stop) in
/-- A round that does not go on ends the repetition. -/
theorem Parser.Makes.untilRound_last (hp : p.Makes made xs f fun i => [call f i]) {size : Nat}
    (hf : Advances size f) (hg : Advances size g) (hi : i ≤ size) (ht : Tries f g i max needed n)
    (hlast : ¬Proceeds f g i isOpen max needed n) {o : Result β} (hlook : g (cursor f i n) = .ok o) (left : Nat)
    (seen : Record) :
    ∃ collected e, UntilEnds f g i isOpen max needed n collected (n + 1) (prepend (values f i n) e) ∧
      (p.untilRound stop isOpen xs left (needed - n) (cursor f i n) o.isSuccess (o.furthest.merge seen)).Makes made e
        [call f (cursor f i n)] := by
  have hle := cursor_le hf hi n
  have hone : (p xs (cursor f i n)).Makes made (attempt f i n) [call f (cursor f i n)] := hp _
  rcases h : attempt f i n with cause | ⟨v, m, r⟩ | ⟨c, r⟩ <;> rw [h] at hone
  · exact ⟨n, .error cause, .gaveUp ht h, hone.bind_error _⟩
  · have hm := cursor_succ_of_success h
    have hidle : isOpen ∧ cursor f i (n + 1) = cursor f i n ∧ ¬Succeeded (g (cursor f i n)) := by
      by_contra hidle
      exact hlast ⟨ht, ⟨v, m, r, h⟩, fun ho he => by_contra fun hs => hidle ⟨ho, he, hs⟩⟩
    obtain ⟨hopen, hidle, hfailed⟩ := hidle
    cases o with
    | success w m' r' => exact absurd ⟨w, m', r', hlook⟩ hfailed
    | failure c r' =>
      have hseen : (r.merge (r'.merge seen)).isEngaged := by simp [hg.engaged hle hlook]
      obtain ⟨c', hc'⟩ := Run.Makes.ofRecord (α := List α) made hseen
      refine ⟨n + 1, .ok (.failure c' _), .stuck hopen ht ⟨v, m, r, h⟩ hidle hfailed c' hseen, hone.bind_quiet ?_⟩
      have hstuck : m = cursor f i n ∧ Result.isSuccess (.failure c r' : Result β) = false ∧ isOpen :=
        ⟨hm.symm.trans hidle, rfl, hopen⟩
      simp only [Result.aggregate, Result.proceed, if_pos hstuck]
      exact hc'
  · have hseen : (r.merge (o.furthest.merge seen)).isEngaged := by simp [hf.engaged hle h]
    obtain ⟨c', hc'⟩ := Run.Makes.ofRecord (α := List α) made hseen
    exact ⟨n, .ok (.failure c' _), .failed ht h c' hseen, hone.bind_quiet hc'⟩

/-- A repetition that does not go on has ended, after a last attempt or before it. -/
theorem Parser.Makes.manyUntilFrom_last (hp : p.Makes made xs f fun i => [call f i])
    (hstop : stop.Makes made xs g fun _ => []) {size : Nat} (hf : Advances size f) (hg : Advances size g)
    (hi : i ≤ size) (hmax : n < max) (hlast : ¬Proceeds f g i isOpen max needed n) (seen : Record) :
    ∃ collected tried e l, UntilEnds f g i isOpen max needed n collected tried (prepend (values f i n) e) ∧
      calls f i tried = calls f i n ++ l ∧
      (p.manyUntilFrom stop isOpen xs (max - n) (needed - n) (cursor f i n) seen).Makes made e l := by
  obtain ⟨left, hleft⟩ : ∃ left, max - n = left + 1 := ⟨max - n - 1, by omega⟩
  have hlooked : (stop xs (cursor f i n)).Makes made (g (cursor f i n)) [] := hstop _
  rw [hleft]
  rcases hlook : g (cursor f i n) with cause | o <;> rw [hlook] at hlooked
  · exact ⟨n, n, .error cause, [], .stopGaveUp hlook, (List.append_nil _).symm, hlooked.bind_error _⟩
  by_cases ho : o.isSuccess → n < needed
  · obtain ⟨collected, e, hends, hround⟩ :=
      hp.untilRound_last stop hf hg hi ⟨hmax, o, hlook, ho⟩ hlast hlook left seen
    exact ⟨collected, n + 1, e, _, hends, calls_succ n,
      hlooked.manyUntilFrom_look (fun hs => Nat.sub_pos_of_lt (ho hs)) hround⟩
  · rw [Classical.not_imp, Nat.not_lt] at ho
    obtain ⟨hs, hneeded⟩ := ho
    cases o with
    | failure c r => cases hs
    | success w m r =>
      have hends : UntilEnds f g i isOpen max needed n n n _ := .stopped ⟨w, m, r, hlook⟩ hneeded (r.merge seen)
      rw [← List.append_nil (values f i n), ← prepend_success] at hends
      refine ⟨n, n, _, [], hends, (List.append_nil _).symm, hlooked.bind_quiet ?_⟩
      simp only [Result.aggregate, Result.isSuccess, Nat.sub_eq_zero_of_le hneeded, and_self, if_true]
      exact .pure _

/-- A repetition that looks for its end ends in one of its ways, having made the attempts of its chain. -/
theorem Parser.Makes.exists_untilEnds (hp : p.Makes made xs f fun i => [call f i])
    (hstop : stop.Makes made xs g fun _ => []) {size : Nat} (hf : Advances size f) (hg : Advances size g)
    (hi : i ≤ size) (isOpen : Bool) (max needed : Nat) (seen : Record) :
    ∃ n collected tried e, (∀ k < n, Proceeds f g i isOpen max needed k) ∧
      UntilEnds f g i isOpen max needed n collected tried e ∧
      (p.manyUntilFrom stop isOpen xs max needed i seen).Makes made e (calls f i tried) := by
  obtain ⟨n, hgo, hlast⟩ := exists_first (P := Proceeds f g i isOpen max needed) fun k h => h.within
  obtain ⟨seen', hrun⟩ := hp.manyUntilFrom_run hstop hgo seen
  have hn : n ≤ max := Nat.le_of_not_lt fun hlt => Nat.lt_irrefl _ (hgo max hlt).within
  rcases Nat.lt_or_eq_of_le hn with hmax | rfl
  · obtain ⟨collected, tried, e, l, hends, htried, hmakes⟩ :=
      hp.manyUntilFrom_last hstop hf hg hi hmax hlast seen'
    refine ⟨n, collected, tried, _, hgo, hends, ?_⟩
    rw [htried]
    exact hrun e l hmakes
  · refine ⟨n, n, n, _, hgo, .full rfl seen', ?_⟩
    rw [← List.append_nil (values f i n), ← List.append_nil (calls f i n), ← prepend_success]
    rw [Nat.sub_self] at hrun
    exact hrun _ _ (.pure _)

end Furthest
