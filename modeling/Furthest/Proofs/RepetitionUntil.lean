import Furthest.Proofs.Diagnostics
import Furthest.Proofs.RepetitionAttempts

/-!
# Repetition up to a stop

`Chain.Stops` specifies after how many values a repetition stops that looks for its end: another parser is asked at
each cursor of the chain from the least count on, and the first cursor where it succeeds ends the repetition, as the
greatest count does. There is at most one such number (`Chain.Stops.unique`), and with none there is nothing to
succeed with: `Chain.Decision`.

`Run.Decides` has what an invocation decides, with a rule for each combinator that is used here. The repetition
decides what is specified (`Parser.Answers.manyUntil_decides`), and so does a repetition without a stop, each of
whose values is guarded by a lookahead (`Parser.Answers.guarded_decides`).

Main statement: `manyUntil_iff_stops`.
-/

namespace Furthest

variable {σ ι α β γ : Type}

/-! ## The specification -/

namespace Chain

/-- The outcome is a failure. -/
def Failed (o : Except Fault (Result α)) : Prop := ∃ c r, o = .ok (.failure c r)

theorem Failed.not_succeeded {o : Except Fault (Result α)} : Failed o → ¬Succeeded o := fun ⟨_, _, h⟩ =>
  not_succeeded_of_failure h

/-- A repetition stops after `n` values: it finds them, and from the least count on the other parser fails before
each of them. Then the greatest count is reached, or the other parser succeeds. -/
structure Stops (f : Nat → Except Fault (Result α)) (g : Nat → Except Fault (Result β)) (i : Nat) (b : Bounds)
    (n : Nat) : Prop where
  lasts : Lasts f i n
  le_max : n ≤ b.max
  unstopped : ∀ k, b.min ≤ k → k < n → Failed (g (cursor f i k))
  ends : b.max ≠ unbounded ∧ n = b.max ∨ b.min ≤ n ∧ Succeeded (g (cursor f i n))

/-- A repetition is to succeed with the values after which it stops, and to fail if it never does. -/
def Decision (f : Nat → Except Fault (Result α)) (g : Nat → Except Fault (Result β)) (i : Nat) (b : Bounds)
    (d : Option (List α × Nat)) : Prop :=
  (∃ n, Stops f g i b n ∧ d = some (values f i n, cursor f i n)) ∨ (∀ n, ¬Stops f g i b n) ∧ d = none

variable {f : Nat → Except Fault (Result α)} {g : Nat → Except Fault (Result β)} {i : Nat} {b : Bounds} {n m : Nat}

theorem Stops.not_lt (hn : Stops f g i b n) (hm : Stops f g i b m) : ¬n < m := fun hlt => by
  rcases hn.ends with ⟨-, hmax⟩ | ⟨hmin, hs⟩
  · have := hm.le_max
    omega
  · exact (hm.unstopped n hmin hlt).not_succeeded hs

/-- A repetition stops after one number of values only. -/
theorem Stops.unique (hn : Stops f g i b n) (hm : Stops f g i b m) : n = m :=
  Nat.le_antisymm (Nat.le_of_not_lt (hm.not_lt hn)) (Nat.le_of_not_lt (hn.not_lt hm))

theorem Decision.unique {d d' : Option (List α × Nat)} (h : Decision f g i b d) (h' : Decision f g i b d') :
    d = d' := by
  rcases h with ⟨n, hn, rfl⟩ | ⟨hnone, rfl⟩ <;> rcases h' with ⟨m, hm, rfl⟩ | ⟨hnone', rfl⟩
  · rw [hn.unique hm]
  · exact absurd hn (hnone' n)
  · exact absurd hm (hnone m)
  · rfl

/-! ### How the loop meets it -/

/-- Where another attempt is made, the repetition has not stopped. -/
theorem Tries.not_stops (h : Tries f g i b.max b.min n) : ¬Stops f g i b n := fun hs => by
  rcases hs.ends with ⟨-, hmax⟩ | ⟨hmin, w, m, r, hw⟩
  · exact Nat.ne_of_lt h.within hmax
  · obtain ⟨o, ho, hlt⟩ := h.looked
    cases ho.symm.trans hw
    exact Nat.not_lt.2 hmin (hlt rfl)

section

variable (hgo : ∀ k < n, Proceeds f g i b.isOpen b.max b.min k)
include hgo

/-- Rounds that go on leave the repetition to stop after them. -/
theorem stops_of_proceeds (hmax : n ≤ b.max)
    (hends : b.max ≠ unbounded ∧ n = b.max ∨ b.min ≤ n ∧ Succeeded (g (cursor f i n))) : Stops f g i b n where
  lasts k hk := (hgo k hk).succeeds
  le_max := hmax
  unstopped k hmin hk := by
    obtain ⟨o, ho, hlt⟩ := (hgo k hk).looked
    cases o with
    | success w m r => exact absurd (hlt rfl) (Nat.not_lt.2 hmin)
    | failure c r => exact ⟨c, r, ho⟩
  ends := hends

/-- If the last attempt does not let the repetition stop later, then it never does. -/
theorem never_stops (ht : Tries f g i b.max b.min n) (hlater : ∀ m, n < m → ¬Stops f g i b m) (m : Nat) :
    ¬Stops f g i b m := by
  rcases Nat.lt_trichotomy m n with hlt | rfl | hlt
  · exact (hgo m hlt).toTries.not_stops
  · exact ht.not_stops
  · exact hlater m hlt

/-- With no greatest count, as many values as can be counted end in one that consumes nothing, so the other parser
succeeds there. -/
theorem succeeded_of_full {size : Nat} (hf : Advances size f) (hi : i ≤ size) (hsize : size < unbounded)
    (hopen : b.max = unbounded) (hn : n = unbounded) : Succeeded (g (cursor f i n)) := by
  obtain ⟨k, rfl⟩ : ∃ k, n = k + 1 := ⟨unbounded - 1, hn⟩
  have hidle : cursor f i (k + 1) = cursor f i k := by
    by_contra hne
    have := add_le_cursor hf hi hne
    have := cursor_le hf hi (k + 1)
    omega
  rw [hidle]
  exact (hgo k (Nat.lt_succ_self k)).moves (decide_eq_true hopen) hidle

/-- However the loop ends, it has decided what was specified. -/
theorem UntilEnds.decision {size collected tried : Nat} {e : Except Fault (Result (List α))} (hf : Advances size f)
    (hi : i ≤ size) (hsize : size < unbounded) (hfo : ∀ j ≤ size, ∃ o, f j = .ok o)
    (hgo' : ∀ j ≤ size, ∃ o, g j = .ok o) (h : UntilEnds f g i b.isOpen b.max b.min n collected tried e) :
    ∃ o, e = .ok o ∧ Decision f g i b o.decision ∧ (o.decision = none → o.furthest.isEngaged) := by
  have hle := cursor_le hf hi n
  cases h with
  | full hmax r =>
    refine ⟨_, rfl, .inl ⟨n, stops_of_proceeds hgo hmax.le ?_, rfl⟩, nofun⟩
    by_cases hopen : b.max = unbounded
    · exact .inr ⟨hmax ▸ b.min_le_max, succeeded_of_full hgo hf hi hsize hopen (hmax.trans hopen)⟩
    · exact .inl ⟨hopen, hmax⟩
  | stopGaveUp h =>
    obtain ⟨o, ho⟩ := hgo' _ hle
    cases h.symm.trans ho
  | stopped h hn r =>
    have hmax : n ≤ b.max := Nat.le_of_not_lt fun hlt => Nat.lt_irrefl _ (hgo _ hlt).within
    exact ⟨_, rfl, .inl ⟨n, stops_of_proceeds hgo hmax (.inr ⟨hn, h⟩), rfl⟩, nofun⟩
  | gaveUp ht h =>
    obtain ⟨o, ho⟩ := hfo _ hle
    cases h.symm.trans ho
  | failed ht h c' hr =>
    refine ⟨_, rfl, .inr ⟨never_stops hgo ht fun m hm hs => ?_, rfl⟩, fun _ => hr⟩
    exact not_succeeded_of_failure h (hs.lasts n hm)
  | stuck hopen ht h hidle hstop c' hr =>
    refine ⟨_, rfl, .inr ⟨never_stops hgo ht fun m hm hs => ?_, rfl⟩, fun _ => hr⟩
    rcases hs.ends with ⟨hmax, -⟩ | ⟨-, hsucceeded⟩
    · exact hmax (of_decide_eq_true hopen)
    · exact hstop (cursor_eq_of_idle hidle hm.le ▸ hsucceeded)

end

end Chain

/-! ## What invocations decide -/

/-- In steady environments, the invocation ends with a success or with a failure that has an index, and it leaves
the environment steady. -/
def Run.Decides (steady : Env σ → Prop) (x : Run σ (Result α)) (d : Option (α × Nat)) : Prop :=
  ∃ o, x.Makes (fun _ => steady) (.ok o) [] ∧ o.decision = d ∧ (d = none → o.furthest.isEngaged)

namespace Run.Decides

variable {steady : Env σ → Prop} {x : Run σ (Result α)} {l : List Call} {v : α} {m n c : Nat} {r : Record}

theorem success (h : x.Makes (fun _ => steady) (.ok (.success v n r)) l) : x.Decides steady (some (v, n)) :=
  ⟨_, h, rfl, nofun⟩

theorem failure (h : x.Makes (fun _ => steady) (.ok (.failure c r)) l) (hr : r.isEngaged) : x.Decides steady none :=
  ⟨_, h, rfl, fun _ => hr⟩

/-- A failure is made anew of a record that has an index. -/
theorem ofRecord (hr : r.isEngaged) : (Run.ofExcept (Result.ofRecord r) : Run σ (Result α)).Decides steady none := by
  obtain ⟨c, h⟩ := Run.Makes.ofRecord (α := α) (fun _ => steady) hr
  exact failure h hr

theorem exists_success (h : x.Decides steady (some (v, n))) :
    ∃ r, x.Makes (fun _ => steady) (.ok (.success v n r)) [] := by
  obtain ⟨o, ho, hd, -⟩ := h
  cases o with
  | success w m r =>
    cases hd
    exact ⟨r, ho⟩
  | failure c r => cases hd

theorem exists_failure (h : x.Decides steady none) :
    ∃ c r, x.Makes (fun _ => steady) (.ok (.failure c r)) [] ∧ r.isEngaged := by
  obtain ⟨o, ho, hd, hr⟩ := h
  cases o with
  | success w m r => cases hd
  | failure c r => exact ⟨c, r, ho, hr rfl⟩

theorem map_decision {d : Option (α × Nat)} (h : x.Decides steady d) {env : Env σ} (henv : steady env) :
    (x.outcome env).map Result.decision = .ok d := by
  obtain ⟨o, ho, rfl, -⟩ := h
  rw [(ho [] env henv).1]
  rfl

/-- What follows a run decides. -/
theorem bind {y : Run σ γ} {w : γ} {go : γ → Run σ (Result α)} {d : Option (α × Nat)}
    (hy : y.Makes (fun _ => steady) (.ok w) []) (h : (go w).Decides steady d) : (y >>= go).Decides steady d := by
  obtain ⟨o, ho, hd⟩ := h
  exact ⟨o, hy.bind ho, hd⟩

variable {p : Parser σ ι α} {q : Parser σ ι β} {xs : List ι} {i : Nat} {d : Option (β × Nat)}

theorem pair (hp : (p xs i).Decides steady (some (v, m))) (hq : (q xs m).Decides steady d) :
    (p.pair q xs i).Decides steady (d.map fun w => ((v, w.1), w.2)) := by
  obtain ⟨r, hp⟩ := hp.exists_success
  refine bind hp ?_
  rcases d with _ | ⟨w, n⟩
  · obtain ⟨c, r', hq, hr⟩ := hq.exists_failure
    exact bind hq (ofRecord (by simp [hr]))
  · obtain ⟨r', hq⟩ := hq.exists_success
    exact bind hq (success (.pure _))

theorem pair_none (hp : (p xs i).Decides steady none) (q : Parser σ ι β) : (p.pair q xs i).Decides steady none := by
  obtain ⟨c, r, hp, hr⟩ := hp.exists_failure
  exact bind hp (ofRecord hr)

theorem map {d : Option (α × Nat)} (hp : (p xs i).Decides steady d) (h : α → β) :
    (p.map h xs i).Decides steady (d.map fun v => (h v.1, v.2)) := by
  rcases d with _ | ⟨v, n⟩
  · obtain ⟨c, r, hp, hr⟩ := hp.exists_failure
    exact bind hp (ofRecord hr)
  · obtain ⟨r, hp⟩ := hp.exists_success
    exact bind hp (bind (.ofExcept (.ok (h v))) (success (.pure _)))

theorem skip (hp : (p xs i).Decides steady (some (v, m))) (hq : (q xs m).Decides steady d) :
    (p.skip q xs i).Decides steady (d.map fun w => (v, w.2)) := by
  obtain ⟨r, hp⟩ := hp.exists_success
  refine bind hp ?_
  rcases d with _ | ⟨w, n⟩
  · obtain ⟨c, r', hq, hr⟩ := hq.exists_failure
    exact bind hq (ofRecord (by simp [hr]))
  · obtain ⟨r', hq⟩ := hq.exists_success
    exact bind hq (success (.pure _))

theorem peek {d : Option (α × Nat)} (hp : (p xs i).Decides steady d) :
    (p.peek xs i).Decides steady (d.map fun v => (v.1, i)) := by
  rcases d with _ | ⟨v, n⟩
  · obtain ⟨c, r, hp, hr⟩ := hp.exists_failure
    exact bind hp (failure (.pure _) hr)
  · obtain ⟨r, hp⟩ := hp.exists_success
    exact bind hp (success (.pure _))

end Run.Decides

/-! ## Chains that agree -/

namespace Chain

variable {f f' : Nat → Except Fault (Result α)} {i m : Nat}

/-- Parsers that agree along the chain of one of them have one chain. -/
theorem cursor_congr (h : ∀ k < m, f' (cursor f i k) = f (cursor f i k)) : ∀ k ≤ m, cursor f' i k = cursor f i k
  | 0, _ => rfl
  | k + 1, hk => by
    have hbefore := cursor_congr h k (Nat.le_of_succ_le hk)
    rw [cursor_succ, cursor_succ, attempt, attempt, hbefore, h k hk]

theorem attempt_congr (h : ∀ k < m, f' (cursor f i k) = f (cursor f i k)) {k : Nat} (hk : k < m) :
    attempt f' i k = attempt f i k := by
  rw [attempt, attempt, cursor_congr h k hk.le, h k hk]

theorem values_congr (h : ∀ k < m, f' (cursor f i k) = f (cursor f i k)) : values f' i m = values f i m :=
  List.filterMap_congr fun _ hk => congrArg value? (attempt_congr h (List.mem_range.1 hk))

theorem cursor_add (f : Nat → Except Fault (Result α)) (i t k : Nat) :
    cursor f i (t + k) = cursor f (cursor f i t) k := by
  rw [Nat.add_comm]
  exact Function.iterate_add_apply ..

theorem attempt_add (f : Nat → Except Fault (Result α)) (i t k : Nat) :
    attempt f i (t + k) = attempt f (cursor f i t) k :=
  congrArg f (cursor_add f i t k)

theorem values_add (f : Nat → Except Fault (Result α)) (i t k : Nat) :
    values f i (t + k) = values f i t ++ values f (cursor f i t) k := by
  simp only [values, List.range_add, List.filterMap_append, List.filterMap_map]
  exact congrArg _ (List.filterMap_congr fun j _ => congrArg value? (attempt_add f i t j))

theorem lasts_add {t k : Nat} : Lasts f i (t + k) ↔ Lasts f i t ∧ Lasts f (cursor f i t) k := by
  constructor
  · refine fun h => ⟨fun j hj => h j (Nat.lt_add_right k hj), fun j hj => ?_⟩
    rw [← attempt_add]
    exact h (t + j) (Nat.add_lt_add_left hj t)
  · rintro ⟨hfirst, hrest⟩ j hj
    rcases Nat.lt_or_ge j t with hlt | hge
    · exact hfirst j hlt
    · obtain ⟨j, rfl⟩ := Nat.exists_eq_add_of_le hge
      rw [attempt_add]
      exact hrest j (Nat.lt_of_add_lt_add_left hj)

/-! ### A parser guarded by a lookahead -/

/-- What a parser answers after another one that should fail. -/
def guarded (label : Bytes) (g : Nat → Except Fault (Result β)) (f : Nat → Except Fault (Result α)) (i : Nat) :
    Except Fault (Result α) :=
  match g i with
  | .ok (.success ..) => .ok (.fail i (.singleton label))
  | .ok (.failure ..) => f i
  | .error cause => .error cause

variable {g : Nat → Except Fault (Result β)} {label : Bytes}

theorem guarded_of_failed (h : Failed (g i)) : guarded label g f i = f i := by
  obtain ⟨c, r, h⟩ := h
  rw [guarded, h]

theorem guarded_of_succeeded (h : Succeeded (g i)) : guarded label g f i = .ok (.fail i (.singleton label)) := by
  obtain ⟨v, n, r, h⟩ := h
  rw [guarded, h]

theorem failed_of_guarded (h : Succeeded (guarded label g f i)) : Failed (g i) := by
  rcases hg : g i with cause | ⟨v, n, r⟩ | ⟨c, r⟩
  · obtain ⟨w, m, r', h⟩ := h
    simp [guarded, hg] at h
  · obtain ⟨w, m, r', h⟩ := h
    simp [guarded, hg, Result.fail] at h
  · exact ⟨c, r, rfl⟩

theorem Advances.guarded {size : Nat} (hf : Advances size f) : Advances size (guarded label g f) where
  within {j n v r} hj h := by
    rw [guarded_of_failed (failed_of_guarded ⟨v, n, r, h⟩)] at h
    exact hf.within hj h
  engaged {j c r} hj h := by
    rcases hg : g j with cause | ⟨v, n, r'⟩ | ⟨c', r'⟩
    · simp [Chain.guarded, hg] at h
    · rw [guarded_of_succeeded ⟨v, n, r', hg⟩] at h
      cases h
      rfl
    · rw [guarded_of_failed ⟨c', r', hg⟩] at h
      exact hf.engaged hj h

/-- Guarded attempts that succeed are attempts. -/
theorem agree_of_guarded {c : Nat} (hm : Lasts (guarded label g f) c m) :
    ∀ k < m, f (cursor (guarded label g f) c k) = guarded label g f (cursor (guarded label g f) c k) := fun k hk =>
  (guarded_of_failed (failed_of_guarded (hm k hk))).symm

/-- Any number of values ends where the parser does not succeed, or with a value that consumes nothing. -/
def Exhausts (f : Nat → Except Fault (Result α)) (i m : Nat) : Prop :=
  ¬Succeeded (attempt f i m) ∧ (∀ k < m, cursor f i (k + 1) ≠ cursor f i k) ∨
    ∃ k, m = k + 1 ∧ cursor f i (k + 1) = cursor f i k

section

variable {b : Bounds} (hopen : b.max = unbounded) (hm : Lasts (guarded label g f) (cursor f i b.min) m)
variable (hend : Exhausts (guarded label g f) (cursor f i b.min) m)
include hopen hm hend

/-- Where guarded attempts end at a stop, the repetition stops after the values needed and theirs. -/
theorem stops_of_guarded {size : Nat} (hf : Advances size f) (hi : i ≤ size) (hsize : size < unbounded)
    (hfirst : Lasts f i b.min) (hs : Succeeded (g (cursor (guarded label g f) (cursor f i b.min) m))) :
    Stops f g i b (b.min + m) := by
  have hcursor (k : Nat) (hk : k ≤ m) : cursor f i (b.min + k) = cursor (guarded label g f) (cursor f i b.min) k := by
    rw [cursor_add, cursor_congr (agree_of_guarded hm) k hk]
  refine ⟨lasts_add.2 ⟨hfirst, fun k hk => ?_⟩, ?_, fun k hmin hk => ?_, .inr ⟨Nat.le_add_right _ _, ?_⟩⟩
  · rw [attempt_congr (agree_of_guarded hm) hk]
    exact hm k hk
  · rcases hend with ⟨-, hmoves⟩ | ⟨k, rfl, hidle⟩
    · rcases m with _ | m
      · exact b.min_le_max
      have hmoved : cursor f i (b.min + m + 1) ≠ cursor f i (b.min + m) := by
        rw [Nat.add_assoc, hcursor (m + 1) le_rfl, hcursor m (Nat.le_succ m)]
        exact hmoves m (Nat.lt_succ_self m)
      have := add_le_cursor hf hi hmoved
      have := cursor_le hf hi (b.min + m + 1)
      omega
    · rw [hidle] at hs
      exact absurd hs (failed_of_guarded (hm k (Nat.lt_succ_self k))).not_succeeded
  · obtain ⟨k, rfl⟩ := Nat.exists_eq_add_of_le hmin
    rw [Nat.add_lt_add_iff_left] at hk
    rw [hcursor k hk.le]
    exact failed_of_guarded (hm k hk)
  · rwa [hcursor m le_rfl]

/-- Where guarded attempts end without a stop, there is none. -/
theorem never_stops_of_guarded (hs : Failed (g (cursor (guarded label g f) (cursor f i b.min) m))) (n : Nat) :
    ¬Stops f g i b n := fun hn => by
  obtain ⟨hmin, hfound⟩ := hn.ends.resolve_left fun h => h.1 hopen
  obtain ⟨k, rfl⟩ := Nat.exists_eq_add_of_le hmin
  have hagree (j : Nat) (hj : j < k) : guarded label g f (cursor f (cursor f i b.min) j) =
      f (cursor f (cursor f i b.min) j) := by
    rw [← cursor_add]
    exact guarded_of_failed (hn.unstopped _ (Nat.le_add_right _ _) (Nat.add_lt_add_left hj _))
  rw [cursor_add, ← cursor_congr hagree k le_rfl] at hfound
  rcases Nat.lt_trichotomy k m with hlt | rfl | hlt
  · exact (failed_of_guarded (hm k hlt)).not_succeeded hfound
  · exact hs.not_succeeded hfound
  · rcases hend with ⟨hlast, -⟩ | ⟨j, rfl, hidle⟩
    · rw [attempt_congr hagree hlt] at hlast
      exact hlast ((lasts_add.1 hn.lasts).2 m hlt)
    · rw [cursor_eq_of_idle hidle (Nat.le_of_succ_le hlt.le)] at hfound
      exact (failed_of_guarded (hm j (Nat.lt_succ_self j))).not_succeeded hfound

end

end Chain

/-! ## Repetitions that decide -/

namespace Parser

open Chain

variable {p : Parser σ ι α} {stop : Parser σ ι β} {xs : List ι} {steady : Env σ → Prop}
variable {f : Nat → Except Fault (Result α)} {g : Nat → Except Fault (Result β)} {i : Nat}

theorem Answers.decides {o : Result α} (hp : p.Answers xs steady f) (hf : Advances xs.length f) (hi : i ≤ xs.length)
    (h : f i = .ok o) : (p xs i).Decides steady o.decision := by
  refine ⟨o, h ▸ hp.makes (fun _ => []) i, rfl, fun hd => ?_⟩
  cases o with
  | success v n r => cases hd
  | failure c r => exact hf.engaged hi h

/-- A parser after one that should fail makes the attempts that are not guarded off. -/
theorem Answers.guarded (hp : p.Answers xs steady f) (hstop : stop.Answers xs steady g) (label : Bytes)
    (calls : Nat → List Call) :
    ((stop.shouldFail label).andThen p).Makes (fun _ => steady) xs (guarded label g f) calls := fun i => by
  have hlooked : (stop xs i).Makes (fun _ => steady) (g i) [] := hstop.makes (fun _ => []) i
  suffices h : ((stop.shouldFail label).andThen p xs i).Makes (fun _ => steady) (Chain.guarded label g f i) [] from h
  rw [Chain.guarded]
  rcases hg : g i with cause | ⟨w, m, r⟩ | ⟨c, r⟩ <;> rw [hg] at hlooked
  · exact (hlooked.bind_error _).bind_error _
  · have hfailed : (stop.shouldFail label xs i).Makes (fun _ => steady) (.ok (.fail i (.singleton label))) [] :=
      hlooked.bind_quiet (.pure _)
    exact hfailed.bind_quiet (.ofExcept _)
  · have hfailed : (stop.shouldFail label xs i).Makes (fun _ => steady) (.ok (.success () i ∅)) [] :=
      hlooked.bind_quiet (.pure _)
    have hone := (hp.makes (fun _ => []) i).map (Result.aggregate ∅)
    have hsame : (f i).map (Result.aggregate ∅) = f i := by
      rcases f i with cause | o
      · rfl
      · exact congrArg Except.ok (Result.aggregate_empty o)
    rw [hsame] at hone
    exact hfailed.bind_quiet hone

namespace Makes

variable (hp : p.Makes (fun _ => steady) xs f fun i => [call f i]) (hf : Advances xs.length f)
variable (hfo : ∀ j ≤ xs.length, ∃ o, f j = .ok o) (hi : i ≤ xs.length)
include hp hf hfo hi

/-- A number of values is found, or there are not so many. -/
theorem times_exactly_decides (t : Nat) :
    (Lasts f i t ∧ (p.times (.exactly t) xs i).Decides steady (some (values f i t, cursor f i t))) ∨
      ¬Lasts f i t ∧ (p.times (.exactly t) xs i).Decides steady none := by
  obtain ⟨n, collected, tried, e, hgo, hends, hmakes⟩ := hp.exists_timesEnds hf hi (Bounds.exactly t).isOpen t t ∅
  cases hends with
  | full h r =>
    subst h
    exact .inl ⟨fun k hk => (hgo k hk).succeeds, .success hmakes⟩
  | gaveUp h =>
    obtain ⟨o, ho⟩ := hfo _ (cursor_le hf hi n)
    cases h.symm.trans ho
  | failed h hn c' hr => exact .inr ⟨fun hl => not_succeeded_of_failure h (hl n hn), .failure hmakes hr⟩
  | absorbed h hmax hn r => omega
  | idle ho hmax h hidle hn r =>
    obtain rfl : n + 1 = t := by omega
    refine .inl ⟨fun k hk => ?_, .success hmakes⟩
    rcases Nat.lt_succ_iff_lt_or_eq.1 hk with hlt | rfl
    · exact (hgo k hlt).succeeds
    · exact h

theorem many_decides (hxs : xs.length < unbounded) :
    ∃ m, Lasts f i m ∧ Exhausts f i m ∧ (p.many xs i).Decides steady (some (values f i m, cursor f i m)) := by
  obtain ⟨n, collected, tried, e, hgo, hends, hmakes⟩ := hp.exists_timesEnds hf hi true unbounded 0 ∅
  have hlasts : Lasts f i n := fun k hk => (hgo k hk).succeeds
  have hmoves (k : Nat) (hk : k < n) : cursor f i (k + 1) ≠ cursor f i k := (hgo k hk).moves rfl (Nat.zero_le _)
  cases hends with
  | full h r =>
    obtain ⟨k, rfl⟩ : ∃ k, n = k + 1 := ⟨unbounded - 1, h⟩
    have := add_le_cursor hf hi (hmoves k (Nat.lt_succ_self k))
    have := cursor_le hf hi (k + 1)
    omega
  | gaveUp h =>
    obtain ⟨o, ho⟩ := hfo _ (cursor_le hf hi n)
    cases h.symm.trans ho
  | failed h hn c' hr => exact absurd hn (Nat.not_lt_zero n)
  | absorbed h hmax hn r =>
    exact ⟨n, hlasts, .inl ⟨not_succeeded_of_failure h, hmoves⟩, .success hmakes⟩
  | idle ho hmax h hidle hn r =>
    refine ⟨n + 1, fun k hk => ?_, .inr ⟨n, rfl, hidle⟩, .success hmakes⟩
    rcases Nat.lt_succ_iff_lt_or_eq.1 hk with hlt | rfl
    · exact hlasts k hlt
    · exact h

end Makes

namespace Answers

variable (hp : p.Answers xs steady f) (hstop : stop.Answers xs steady g)
variable (hf : Advances xs.length f) (hg : Advances xs.length g)
variable (hfo : ∀ j ≤ xs.length, ∃ o, f j = .ok o) (hgo : ∀ j ≤ xs.length, ∃ o, g j = .ok o)
variable (hxs : xs.length < unbounded) (hi : i ≤ xs.length)
include hp hstop hf hg hfo hgo hxs hi

/-- A repetition decides where it is specified to stop. -/
theorem manyUntil_decides (b : Bounds) :
    ∃ d, Decision f g i b d ∧ (p.manyUntil stop b xs i).Decides steady d := by
  obtain ⟨n, collected, tried, e, hproceeds, hends, hmakes⟩ :=
    (hp.makes fun i => [call f i]).exists_untilEnds (hstop.makes fun _ => []) hf hg hi b.isOpen b.max b.min ∅
  obtain ⟨o, rfl, hd, hr⟩ := hends.decision hproceeds hf hi hxs hfo hgo
  exact ⟨_, hd, o, hmakes, rfl, hr⟩

/-- So does a repetition of as many values as are needed, and then of any values that the other parser does not
precede, up to where it succeeds. -/
theorem guarded_decides {b : Bounds} (hopen : b.max = unbounded) (label : Bytes) :
    ∃ d, Decision f g i b d ∧ (combine₂ (· ++ ·) (p.times (.exactly b.min))
      (((stop.shouldFail label).andThen p).many.skip stop.peek) xs i).Decides steady d := by
  rcases (hp.makes fun i => [call f i]).times_exactly_decides hf hfo hi b.min with ⟨hfirst, htimes⟩ | ⟨hfew, htimes⟩
  swap
  · refine ⟨none, .inr ⟨fun n hs => hfew fun k hk => hs.lasts k ?_, rfl⟩, (htimes.pair_none _).map _⟩
    rcases hs.ends with ⟨hmax, -⟩ | ⟨hmin, -⟩
    · exact absurd hopen hmax
    · omega
  have hguarded : ((stop.shouldFail label).andThen p).Makes (fun _ => steady) xs (Chain.guarded label g f) _ :=
    hp.guarded hstop label fun i => [call (Chain.guarded label g f) i]
  have hguardedo (j : Nat) (hj : j ≤ xs.length) : ∃ o, Chain.guarded label g f j = .ok o := by
    obtain ⟨⟨v, n, r⟩ | ⟨c, r⟩, ho⟩ := hgo j hj
    · exact ⟨_, guarded_of_succeeded ⟨v, n, r, ho⟩⟩
    · rw [guarded_of_failed ⟨c, r, ho⟩]
      exact hfo j hj
  have hadvances : Advances xs.length (Chain.guarded label g f) := hf.guarded
  have hc := cursor_le hf hi b.min
  obtain ⟨m, hm, hend, hmany⟩ := hguarded.many_decides hadvances hguardedo hc hxs
  have hreached := cursor_le hadvances hc m
  obtain ⟨o, ho⟩ := hgo _ hreached
  refine ⟨_, ?_, (htimes.pair (hmany.skip (hstop.decides hg hreached ho).peek)).map _⟩
  cases o with
  | success w n r =>
    refine .inl ⟨b.min + m, stops_of_guarded hopen hm hend hf hi hxs hfirst ⟨w, n, r, ho⟩, ?_⟩
    rw [values_add, cursor_add, cursor_congr (agree_of_guarded hm) m le_rfl, values_congr (agree_of_guarded hm)]
    rfl
  | failure c r => exact .inr ⟨never_stops_of_guarded hopen hm hend ⟨c, r, ho⟩, rfl⟩

end Answers

end Parser

/-! ## Main statement -/

open Chain in
/-- A repetition that looks for its end is what `Chain.Stops` specifies, where parsers are not given up: it succeeds
with the first values of the chain, up to where they end, exactly if it stops after them, it stops after one number
of values only, and it fails if it never stops. With no greatest count it decides what is decided by as many values
as are needed and then any values that the other parser does not precede, up to where the other parser succeeds. -/
theorem manyUntil_iff_stops {p : Parser σ ι α} {stop : Parser σ ι β} {xs : List ι} {steady : Env σ → Prop}
    {f : Nat → Except Fault (Result α)} {g : Nat → Except Fault (Result β)} (hp : p.Answers xs steady f)
    (hstop : stop.Answers xs steady g) (hf : Advances xs.length f) (hg : Advances xs.length g)
    (hfo : ∀ j ≤ xs.length, ∃ o, f j = .ok o) (hgo : ∀ j ≤ xs.length, ∃ o, g j = .ok o)
    (hxs : xs.length < unbounded) (b : Bounds) {i : Nat} (hi : i ≤ xs.length) {env : Env σ} (henv : steady env) :
    let ended := (p.manyUntil stop b xs i).outcome env
    (∀ n, (values f i n).length = n ∧ (∃ r, ended = .ok (.success (values f i n) (cursor f i n) r)) ↔
      Stops f g i b n) ∧
    (∀ n m, Stops f g i b n → Stops f g i b m → n = m) ∧
    ((∀ n, ¬Stops f g i b n) → ∃ c r, ended = .ok (.failure c r)) ∧
    (b.max = unbounded → ∀ label, ended.map Result.decision =
      ((Parser.combine₂ (· ++ ·) (p.times (.exactly b.min))
        (((stop.shouldFail label).andThen p).many.skip stop.peek) xs i).outcome env).map Result.decision) := by
  intro ended
  obtain ⟨d, hd, hdecides⟩ := hp.manyUntil_decides hstop hf hg hfo hgo hxs hi b
  have hended : ended.map Result.decision = .ok d := hdecides.map_decision henv
  refine ⟨fun n => ⟨?_, fun hn => ⟨length_values hn.lasts, ?_⟩⟩, fun n m hn hm => hn.unique hm, fun hnever => ?_,
    fun hopen label => ?_⟩
  · rintro ⟨hlength, r, hsuccess⟩
    rw [hsuccess] at hended
    obtain rfl : some (values f i n, cursor f i n) = d := Except.ok.inj hended
    rcases hd with ⟨m, hm, he⟩ | ⟨-, he⟩
    · have hvalues : values f i n = values f i m := congrArg Prod.fst (Option.some.inj he)
      rw [hvalues, length_values hm.lasts] at hlength
      exact hlength ▸ hm
    · cases he
  · obtain rfl := hd.unique (.inl ⟨n, hn, rfl⟩)
    obtain ⟨r, hr⟩ := hdecides.exists_success
    exact ⟨r, (hr [] env henv).1⟩
  · obtain rfl := hd.unique (.inr ⟨hnever, rfl⟩)
    obtain ⟨c, r, hr, -⟩ := hdecides.exists_failure
    exact ⟨c, r, (hr [] env henv).1⟩
  · obtain ⟨d', hd', hguarded⟩ := hp.guarded_decides hstop hf hg hfo hgo hxs hi hopen label
    rw [hended, hguarded.map_decision henv, hd.unique hd']

open Chain in
/-- Two items at least, and all items before a full stop: the one that begins the input is taken. -/
theorem manyUntil_iff_stops_of_text :
    let item : Combination Unit UInt8 UInt8 := .primitive (.satisfy .any)
    let stop : Combination Unit UInt8 UInt8 := .primitive (.satisfy (.only 46 (ascii ".")))
    let b : Bounds := ⟨2, unbounded, by decide⟩
    let xs : Bytes := [46, 97, 98, 46, 99]
    let env : Env Unit := ⟨.ofLevel .off, ()⟩
    let f i := (item.parser xs i).outcome env
    let g i := (stop.parser xs i).outcome env
    item.parser.Answers xs (fun _ => True) f ∧ stop.parser.Answers xs (fun _ => True) g ∧ Advances xs.length f ∧
      Advances xs.length g ∧ (∀ j ≤ xs.length, ∃ o, f j = .ok o) ∧ (∀ j ≤ xs.length, ∃ o, g j = .ok o) ∧
      xs.length < unbounded ∧ Stops f g 0 b 3 ∧
      ((Parser.combine₂ (· ++ ·) (item.parser.times (.exactly 2))
        (((stop.parser.shouldFail (ascii "text")).andThen item.parser).many.skip stop.parser.peek) xs 0).outcome
          env).map Result.decision = .ok (some ([46, 97, 98], 3)) := by
  intro item stop b xs env f g
  have finds (e : Combination Unit UInt8 UInt8) (he : ∀ {F : {γ : Type} → Run Unit γ → Prop}, e.Finds F) :
      e.parser.Answers xs (fun _ => True) fun i => (e.parser xs i).outcome env :=
    Combination.answers (fun _ _ _ _ _ => ⟨rfl, trivial, trivial⟩) he trivial xs
  have hp : item.parser.Answers xs (fun _ => True) f := finds item trivial
  have hstop : stop.parser.Answers xs (fun _ => True) g := finds stop trivial
  have hf : Advances xs.length f := item.advances xs env
  have hg : Advances xs.length g := stop.advances xs env
  have hfo : ∀ j ≤ xs.length, ∃ o, f j = .ok o := fun j _ => ⟨_, rfl⟩
  have hgo : ∀ j ≤ xs.length, ∃ o, g j = .ok o := fun j _ => ⟨_, rfl⟩
  have hxs : xs.length < unbounded := by decide
  obtain ⟨hstops, -, -, hlookahead⟩ := manyUntil_iff_stops hp hstop hf hg hfo hgo hxs b (Nat.zero_le 5) trivial
  have hrun : (item.parser.manyUntil stop.parser b xs 0).outcome env =
      .ok (.success [46, 97, 98] 3 (.raised 2 (.singleton (ascii ".")))) := by decide
  refine ⟨hp, hstop, hf, hg, hfo, hgo, hxs, (hstops 3).1 ⟨rfl, _, hrun⟩, ?_⟩
  rw [← hlookahead rfl (ascii "text"), hrun]
  rfl

end Furthest
