import Mathlib.Data.ENat.Lattice
import Furthest.Proofs.Congruence
import Furthest.Proofs.CursorBounds

/-!
# Repetition as a chain of attempts

Over the input at hand, a parser answers a cursor with an outcome: `Parser.Answers`. The cursors that follow one another
from success to success make a chain, and `Chain` has its attempts, their values and the records that they gather.
Repetition makes attempts along the chain. It ends after `n` values without another attempt where these are all that may
come, or where there is no greatest count and the last one consumed nothing (`Chain.Full`); else it ends with an attempt
that does not succeed.

Main statement: `times_eq_chain`, which says how many values a repetition takes and how it ends.
-/

namespace Furthest

variable {σ ι α β : Type}

/-! ## Chains -/

namespace Chain

/-- The cursor after an outcome at a cursor: where the consumed input ends, or the same cursor. -/
def next : Except Fault (Result α) → Nat → Nat
  | .ok (.success _ n _), _ => n
  | _, i => i

/-- The value of an outcome. -/
def value? : Except Fault (Result α) → Option α
  | .ok o => o.value?
  | .error _ => none

/-- The record of an outcome. -/
def record : Except Fault (Result α) → Record
  | .ok o => o.furthest
  | .error _ => ∅

/-- The outcome is a success. -/
def Succeeded (o : Except Fault (Result α)) : Prop := ∃ v n r, o = .ok (.success v n r)

section

variable (f : Nat → Except Fault (Result α)) (i : Nat)

/-- The cursor of an attempt: the first is made at `i`, and each other one where the one before it ended. -/
def cursor (k : Nat) : Nat := (fun c => next (f c) c)^[k] i

def attempt (k : Nat) : Except Fault (Result α) := f (cursor f i k)

/-- The first `n` attempts succeed. -/
def Lasts (n : Nat) : Prop := ∀ k < n, Succeeded (attempt f i k)

/-- The values of the first `n` attempts. -/
def values (n : Nat) : List α := (List.range n).filterMap fun k => value? (attempt f i k)

/-- The records of the first `t` attempts, each of which takes in what was seen before it. -/
def gathered (seen : Record) (t : Nat) : Record :=
  ((List.range t).map fun k => record (attempt f i k)).foldl (fun seen r => r.merge seen) seen

/-- The last of `n` values consumed nothing, and no more are needed. -/
def Idle (needed n : Nat) : Prop := max needed 1 ≤ n ∧ cursor f i n = cursor f i (n - 1)

/-- No attempt is made after `n` values: no more may come, or no greatest count ends the repetition of a match that
consumes nothing. -/
def Full (isOpen : Bool) (max needed n : Nat) : Prop := n = max ∨ isOpen ∧ Idle f i needed n

end

variable {f : Nat → Except Fault (Result α)} {i : Nat}

theorem cursor_succ (k : Nat) : cursor f i (k + 1) = next (attempt f i k) (cursor f i k) :=
  Function.iterate_succ_apply' ..

theorem gathered_succ (seen : Record) (t : Nat) :
    gathered f i seen (t + 1) = (record (attempt f i t)).merge (gathered f i seen t) := by
  simp [gathered, List.range_succ]

/-! ### The chain after its first attempt -/

section

variable {v : α} {m : Nat} {g : Record} (h : f i = .ok (.success v m g))
include h

theorem cursor_of_success (k : Nat) : cursor f i (k + 1) = cursor f m k := by
  rw [cursor, Function.iterate_succ_apply, h]
  rfl

theorem attempt_of_success (k : Nat) : attempt f i (k + 1) = attempt f m k :=
  congrArg f (cursor_of_success h k)

theorem lasts_of_success {n : Nat} (hl : Lasts f i (n + 1)) : Lasts f m n := fun k hk =>
  attempt_of_success h k ▸ hl (k + 1) (Nat.succ_lt_succ hk)

theorem values_of_success (n : Nat) : values f i (n + 1) = v :: values f m n := by
  have hfirst : value? (attempt f i 0) = some v := congrArg value? h
  simp only [values, List.range_succ_eq_map, List.filterMap_cons, hfirst, List.filterMap_map]
  exact congrArg _ (congrArg₂ _ (funext fun k => congrArg value? (attempt_of_success h k)) rfl)

theorem gathered_of_success (seen : Record) (t : Nat) :
    gathered f i seen (t + 1) = gathered f m (g.merge seen) t := by
  have hfirst : record (attempt f i 0) = g := congrArg record h
  simp only [gathered, List.range_succ_eq_map, List.map_cons, hfirst, List.foldl_cons, List.map_map]
  exact congrArg _ (congrArg₂ _ (funext fun k => congrArg record (attempt_of_success h k)) rfl)

/-- Where the first value does not end the repetition, the others end it as they would alone. -/
theorem full_of_success {isOpen : Bool} {max needed n : Nat} (hfirst : ¬(m = i ∧ isOpen ∧ needed ≤ 1)) :
    Full f i isOpen (max + 1) needed (n + 1) ↔ Full f m isOpen max (needed - 1) n := by
  have hidle : isOpen ∧ Idle f i needed (n + 1) ↔ isOpen ∧ Idle f m (needed - 1) n := by
    rcases n with _ | n
    · have hcursor : cursor f i 1 = m := cursor_of_success h 0
      have hstart : cursor f i 0 = i := rfl
      simp only [Idle, hcursor, hstart, Nat.reduceAdd, Nat.sub_self]
      constructor
      · rintro ⟨ho, hn, hm⟩
        exact absurd ⟨hm, ho, by omega⟩ hfirst
      · rintro ⟨-, hn, -⟩
        omega
    · simp only [Idle, cursor_of_success h, Nat.add_sub_cancel]
      refine and_congr_right fun _ => and_congr_left fun _ => ?_
      omega
  rw [Full, Full, hidle, Nat.add_right_cancel_iff]

end

/-- Every success has a value. -/
theorem length_values {n : Nat} (hl : Lasts f i n) : (values f i n).length = n := by
  induction n generalizing i with
  | zero => rfl
  | succ n ih =>
    obtain ⟨v, m, g, h⟩ := hl 0 (Nat.succ_pos n)
    have h : f i = .ok (.success v m g) := h
    rw [values_of_success h, List.length_cons, ih (lasts_of_success h hl)]

/-! ### Chains within an input -/

/-- Within an input of some size, successes move the cursor forward, if at all, and failures have an index. -/
structure Advances (size : Nat) (f : Nat → Except Fault (Result α)) : Prop where
  within {i n : Nat} {v : α} {r : Record} : i ≤ size → f i = .ok (.success v n r) → i ≤ n ∧ n ≤ size
  engaged {i c : Nat} {r : Record} : i ≤ size → f i = .ok (.failure c r) → r.isEngaged

theorem cursor_within {size : Nat} (hf : Advances size f) (hi : i ≤ size) (k : Nat) :
    cursor f i k ≤ cursor f i (k + 1) ∧ cursor f i (k + 1) ≤ size := by
  have step {c : Nat} (hc : c ≤ size) : c ≤ next (f c) c ∧ next (f c) c ≤ size := by
    rcases ho : f c with cause | ⟨v, n, r⟩ | ⟨c', r⟩
    · exact ⟨Nat.le_refl c, hc⟩
    · exact hf.within hc ho
    · exact ⟨Nat.le_refl c, hc⟩
  induction k with
  | zero => exact step hi
  | succ k ih =>
    rw [cursor_succ (k + 1)]
    exact step ih.2

theorem cursor_le {size : Nat} (hf : Advances size f) (hi : i ≤ size) : ∀ k, cursor f i k ≤ size
  | 0 => hi
  | k + 1 => (cursor_within hf hi k).2

/-- Where an attempt left the cursor where it was, so do all later ones: they are the same attempt. -/
theorem cursor_eq_of_idle {j k : Nat} (h : cursor f i (j + 1) = cursor f i j) (hk : j ≤ k) :
    cursor f i k = cursor f i j := by
  induction hk with
  | refl => rfl
  | @step k hk ih =>
    rw [cursor_succ]
    show next (f (cursor f i k)) (cursor f i k) = _
    rw [ih]
    exact (cursor_succ j).symm.trans h

/-- Where the last of some attempts moved the cursor, so did each of them. -/
theorem add_le_cursor {size : Nat} (hf : Advances size f) (hi : i ≤ size) {n : Nat}
    (h : cursor f i (n + 1) ≠ cursor f i n) : i + (n + 1) ≤ cursor f i (n + 1) := by
  have moved (j : Nat) (hj : j ≤ n) : cursor f i j < cursor f i (j + 1) :=
    Nat.lt_of_le_of_ne (cursor_within hf hi j).1 fun he => h <| by
      rw [cursor_eq_of_idle he.symm (Nat.le_succ_of_le hj), cursor_eq_of_idle he.symm hj]
  have reached (j : Nat) (hj : j ≤ n + 1) : i + j ≤ cursor f i j := by
    induction j with
    | zero => exact Nat.le_refl i
    | succ j ih =>
      have := ih (by omega)
      have := moved j (by omega)
      omega
  exact reached (n + 1) (Nat.le_refl _)

/-- Where no greatest count is given, it is a match that consumes nothing that ends a repetition: an input is shorter
than the greatest count there is. -/
theorem idle_of_full {size : Nat} (hf : Advances size f) (hi : i ≤ size) (hsize : size < unbounded) {needed n : Nat}
    (hneeded : needed ≤ unbounded) (h : Full f i true unbounded needed n) : Idle f i needed n := by
  rcases h with rfl | ⟨-, h⟩
  · refine ⟨Nat.max_le.2 ⟨hneeded, by decide⟩, by_contra fun hne => ?_⟩
    have hreached := add_le_cursor hf hi (n := unbounded - 1) hne
    have hle := cursor_le hf hi (unbounded - 1 + 1)
    have : unbounded - 1 + 1 = unbounded := rfl
    omega
  · exact h

/-- Parsers succeed a number of times one after the other, or without end. -/
theorem exists_lasts_iff (f : Nat → Except Fault (Result α)) (i : Nat) :
    ∃ m : ℕ∞, ∀ k : ℕ, Lasts f i k ↔ k ≤ m := by
  classical
  by_cases h : ∃ k, ¬Succeeded (attempt f i k)
  · refine ⟨(Nat.find h : ℕ), fun k => ?_⟩
    rw [Nat.cast_le]
    exact ⟨fun hl => Nat.le_of_not_lt fun hlt => Nat.find_spec h (hl _ hlt),
      fun hk j hj => not_not.1 (Nat.find_min h (Nat.lt_of_lt_of_le hj hk))⟩
  · exact ⟨⊤, fun k => iff_of_true (fun j _ => not_not.1 (not_exists.1 h j)) le_top⟩

end Chain

/-! ## Repetition along a chain -/

/-- In steady environments, the parser ends at every cursor of the input as a function of the cursor tells, and leaves
the environment steady. -/
structure Parser.Answers (p : Parser σ ι α) (xs : List ι) (steady : Env σ → Prop)
    (f : Nat → Except Fault (Result α)) : Prop where
  outcome {env : Env σ} (h : steady env) (i : Nat) : (p xs i).outcome env = f i
  steady_after {env : Env σ} (h : steady env) (i : Nat) : steady ((p xs i).execute env).2

namespace Parser.Answers

open Chain

variable {p : Parser σ ι α} {xs : List ι} {steady : Env σ → Prop} {f : Nat → Except Fault (Result α)} {i : Nat}
variable {env : Env σ} {isOpen : Bool} {max needed n : Nat} {seen : Record}

theorem outcome_bind_error (hp : p.Answers xs steady f) (henv : steady env) {cause : Fault} (h : f i = .error cause)
    (go : Result α → Run σ β) : (p xs i >>= go).outcome env = .error cause := by
  have hrun := hp.outcome henv i
  rw [Run.outcome] at hrun
  rw [Run.outcome, Run.execute_bind]
  generalize (p xs i).execute env = ran at hrun ⊢
  obtain ⟨ended, after⟩ := ran
  subst hrun
  rw [h]

/-- What follows an attempt goes on in a steady environment. -/
theorem outcome_bind (hp : p.Answers xs steady f) (henv : steady env) {o : Result α} (h : f i = .ok o) :
    ∃ after, steady after ∧ ∀ {β : Type} (go : Result α → Run σ β),
      (p xs i >>= go).outcome env = (go o).outcome after := by
  have hrun := hp.outcome henv i
  refine ⟨((p xs i).execute env).2, hp.steady_after henv i, fun go => ?_⟩
  rw [Run.outcome] at hrun
  rw [Run.outcome, Run.execute_bind]
  generalize (p xs i).execute env = ran at hrun ⊢
  obtain ⟨ended, after⟩ := ran
  subst hrun
  rw [h]
  rfl

/-- After a success that does not end the repetition, its value comes before the others. -/
theorem timesFrom_next (hp : p.Answers xs steady f) (henv : steady env) {v : α} {m : Nat} {g : Record}
    (h : f i = .ok (.success v m g)) (hfirst : ¬(m = i ∧ isOpen ∧ needed ≤ 1)) (max : Nat) (seen : Record) :
    ∃ after, steady after ∧ (p.timesFrom isOpen xs (max + 1) needed i seen).outcome env =
      ((p.timesFrom isOpen xs max (needed - 1) m (g.merge seen)).outcome after).map (Result.map (v :: ·)) := by
  obtain ⟨after, hafter, hrun⟩ := hp.outcome_bind henv h
  refine ⟨after, hafter, ?_⟩
  rw [timesFrom, hrun]
  simp only [Result.aggregate, if_neg hfirst]
  exact Run.outcome_bind_pure ..

/-- The first count at which no attempt is made is where a repetition ends. -/
theorem timesFrom_of_full (hp : p.Answers xs steady f) (henv : steady env) (hl : Lasts f i n)
    (hfull : Full f i isOpen max needed n) (hbefore : ∀ j < n, ¬Full f i isOpen max needed j) :
    (p.timesFrom isOpen xs max needed i seen).outcome env =
      .ok (.success (values f i n) (cursor f i n) (gathered f i seen n)) := by
  induction n generalizing i max needed env seen with
  | zero =>
    obtain rfl : 0 = max := hfull.resolve_right fun ⟨_, hn, _⟩ => by omega
    rfl
  | succ n ih =>
    obtain ⟨v, m, g, h⟩ := hl 0 (Nat.succ_pos n)
    have h : f i = .ok (.success v m g) := h
    obtain ⟨max, rfl⟩ : ∃ k, max = k + 1 := Nat.exists_eq_succ_of_ne_zero fun hmax =>
      hbefore 0 (Nat.succ_pos n) (.inl hmax.symm)
    by_cases hfirst : m = i ∧ isOpen ∧ needed ≤ 1
    · obtain rfl : n = 0 := Nat.eq_zero_of_not_pos fun hn =>
        hbefore 1 (by omega) (.inr ⟨hfirst.2.1, by omega, (cursor_of_success h 0).trans hfirst.1⟩)
      obtain ⟨after, -, hrun⟩ := hp.outcome_bind henv h
      rw [timesFrom, hrun, values_of_success h, gathered_of_success h, cursor_of_success h]
      simp only [Result.aggregate, if_pos hfirst]
      rfl
    · obtain ⟨after, hafter, hrun⟩ := hp.timesFrom_next henv h hfirst max seen
      have hbefore' (j : Nat) (hj : j < n) : ¬Full f m isOpen max (needed - 1) j := fun hfull =>
        hbefore (j + 1) (Nat.succ_lt_succ hj) ((full_of_success h hfirst).2 hfull)
      rw [hrun, ih hafter (lasts_of_success h hl) ((full_of_success h hfirst).1 hfull) hbefore', values_of_success h,
        gathered_of_success h, cursor_of_success h]
      rfl

/-- An attempt that does not succeed ends a repetition: it gives it up, or is absorbed if no more values are needed. -/
theorem timesFrom_of_attempt (hp : p.Answers xs steady f) (henv : steady env) (hl : Lasts f i n)
    (hbefore : ∀ j ≤ n, ¬Full f i isOpen max needed j) :
    (∀ cause, attempt f i n = .error cause →
      (p.timesFrom isOpen xs max needed i seen).outcome env = .error cause) ∧
    ∀ c g, attempt f i n = .ok (.failure c g) → (p.timesFrom isOpen xs max needed i seen).outcome env =
      if needed ≤ n then .ok (.success (values f i n) (cursor f i n) (gathered f i seen (n + 1)))
      else Result.ofRecord (gathered f i seen (n + 1)) := by
  induction n generalizing i max needed env seen with
  | zero =>
    obtain ⟨max, rfl⟩ : ∃ k, max = k + 1 := Nat.exists_eq_succ_of_ne_zero fun hmax =>
      hbefore 0 (Nat.le_refl 0) (.inl hmax.symm)
    refine ⟨fun cause h => hp.outcome_bind_error henv h _, fun c g h => ?_⟩
    have h : f i = .ok (.failure c g) := h
    obtain ⟨after, -, hrun⟩ := hp.outcome_bind henv h
    have hgathered : gathered f i seen 1 = g.merge seen := by
      simp [gathered, attempt, cursor, h, record, Result.furthest]
    rw [timesFrom, hrun, hgathered]
    simp only [Result.aggregate, Nat.le_zero_eq]
    split <;> rfl
  | succ n ih =>
    obtain ⟨v, m, g, h⟩ := hl 0 (Nat.succ_pos n)
    have h : f i = .ok (.success v m g) := h
    obtain ⟨max, rfl⟩ : ∃ k, max = k + 1 := Nat.exists_eq_succ_of_ne_zero fun hmax =>
      hbefore 0 (Nat.zero_le _) (.inl hmax.symm)
    have hfirst : ¬(m = i ∧ isOpen ∧ needed ≤ 1) := fun hfirst =>
      hbefore 1 (by omega) (.inr ⟨hfirst.2.1, by omega, (cursor_of_success h 0).trans hfirst.1⟩)
    obtain ⟨after, hafter, hrun⟩ := hp.timesFrom_next henv h hfirst max seen
    obtain ⟨herror, hfailed⟩ := ih hafter (lasts_of_success h hl) fun j hj hfull =>
      hbefore (j + 1) (Nat.succ_le_succ hj) ((full_of_success h hfirst).2 hfull)
    rw [hrun, attempt_of_success h, values_of_success h, gathered_of_success h, cursor_of_success h]
    refine ⟨fun cause hcause => by rw [herror cause hcause]; rfl, fun c g' hg' => ?_⟩
    rw [hfailed c g' hg']
    by_cases hn : needed ≤ n + 1
    · rw [if_pos hn, if_pos (by omega)]
      rfl
    · rw [if_neg hn, if_neg (by omega)]
      unfold Result.ofRecord
      split <;> rfl

end Parser.Answers

namespace Chain

/-- How many values a repetition takes where the parser succeeds `m` times one after the other: as many as there are up
to the greatest count, or, where that is unbounded, the least number of which the last consumes nothing, if there is
one, and all there are otherwise. -/
structure Takes (f : Nat → Except Fault (Result α)) (i : Nat) (b : Bounds) (m : ℕ∞) (n : ℕ) : Prop where
  limited : b.max ≠ unbounded → n = min m b.max
  unlimited : b.max = unbounded →
    IsLeast {n : ℕ | n ≤ m ∧ Idle f i b.min n} n ∨ (∀ j : ℕ, j ≤ m → ¬Idle f i b.min j) ∧ n = m

variable {f : Nat → Except Fault (Result α)} {i : Nat} {m : ℕ∞}

/-- The attempt after the last success does not succeed. -/
theorem not_succeeded (hm : ∀ k : ℕ, Lasts f i k ↔ k ≤ m) {k : ℕ} (hk : m = k) : ¬Succeeded (attempt f i k) := by
  intro h
  have hl : Lasts f i (k + 1) := fun j hj =>
    (Nat.lt_succ_iff_lt_or_eq.1 hj).elim ((hm k).2 hk.ge j) fun hj => hj ▸ h
  have hle := (hm (k + 1)).1 hl
  rw [hk, Nat.cast_le] at hle
  omega

/-- Where a repetition is full with some values, these are as many as it takes. -/
theorem takes_of_full {size : Nat} (hf : Advances size f) (hi : i ≤ size) (hsize : size < unbounded) {b : Bounds}
    {n : ℕ} (hn : n ≤ m) (hfull : Full f i b.isOpen b.max b.min n)
    (hbefore : ∀ j < n, ¬Full f i b.isOpen b.max b.min j) : Takes f i b m n where
  limited hmax := by
    obtain rfl : n = b.max := hfull.resolve_right fun h => hmax (of_decide_eq_true h.1)
    exact (min_eq_right hn).symm
  unlimited hmax := by
    have hopen : b.isOpen = true := decide_eq_true hmax
    rw [hopen, hmax] at hfull
    refine .inl ⟨⟨hn, idle_of_full hf hi hsize (hmax ▸ b.min_le_max) hfull⟩, fun j hj => ?_⟩
    exact Nat.le_of_not_lt fun hlt => hbefore j hlt (.inr ⟨hopen, hj.2⟩)

/-- Where a repetition is full with none of the values that there are, it takes all of them. -/
theorem takes_of_not_full {b : Bounds} {n : ℕ} (hn : n = m)
    (hfull : ∀ j : ℕ, j ≤ m → ¬Full f i b.isOpen b.max b.min j) : Takes f i b m n where
  limited _ := by
    have hmax : m ≤ b.max := le_of_not_ge fun h => hfull b.max h (.inl rfl)
    rw [hn, min_eq_left hmax]
  unlimited hmax := .inr ⟨fun j hj hidle => hfull j hj (.inr ⟨decide_eq_true hmax, hidle⟩), hn⟩

end Chain

namespace Parser.Answers

open Chain

variable {p : Parser σ ι α} {xs : List ι} {steady : Env σ → Prop} {f : Nat → Except Fault (Result α)}
variable (hp : p.Answers xs steady f) (hf : Advances xs.length f) {i : Nat} (hi : i ≤ xs.length)
variable {env : Env σ} (henv : steady env) {m : ℕ∞} (hm : ∀ k : ℕ, Lasts f i k ↔ k ≤ m) {b : Bounds}
include hp hf hi henv hm

/-- With fewer successes than are needed, a repetition fails. -/
theorem times_of_lt (hlt : m < b.min) :
    ∃ k : ℕ, m = k ∧
      (∀ cause, attempt f i k = .error cause → (p.times b xs i).outcome env = .error cause) ∧
      ∀ o, attempt f i k = .ok o → ∃ c, (gathered f i ∅ (k + 1)).index = some c ∧
        (p.times b xs i).outcome env = .ok (.failure c (gathered f i ∅ (k + 1))) := by
  obtain ⟨k, rfl⟩ := ENat.ne_top_iff_exists.1 hlt.ne_top
  have hk : k < b.min := Nat.cast_lt.1 hlt
  have hbefore (j : ℕ) (hj : j ≤ k) : ¬Full f i b.isOpen b.max b.min j := by
    have := b.min_le_max
    rintro (hmax | ⟨-, hidle, -⟩) <;> omega
  obtain ⟨herror, hfailed⟩ := hp.timesFrom_of_attempt henv ((hm k).2 le_rfl) hbefore
  refine ⟨k, rfl, herror, fun o ho => ?_⟩
  cases o with
  | success v n r => exact absurd ⟨v, n, r, ho⟩ (not_succeeded hm rfl)
  | failure c r =>
    have hseen : (gathered f i ∅ (k + 1)).isEngaged := by
      rw [gathered_succ, ho]
      simp [record, Result.furthest, hf.engaged (cursor_le hf hi k) ho]
    obtain ⟨d, hd⟩ := Record.isEngaged_iff.1 hseen
    refine ⟨d, hd, (hfailed c r ho).trans ?_⟩
    rw [if_neg (Nat.not_le.2 hk)]
    exact Result.ofRecord_eq_ok_iff.2 ⟨d, hd, rfl⟩

/-- With as many successes as are needed, a repetition takes the values that are to be taken. -/
theorem times_of_le (hxs : xs.length < unbounded) (hle : b.min ≤ m) :
    ∃ n : ℕ, Takes f i b m n ∧
      (Full f i b.isOpen b.max b.min n →
        (p.times b xs i).outcome env = .ok (.success (values f i n) (cursor f i n) (gathered f i ∅ n))) ∧
      (¬Full f i b.isOpen b.max b.min n → n = m ∧
        (∀ cause, attempt f i n = .error cause → (p.times b xs i).outcome env = .error cause) ∧
        ∀ o, attempt f i n = .ok o → (p.times b xs i).outcome env =
          .ok (.success (values f i n) (cursor f i n) (gathered f i ∅ (n + 1)))) := by
  classical
  by_cases hfull : ∃ n : ℕ, n ≤ m ∧ Full f i b.isOpen b.max b.min n
  · obtain ⟨hn, hfulln⟩ := Nat.find_spec hfull
    have hbefore (j : ℕ) (hj : j < Nat.find hfull) : ¬Full f i b.isOpen b.max b.min j := fun h =>
      Nat.find_min hfull hj ⟨le_trans (Nat.cast_le.2 hj.le) hn, h⟩
    exact ⟨Nat.find hfull, takes_of_full hf hi hxs hn hfulln hbefore,
      fun _ => hp.timesFrom_of_full henv ((hm _).2 hn) hfulln hbefore, fun h => absurd hfulln h⟩
  · have hnever (j : ℕ) (hj : j ≤ m) : ¬Full f i b.isOpen b.max b.min j := fun h => hfull ⟨j, hj, h⟩
    have hlt : m < b.max := lt_of_not_ge fun h => hnever b.max h (.inl rfl)
    obtain ⟨k, rfl⟩ := ENat.ne_top_iff_exists.1 hlt.ne_top
    obtain ⟨herror, hfailed⟩ := hp.timesFrom_of_attempt henv ((hm k).2 le_rfl) fun j hj =>
      hnever j (Nat.cast_le.2 hj)
    refine ⟨k, takes_of_not_full rfl hnever, fun h => absurd h (hnever k le_rfl),
      fun _ => ⟨rfl, herror, fun o ho => ?_⟩⟩
    cases o with
    | success v n r => exact absurd ⟨v, n, r, ho⟩ (not_succeeded hm rfl)
    | failure c r => exact (hfailed c r ho).trans (if_pos (Nat.cast_le.1 hle))

end Parser.Answers

/-! ## The chains of parsers of the library -/

/-- Computations that end alike in steady environments and leave them steady. -/
def steadily (steady : Env σ → Prop) : Run.Congruence σ σ where
  holds x x' := ∀ env env', steady env → steady env' →
    (x.execute env).1 = (x'.execute env').1 ∧ steady (x.execute env).2 ∧ steady (x'.execute env').2
  ofExcept _ _ _ h h' := ⟨rfl, h, h'⟩
  bind hx hf env env' h h' := by
    obtain ⟨hended, hafter, hafter'⟩ := hx env env' h h'
    simp only [Run.execute_bind]
    generalize Run.execute _ env = ran at hended hafter ⊢
    generalize Run.execute _ env' = ran' at hended hafter' ⊢
    obtain ⟨ended, after⟩ := ran
    obtain ⟨ended', after'⟩ := ran'
    obtain rfl : ended = ended' := hended
    cases ended with
    | error cause => exact ⟨rfl, hafter, hafter'⟩
    | ok v => exact hf v after after' hafter hafter'

/-- A parser of the library answers at every cursor what it answers in one steady environment, if writing to the log
leaves environments steady and what it looks up is found alike in all of them. -/
theorem Combination.answers {steady : Env σ → Prop} {e : Combination σ ι α} (hrecords : (steadily steady).Records)
    (he : e.Finds fun found => (steadily steady).holds found found) {env : Env σ} (henv : steady env) (xs : List ι) :
    e.parser.Answers xs steady fun i => (e.parser xs i).outcome env where
  outcome h i := (Combination.carries hrecords he xs i _ _ h henv).1
  steady_after h i := (Combination.carries hrecords he xs i _ _ h henv).2.1

theorem Combination.advances (e : Combination σ ι α) (xs : List ι) (env : Env σ) :
    Chain.Advances xs.length fun i => (e.parser xs i).outcome env where
  within {i n v r} hi h := by
    have hwithin := e.ended_within hi env
    rw [h] at hwithin
    exact ⟨hwithin.1, hwithin.2.1⟩
  engaged {i c r} hi h := by
    have hwithin := e.ended_within hi env
    rw [h] at hwithin
    obtain ⟨k, hk, -⟩ := hwithin
    exact Record.isEngaged_iff.2 ⟨k, hk⟩

/-! ## Main statement -/

open Chain in
/-- Repetition follows the chain of attempts. Let the parser succeed `m` times one after the other, or without end. With
fewer successes than are needed, the repetition fails, having seen all attempts. Else it takes as many values as are to
be taken, and has seen the attempts for them and, if it was not full with them, the one that did not succeed; where that
was given up, so is the repetition. So `many` never fails, and a parser that consumes nothing is repeated as often as is
needed, and once at least. -/
theorem times_eq_chain {p : Parser σ ι α} {xs : List ι} {steady : Env σ → Prop} {f : Nat → Except Fault (Result α)}
    (hp : p.Answers xs steady f) (hf : Advances xs.length f) (hxs : xs.length < unbounded) {i : Nat}
    (hi : i ≤ xs.length) (env : Env σ) (henv : steady env) :
    (∃ m : ℕ∞, (∀ k : ℕ, Lasts f i k ↔ k ≤ m) ∧ ∀ b : Bounds,
      let ended := (p.times b xs i).outcome env
      (m < b.min → ∃ k : ℕ, m = k ∧
        (∀ cause, attempt f i k = .error cause → ended = .error cause) ∧
        ∀ o, attempt f i k = .ok o → ∃ c, (gathered f i ∅ (k + 1)).index = some c ∧
          ended = .ok (.failure c (gathered f i ∅ (k + 1)))) ∧
      (b.min ≤ m → ∃ n : ℕ, Takes f i b m n ∧
        (Full f i b.isOpen b.max b.min n → ended = .ok (.success (values f i n) (cursor f i n) (gathered f i ∅ n))) ∧
        (¬Full f i b.isOpen b.max b.min n → n = m ∧
          (∀ cause, attempt f i n = .error cause → ended = .error cause) ∧
          ∀ o, attempt f i n = .ok o →
            ended = .ok (.success (values f i n) (cursor f i n) (gathered f i ∅ (n + 1)))))) ∧
    (∀ c r, (p.many xs i).outcome env ≠ .ok (.failure c r)) ∧
    ∀ v r, f i = .ok (.success v i r) → ∀ (n : Nat) (h : n ≤ unbounded), ∃ vs g,
      (p.times ⟨n, unbounded, h⟩ xs i).outcome env = .ok (.success vs i g) ∧ vs.length = max n 1 := by
  obtain ⟨m, hm⟩ := exists_lasts_iff f i
  refine ⟨⟨m, hm, fun b => ⟨hp.times_of_lt hf hi henv hm, hp.times_of_le hf hi henv hm hxs⟩⟩, fun c r h => ?_,
    fun v r hidle n hn => ?_⟩
  · obtain ⟨n, -, hfull, hends⟩ := hp.times_of_le hf hi henv hm hxs (b := .any) (by simp [Bounds.any, Bounds.atMost])
    have hmany : (p.times .any xs i).outcome env = .ok (.failure c r) := h
    by_cases hn : Full f i Bounds.any.isOpen Bounds.any.max Bounds.any.min n
    · cases hmany.symm.trans (hfull hn)
    · obtain ⟨-, herror, hended⟩ := hends hn
      cases ho : attempt f i n with
      | error cause => cases hmany.symm.trans (herror cause ho)
      | ok o => cases hmany.symm.trans (hended o ho)
  · have hstays : cursor f i 1 = cursor f i 0 := cursor_of_success hidle 0
    have hcursor (k : Nat) : cursor f i k = i := cursor_eq_of_idle hstays (Nat.zero_le k)
    have hlasts (k : Nat) : Lasts f i k := fun j _ => ⟨v, i, r, (congrArg f (hcursor j)).trans hidle⟩
    have hidles (j : Nat) : Idle f i n j ↔ max n 1 ≤ j := by simp [Idle, hcursor]
    obtain ⟨k, htakes, hfull, -⟩ := hp.times_of_le hf hi henv hm hxs (b := ⟨n, unbounded, hn⟩) ((hm n).1 (hlasts n))
    have hk : k = max n 1 := by
      rcases htakes.unlimited rfl with ⟨⟨-, hk⟩, hleast⟩ | ⟨hnone, -⟩
      · exact Nat.le_antisymm (hleast ⟨(hm _).1 (hlasts _), (hidles _).2 le_rfl⟩) ((hidles k).1 hk)
      · exact absurd ((hidles _).2 le_rfl) (hnone (max n 1) ((hm _).1 (hlasts _)))
    refine ⟨values f i k, gathered f i ∅ k, ?_, (length_values (hlasts k)).trans hk⟩
    rw [hfull (.inr ⟨by simp [Bounds.isOpen], (hidles k).2 hk.ge⟩), hcursor]

open Chain in
/-- A parser that takes two items, one after the other, and consumes nothing then: three values end the repetition. -/
theorem times_eq_chain_of_drained :
    let symbol : Combination Unit UInt8 UInt8 := .primitive (.satisfy (.only 97 (ascii "a")))
    let e := symbol.times (.atMost 1)
    let xs : Bytes := [97, 97]
    let env : Env Unit := ⟨.ofLevel .off, ()⟩
    let f i := (e.parser xs i).outcome env
    e.parser.Answers xs (fun _ => True) f ∧ Advances xs.length f ∧ xs.length < unbounded ∧
      (e.parser.many xs 0).outcome env = .ok (.success [[97], [97], []] 2 (.raised 2 (.singleton (ascii "a")))) ∧
      (∃ m : ℕ∞, (∀ k : ℕ, Lasts f 0 k ↔ k ≤ m) ∧ ∃ n, Takes f 0 .any m n) ∧
      ∃ vs g, (e.parser.times ⟨3, unbounded, by decide⟩ xs 2).outcome env = .ok (.success vs 2 g) ∧ vs.length = 3 := by
  intro symbol e xs env f
  have he : e.Finds fun found => (steadily fun _ => True).holds found found := trivial
  have hp : e.parser.Answers xs (fun _ => True) f :=
    Combination.answers (fun _ _ _ _ _ => ⟨rfl, trivial, trivial⟩) he trivial xs
  have hf : Advances xs.length f := e.advances xs env
  have hxs : xs.length < unbounded := by decide
  obtain ⟨⟨m, hm, htimes⟩, -, -⟩ := times_eq_chain hp hf hxs (Nat.zero_le 2) env trivial
  obtain ⟨-, -, hidle⟩ := times_eq_chain hp hf hxs (Nat.le_refl 2) env trivial
  obtain ⟨n, htakes, -⟩ := (htimes .any).2 (by simp [Bounds.any, Bounds.atMost])
  exact ⟨hp, hf, hxs, by decide, ⟨m, hm, n, htakes⟩, hidle [] (.raised 2 (.singleton (ascii "a"))) (by decide) 3 _⟩

end Furthest
