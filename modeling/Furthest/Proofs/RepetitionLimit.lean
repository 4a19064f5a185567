import Furthest.Proofs.FailingIndex
import Furthest.Proofs.RepetitionAttempts
import Furthest.Proofs.Spans

/-!
# Repetition ends by itself

Where no greatest count is given, a repetition ends all the same: each value moves the cursor, or is needed, or
comes before a stop that ends it, or is the last one. `Chain.Collects` has how many values there are at most, and
that one more attempt is made for them at most; `Parser.calling` notes the attempts.

So the greatest count there is plays no part. `Combination.limited` is an expression each of whose repetitions
without a greatest count is cut off, at a cursor, by what is left of the input there (`Parser.countLimit`), and it
does what the expression does, if nothing in it is deferred: `Combination.Immediate`.

Main statement: `repetition_ends`.
-/

namespace Furthest

variable {σ ι α β γ : Type}

/-! ## How many values are collected -/

namespace Chain

variable {f : Nat → Except Fault (Result α)} {g : Nat → Except Fault (Result β)} {i size most needed n : Nat}
variable {collected tried : Nat} {e : Except Fault (Result (List α))}

/-- A repetition has collected `n` values, which are no more than are needed or than there are cursors left, with as
many attempts, and at most one that did not succeed. -/
structure Collects (f : Nat → Except Fault (Result α)) (i size least n tried : Nat) : Prop where
  lasts : Lasts f i n
  le : n ≤ max least (size - i + 1)
  tried : tried = n ∨ tried = n + 1 ∧ ¬Succeeded (attempt f i n)

section

variable (hf : Advances size f) (hi : i ≤ size)
include hf hi

/-- Where the last of some attempts moved the cursor, there was an item for each of them. -/
theorem add_le_size (h : cursor f i (n + 1) ≠ cursor f i n) : i + (n + 1) ≤ size :=
  (add_le_cursor hf hi h).trans (cursor_le hf hi (n + 1))

theorem lt_of_repeats (hgo : ∀ k < n, Repeats f i true most needed k) : n < max needed (size - i + 1) := by
  rcases n with _ | n
  · omega
  by_cases hidle : cursor f i (n + 1) = cursor f i n
  · have : ¬needed ≤ n + 1 := fun h => (hgo n (Nat.lt_succ_self n)).moves rfl h hidle
    omega
  · have := add_le_size hf hi hidle
    omega

theorem le_of_proceeds (hgo : ∀ k < n, Proceeds f g i true most needed k) : n ≤ max needed (size - i) := by
  rcases n with _ | n
  · omega
  by_cases hidle : cursor f i (n + 1) = cursor f i n
  · obtain ⟨w, m, r, hw⟩ := (hgo n (Nat.lt_succ_self n)).moves rfl hidle
    obtain ⟨o, ho, hlt⟩ := (hgo n (Nat.lt_succ_self n)).looked
    cases ho.symm.trans hw
    have := hlt rfl
    omega
  · have := add_le_size hf hi hidle
    omega

/-- A repetition that gets stuck has moved by then. -/
theorem lt_of_stuck (hgo : ∀ k < n, Proceeds f g i true most needed k) (hstop : ¬Succeeded (g (cursor f i n))) :
    n < size - i + 1 := by
  rcases n with _ | n
  · omega
  have hmoved : cursor f i (n + 1) ≠ cursor f i n := fun hidle =>
    hstop (hidle ▸ (hgo n (Nat.lt_succ_self n)).moves rfl hidle)
  have := add_le_size hf hi hmoved
  omega

theorem TimesEnds.collects (hgo : ∀ k < n, Repeats f i true most needed k)
    (h : TimesEnds f i true most needed n collected tried e) :
    Collects f i size needed collected tried ∧
      (∀ vs m r, e = .ok (.success vs m r) → vs = values f i collected ∧ m = cursor f i collected) ∧
      ∀ cause, e = .error cause → attempt f i collected = .error cause := by
  have hlasts : Lasts f i n := fun k hk => (hgo k hk).succeeds
  have hlt := lt_of_repeats hf hi hgo
  cases h with
  | full h r => exact ⟨⟨hlasts, hlt.le, .inl rfl⟩, by rintro _ _ _ ⟨⟩; exact ⟨rfl, rfl⟩, nofun⟩
  | gaveUp h =>
    exact ⟨⟨hlasts, hlt.le, .inr ⟨rfl, not_succeeded_of_error h⟩⟩, nofun, by rintro _ ⟨⟩; exact h⟩
  | failed h hn c' hr => exact ⟨⟨hlasts, hlt.le, .inr ⟨rfl, not_succeeded_of_failure h⟩⟩, nofun, nofun⟩
  | absorbed h hmax hn r =>
    exact ⟨⟨hlasts, hlt.le, .inr ⟨rfl, not_succeeded_of_failure h⟩⟩, by rintro _ _ _ ⟨⟩; exact ⟨rfl, rfl⟩, nofun⟩
  | idle ho hmax h hidle hn r =>
    refine ⟨⟨fun k hk => ?_, hlt, .inl rfl⟩, by rintro _ _ _ ⟨⟩; exact ⟨rfl, rfl⟩, nofun⟩
    rcases Nat.lt_succ_iff_lt_or_eq.1 hk with hk | rfl
    · exact hlasts k hk
    · exact h

theorem UntilEnds.collects (hgo : ∀ k < n, Proceeds f g i true most needed k)
    (h : UntilEnds f g i true most needed n collected tried e) :
    Collects f i size needed collected tried ∧
      (∀ vs m r, e = .ok (.success vs m r) → vs = values f i collected ∧ m = cursor f i collected) ∧
      ∀ cause, e = .error cause →
        attempt f i collected = .error cause ∨ g (cursor f i collected) = .error cause := by
  have hlasts : Lasts f i n := fun k hk => (hgo k hk).succeeds
  have hle : n ≤ max needed (size - i + 1) := (le_of_proceeds hf hi hgo).trans (by omega)
  cases h with
  | full h r => exact ⟨⟨hlasts, hle, .inl rfl⟩, by rintro _ _ _ ⟨⟩; exact ⟨rfl, rfl⟩, nofun⟩
  | stopGaveUp h => exact ⟨⟨hlasts, hle, .inl rfl⟩, nofun, by rintro _ ⟨⟩; exact .inr h⟩
  | stopped h hn r => exact ⟨⟨hlasts, hle, .inl rfl⟩, by rintro _ _ _ ⟨⟩; exact ⟨rfl, rfl⟩, nofun⟩
  | gaveUp ht h =>
    exact ⟨⟨hlasts, hle, .inr ⟨rfl, not_succeeded_of_error h⟩⟩, nofun, by rintro _ ⟨⟩; exact .inl h⟩
  | failed ht h c' hr => exact ⟨⟨hlasts, hle, .inr ⟨rfl, not_succeeded_of_failure h⟩⟩, nofun, nofun⟩
  | stuck ho ht h hidle hstop c' hr =>
    refine ⟨⟨fun k hk => ?_, (lt_of_stuck hf hi hgo hstop).trans_le (Nat.le_max_right ..), .inl rfl⟩, nofun, nofun⟩
    rcases Nat.lt_succ_iff_lt_or_eq.1 hk with hk | rfl
    · exact hlasts k hk
    · exact h

end

end Chain

open Chain

/-! ## Noting the attempts -/

/-- Notes each call of the parser. -/
def Parser.calling (p : Parser σ ι α) : Parser (Noted Call σ) ι α := fun xs i =>
  (p xs i).unnoted.gathered fun ended _ => ⟨i, .of ended⟩

/-- The parser, which notes nothing. -/
def Parser.quiet (p : Parser σ ι α) : Parser (Noted Call σ) ι α := fun xs i => (p xs i).unnoted

/-- Runs that do the same and may note calls beside. -/
def callNoting : Run.Congruence σ (Noted Call σ) where
  holds x x' := ∀ env before, ∃ l,
    x'.execute (env.noting before) = ((x.execute env).1, (x.execute env).2.noting (before ++ l))
  ofExcept e env before := ⟨[], by simp⟩
  bind {α β x x' f f'} hx hf env before := by
    obtain ⟨l, hl⟩ := hx env before
    rw [Run.execute_bind, Run.execute_bind, hl]
    rcases x.execute env with ⟨cause | v, after⟩
    · exact ⟨l, rfl⟩
    · obtain ⟨l', hl'⟩ := hf v after (before ++ l)
      exact ⟨l ++ l', by rw [← List.append_assoc]; exact hl'⟩

/-- The environment is steady, and some calls were noted. -/
def Called (steady : Env σ → Prop) (calls : List Call) (env : Env (Noted Call σ)) : Prop :=
  ∃ base, steady base ∧ env = base.noting calls

namespace Parser

variable {p : Parser σ ι α} {stop : Parser σ ι β} {xs : List ι} {steady : Env σ → Prop}
variable {f : Nat → Except Fault (Result α)} {g : Nat → Except Fault (Result β)} {i : Nat}

theorem execute_calling (p : Parser σ ι α) (xs : List ι) (i : Nat) (env : Env σ) (before : List Call) :
    (p.calling xs i).execute (env.noting before) =
      (((p xs i).execute env).1, ((p xs i).execute env).2.noting (before ++ [⟨i, .of ((p xs i).execute env).1⟩])) :=
  Run.execute_gathered (Run.execute_unnoted (p xs i) env []) _ before

theorem carries_calling (p : Parser σ ι α) : callNoting.Carries p p.calling := fun xs i env before =>
  ⟨_, p.execute_calling xs i env before⟩

theorem carries_quiet (p : Parser σ ι α) : callNoting.Carries p p.quiet := fun xs i env before =>
  ⟨[], by rw [List.append_nil]; exact Run.execute_unnoted ..⟩

theorem Answers.calling (hp : p.Answers xs steady f) : p.calling.Makes (Called steady) xs f fun i => [call f i] := by
  rintro i before - ⟨env, henv, rfl⟩
  have hended := hp.outcome henv i
  rw [Run.outcome] at hended
  rw [Run.outcome, execute_calling, hended]
  exact ⟨rfl, _, hp.steady_after henv i, rfl⟩

theorem Answers.quiet (hp : p.Answers xs steady f) : p.quiet.Makes (Called steady) xs f fun _ => [] := by
  rintro i before - ⟨env, henv, rfl⟩
  rw [List.append_nil]
  exact ⟨hp.outcome henv i, _, hp.steady_after henv i, rfl⟩

end Parser

/-- A run that may note calls does what the plain one does, and has noted the calls that it makes. -/
theorem Run.Makes.execute_noting {steady : Env σ → Prop} {x : Run σ α} {x' : Run (Noted Call σ) α}
    {e : Except Fault α} {calls : List Call} (h : x'.Makes (Called steady) e calls) (hx : callNoting.holds x x')
    {env : Env σ} (henv : steady env) :
    x.outcome env = e ∧ ∃ after, steady after ∧ x'.execute (env.noting []) = (e, after.noting calls) := by
  obtain ⟨hended, after, hafter, hmade⟩ := h [] (env.noting []) ⟨env, henv, rfl⟩
  obtain ⟨l, hl⟩ := hx env []
  have hran : x'.execute (env.noting []) = (e, after.noting calls) := Prod.ext hended hmade
  exact ⟨congrArg Prod.fst (hl.symm.trans hran), after, hafter, hran⟩

/-! ## Repetition that is cut off -/

namespace Parser

variable {p : Parser σ ι α} {stop : Parser σ ι β} {xs : List ι} {f : Nat → Except Fault (Result α)}
variable {g : Nat → Except Fault (Result β)} {i size needed a b : Nat} {seen : Record}

/-- What follows an attempt has to be known for its outcome alone. -/
theorem Answers.bind_congr (hp : p.Answers xs (fun _ => True) f) {go go' : Result α → Run σ γ}
    (h : ∀ o, f i = .ok o → go o = go' o) : p xs i >>= go = p xs i >>= go' :=
  Run.bind_congr_of_outcome fun _ o ho => h o ((hp.outcome trivial i).symm.trans ho)

section

variable (hp : p.Answers xs (fun _ => True) f)
include hp

/-- A match that consumes nothing is repeated as often as it is needed. -/
theorem Answers.timesFrom_idle {v : α} {r : Record} (h : f i = .ok (.success v i r)) (ha : max needed 1 ≤ a)
    (hb : max needed 1 ≤ b) : p.timesFrom true xs a needed i seen = p.timesFrom true xs b needed i seen := by
  induction a generalizing b needed seen with
  | zero => omega
  | succ a ih =>
    obtain ⟨b, rfl⟩ : ∃ k, b = k + 1 := ⟨b - 1, by omega⟩
    rw [timesFrom, timesFrom]
    refine hp.bind_congr fun o ho => ?_
    obtain rfl : o = .success v i r := Except.ok.inj (ho.symm.trans h)
    simp only [Result.aggregate]
    split
    · rfl
    · next hgo =>
      have hneeded : ¬needed ≤ 1 := fun hle => hgo ⟨trivial, trivial, hle⟩
      have hrest (seen : Record) :
          p.timesFrom true xs a (needed - 1) i seen = p.timesFrom true xs b (needed - 1) i seen :=
        ih (by omega) (by omega)
      rw [hrest]

/-- Counts that a repetition does not reach play no part in it. -/
theorem Answers.timesFrom_eq (hf : Advances size f) (hi : i ≤ size) (ha : max needed (size - i + 1) ≤ a)
    (hb : max needed (size - i + 1) ≤ b) :
    p.timesFrom true xs a needed i seen = p.timesFrom true xs b needed i seen := by
  induction a generalizing b i needed seen with
  | zero => omega
  | succ a ih =>
    obtain ⟨b, rfl⟩ : ∃ k, b = k + 1 := ⟨b - 1, by omega⟩
    by_cases hidle : ∃ v r, f i = .ok (.success v i r)
    · obtain ⟨v, r, h⟩ := hidle
      exact hp.timesFrom_idle h (by omega) (by omega)
    rw [timesFrom, timesFrom]
    refine hp.bind_congr fun o ho => ?_
    cases o with
    | failure c r => rfl
    | success v m r =>
      have hm := hf.within hi ho
      have hmoved : m ≠ i := by
        rintro rfl
        exact hidle ⟨v, r, ho⟩
      have hrest (seen : Record) :
          p.timesFrom true xs a (needed - 1) m seen = p.timesFrom true xs b (needed - 1) m seen :=
        ih hm.2 (by omega) (by omega)
      simp only [Result.aggregate, hrest]

variable (hstop : stop.Answers xs (fun _ => True) g)
include hstop

theorem Answers.manyUntilFrom_idle {v : α} {r : Record} (h : f i = .ok (.success v i r)) (ha : needed + 1 ≤ a)
    (hb : needed + 1 ≤ b) :
    p.manyUntilFrom stop true xs a needed i seen = p.manyUntilFrom stop true xs b needed i seen := by
  induction a generalizing b needed seen with
  | zero => omega
  | succ a ih =>
    obtain ⟨b, rfl⟩ : ∃ k, b = k + 1 := ⟨b - 1, by omega⟩
    rw [manyUntilFrom, manyUntilFrom]
    refine hstop.bind_congr fun s _ => ?_
    simp only [Result.isSuccess_aggregate, Result.furthest_aggregate]
    split
    · rfl
    · next hgo =>
      refine hp.bind_congr fun o ho => ?_
      obtain rfl : o = .success v i r := Except.ok.inj (ho.symm.trans h)
      simp only [Result.aggregate, Result.proceed]
      split
      · rfl
      · next hstuck =>
        have hneeded : needed ≠ 0 := fun hzero => hgo ⟨by simpa using hstuck, hzero⟩
        have hrest (seen : Record) : p.manyUntilFrom stop true xs a (needed - 1) i seen =
            p.manyUntilFrom stop true xs b (needed - 1) i seen := ih (by omega) (by omega)
        rw [hrest]

theorem Answers.manyUntilFrom_eq (hf : Advances size f) (hi : i ≤ size) (ha : max needed (size - i) + 1 ≤ a)
    (hb : max needed (size - i) + 1 ≤ b) :
    p.manyUntilFrom stop true xs a needed i seen = p.manyUntilFrom stop true xs b needed i seen := by
  induction a generalizing b i needed seen with
  | zero => omega
  | succ a ih =>
    obtain ⟨b, rfl⟩ : ∃ k, b = k + 1 := ⟨b - 1, by omega⟩
    by_cases hidle : ∃ v r, f i = .ok (.success v i r)
    · obtain ⟨v, r, h⟩ := hidle
      exact hp.manyUntilFrom_idle hstop h (by omega) (by omega)
    rw [manyUntilFrom, manyUntilFrom]
    refine hstop.bind_congr fun s _ => ?_
    simp only [Result.isSuccess_aggregate, Result.furthest_aggregate]
    split
    · rfl
    refine hp.bind_congr fun o ho => ?_
    cases o with
    | failure c r => rfl
    | success v m r =>
      have hm := hf.within hi ho
      have hmoved : m ≠ i := by
        rintro rfl
        exact hidle ⟨v, r, ho⟩
      have hrest (seen : Record) : p.manyUntilFrom stop true xs a (needed - 1) m seen =
          p.manyUntilFrom stop true xs b (needed - 1) m seen := ih hm.2 (by omega) (by omega)
      simp only [Result.aggregate, Result.proceed, hrest]

end

end Parser

/-- How many values a repetition can come to count where some items are left: without a greatest count, one more
than it collects at most. -/
def Parser.countLimit (b : Bounds) (left : Nat) : Nat :=
  if b.isOpen then min b.max (max b.min (left + 1) + 1) else b.max

namespace Parser

variable {p : Parser σ ι α} {stop : Parser σ ι β} {sep : Parser σ ι γ} {xs : List ι}
variable {f : Nat → Except Fault (Result α)} {g : Nat → Except Fault (Result β)} {i size : Nat}

/-- A repetition that is cut off at its limit. -/
def timesLimited (p : Parser σ ι α) (b : Bounds) : Parser σ ι (List α) := fun xs i =>
  p.timesFrom b.isOpen xs (countLimit b (xs.length - i)) b.min i ∅

/-- A separated repetition whose inner repetition is cut off at its limit. -/
def sepByLimited (p : Parser σ ι α) (sep : Parser σ ι γ) (b : Bounds) : Parser σ ι (List α) :=
  if b.max = 0 then succeed []
  else
    let values := p.consFrom ((sep.andThen p).timesLimited b.pred)
    if 0 < b.min then values
    else fun xs i => do
      match ← values xs i with
      | .success vs next r => return .success vs next r
      | .failure _ r => return .success [] i r

/-- A repetition up to a stop that is cut off at its limit. -/
def manyUntilLimited (p : Parser σ ι α) (stop : Parser σ ι β) (b : Bounds) : Parser σ ι (List α) := fun xs i =>
  p.manyUntilFrom stop b.isOpen xs (countLimit b (xs.length - i)) b.min i ∅

/-- The limit is the greatest count, or both are more than a repetition comes to count. -/
theorem countLimit_cases (b : Bounds) (left : Nat) :
    countLimit b left = b.max ∨ b.isOpen = true ∧ max b.min (left + 1) + 1 ≤ countLimit b left ∧
      max b.min (left + 1) + 1 ≤ b.max := by
  unfold countLimit
  split
  · next hopen =>
    rcases Nat.le_total b.max (max b.min (left + 1) + 1) with h | h
    · exact .inl (Nat.min_eq_left h)
    · exact .inr ⟨hopen, (Nat.min_eq_right h).ge, h⟩
  · exact .inl rfl

theorem Answers.timesLimited_eq (hp : p.Answers xs (fun _ => True) f) (hf : Advances (max i xs.length) f) (b : Bounds) :
    p.timesLimited b xs i = p.times b xs i := by
  rw [timesLimited, times]
  rcases countLimit_cases b (xs.length - i) with h | ⟨hopen, hlimit, hmax⟩
  · rw [h]
  · rw [hopen]
    exact hp.timesFrom_eq hf (Nat.le_max_left ..) (by omega) (by omega)

theorem Answers.manyUntilLimited_eq (hp : p.Answers xs (fun _ => True) f) (hstop : stop.Answers xs (fun _ => True) g)
    (hf : Advances (max i xs.length) f) (b : Bounds) : p.manyUntilLimited stop b xs i = p.manyUntil stop b xs i := by
  rw [manyUntilLimited, manyUntil]
  rcases countLimit_cases b (xs.length - i) with h | ⟨hopen, hlimit, hmax⟩
  · rw [h]
  · rw [hopen]
    exact hp.manyUntilFrom_eq hstop hf (Nat.le_max_left ..) (by omega) (by omega)

theorem sepByLimited_eq {b : Bounds} (h : (sep.andThen p).timesLimited b.pred = (sep.andThen p).times b.pred) :
    p.sepByLimited sep b = p.sepBy sep b := by
  rw [sepByLimited, h]
  rfl

end Parser

/-! ## Expressions -/

/-- A primitive parser that succeeds ends within the input, or where it began if that was beyond it. -/
theorem Primitive.next_le {l : Primitive ι α} {xs : List ι} {i n : Nat} {v : α} {r : Record}
    (h : l.ended xs i = .ok (.success v n r)) : n ≤ max i xs.length := by
  rcases Nat.lt_or_ge xs.length i with hi | hi
  · have hnone : xs[i]? = none := List.getElem?_eq_none hi.le
    cases l with
    | succeed w | position | lineColumn =>
      cases h
      exact Nat.le_max_left ..
    | fail label => cases h
    | eof =>
      simp only [ended, Run.outcome, parser, Parser.eof, hi.le, if_true, Run.execute_pure] at h
      cases h
      exact Nat.le_max_left ..
    | satisfy c =>
      simp only [ended, Run.outcome, parser, Parser.satisfy, hnone, Run.execute_pure] at h
      cases h
    | str literal =>
      simp only [ended, Run.outcome, parser, Parser.str, hi, if_true, Run.execute_giveUp] at h
      cases h
  · rcases l.ended_cases xs i with ⟨v', n', h', -, hn⟩ | h' | ⟨-, h'⟩
    · cases h.symm.trans h'
      exact (hn hi).trans (Nat.le_max_right ..)
    · cases h.symm.trans h'
    · cases h.symm.trans h'

/-- From any cursor, cursors end within the input, or where they began beyond it. -/
def Discipline.notBeyond (xs : List ι) : Discipline xs where
  holds i _ e := e.Within i (max i xs.length)
  engaged h := by
    obtain ⟨k, hk, -⟩ := h
    exact Record.isEngaged_iff.2 ⟨k, hk⟩
  leaf p i := by
    rcases p.ended_cases xs i with ⟨v, n, h, hi, -⟩ | h | ⟨-, h⟩
    · rw [h]
      exact ⟨hi, Primitive.next_le h, nofun⟩
    · rw [h]
      exact ⟨i, rfl, Nat.le_refl i, Nat.le_max_left ..⟩
    · rw [h]
      trivial
  idle i := ⟨Nat.le_refl i, Nat.le_max_left .., nofun⟩
  declined _ := trivial
  next := by
    rintro i n - - r e ⟨hin, hn, hr⟩ h'
    exact ((h'.widen (Nat.max_le.2 ⟨hn, Nat.le_max_right ..⟩)).mono hin).aggregate hr
  absorb := by
    rintro i - r ⟨k, hk, hik, hks⟩
    refine ⟨Nat.le_refl i, Nat.le_max_left .., fun j hj => ?_⟩
    cases hk.symm.trans hj
    exact ⟨hik, hks⟩
  back h := ⟨Nat.le_refl _, Nat.le_max_left .., h.2.2⟩
  refuse h he := by
    obtain ⟨k, hk⟩ := Record.isEngaged_iff.1 he
    exact ⟨k, hk, h.2.2 k hk⟩
  emptyChoice i := ⟨i, rfl, Nat.le_refl i, Nat.le_max_left ..⟩
  desc {i l e} label h := by
    cases e with
    | failed r => exact ⟨i, rfl, Nat.le_refl i, Nat.le_max_left ..⟩
    | _ => exact h
  shouldFail {i l e} label h := by
    cases e with
    | matched n r => exact ⟨i, rfl, Nat.le_refl i, Nat.le_max_left ..⟩
    | failed r => exact ⟨Nat.le_refl i, Nat.le_max_left .., nofun⟩
    | gaveUp cause => trivial

/-- What may be given up with some causes may be given up with more. -/
theorem Parser.Genuine.mono {causes causes' : Fault → Prop} {p : Parser σ ι α} (h : p.Genuine causes)
    (hc : ∀ cause, causes cause → causes' cause) : p.Genuine causes' := fun xs i env => by
  have hends := h xs i env
  generalize (p xs i).outcome env = ended at hends ⊢
  cases ended with
  | error cause => exact hc cause hends
  | ok o => exact hends

namespace Combination

/-- Nothing in the expression is deferred, and neither a function in it nor the expression itself gives up because
parsers are nested too deep. -/
def Immediate : {α : Type} → Combination σ ι α → Prop
  | _, primitive _ => True
  | _, giveUp cause => cause ≠ .exhausted
  | _, andThen p q | _, skip p q | _, pair p q => p.Immediate ∧ q.Immediate
  | _, sequence ps | _, alt ps => ∀ k, (ps k).Immediate
  | _, times p _ => p.Immediate
  | _, sepBy p sep _ => p.Immediate ∧ sep.Immediate
  | _, manyUntil p stop _ => p.Immediate ∧ stop.Immediate
  | _, tryMap p f => p.Immediate ∧ ∀ v, f v ≠ .error .exhausted
  | _, bind p f => p.Immediate ∧ ∀ v, (f v).Immediate
  | _, mark p | _, desc p _ | _, shouldFail p _ | _, peek p | _, traced p _ => p.Immediate
  | _, deferred _ _ => False
  | _, rule body => ∀ xs i, (body xs i).Immediate

/-- The expression with each repetition cut off where it cannot come to count more values. -/
def limited : {α : Type} → Combination σ ι α → Parser σ ι α
  | _, primitive l => l.parser
  | _, giveUp cause => Parser.giveUp cause
  | _, andThen p q => p.limited.andThen q.limited
  | _, skip p q => p.limited.skip q.limited
  | _, pair p q => p.limited.pair q.limited
  | _, sequence ps => Parser.sequence ((List.finRange _).map fun k => (ps k).limited)
  | _, alt ps => Parser.alt ((List.finRange _).map fun k => (ps k).limited)
  | _, times p b => p.limited.timesLimited b
  | _, sepBy p sep b => p.limited.sepByLimited sep.limited b
  | _, manyUntil p stop b => p.limited.manyUntilLimited stop.limited b
  | _, tryMap p f => p.limited.tryMap f
  | _, bind p f => p.limited.bind fun v => (f v).limited
  | _, mark p => p.limited.mark
  | _, desc p label => p.limited.desc label
  | _, shouldFail p label => p.limited.shouldFail label
  | _, peek p => p.limited.peek
  | _, traced p name => p.limited.traced name
  | _, deferred found enter => fun xs i => do (enter (← found)).limited xs i
  | _, rule body => fun xs i => (body xs i).limited xs i

/-- What is not deferred is not looked up. -/
theorem Immediate.finds {F : {γ : Type} → Run σ γ → Prop} {e : Combination σ ι α} (h : e.Immediate) : e.Finds F := by
  induction e with
  | primitive l => trivial
  | giveUp cause => trivial
  | andThen p q hp hq => exact ⟨hp h.1, hq h.2⟩
  | skip p q hp hq => exact ⟨hp h.1, hq h.2⟩
  | pair p q hp hq => exact ⟨hp h.1, hq h.2⟩
  | sequence ps hp => exact fun k => hp k (h k)
  | alt ps hp => exact fun k => hp k (h k)
  | times p b hp => exact hp h
  | sepBy p sep b hp hsep => exact ⟨hp h.1, hsep h.2⟩
  | manyUntil p stop b hp hstop => exact ⟨hp h.1, hstop h.2⟩
  | tryMap p f hp => exact hp h.1
  | bind p f hp hf => exact ⟨hp h.1, fun v => hf v (h.2 v)⟩
  | mark p hp => exact hp h
  | desc p label hp => exact hp h
  | shouldFail p label hp => exact hp h
  | peek p hp => exact hp h
  | traced p name hp => exact hp h
  | deferred found enter hp => exact h.elim
  | rule body hp => exact fun xs i => hp xs i (h xs i)

/-- The expression answers alike in all environments. -/
theorem Immediate.answers {e : Combination σ ι α} (h : e.Immediate) (xs : List ι) (env : Env σ) :
    e.parser.Answers xs (fun _ => True) fun i => (e.parser xs i).outcome env :=
  Combination.answers (fun _ _ _ _ _ => ⟨rfl, trivial, trivial⟩) h.finds trivial xs

/-- From any cursor, cursors move on within the input, or stay where they are beyond it. -/
theorem advances_max (e : Combination σ ι α) (xs : List ι) (i : Nat) (env : Env σ) :
    Advances (max i xs.length) fun j => (e.parser xs j).outcome env where
  within {j n v r} hj h := by
    obtain ⟨-, hwithin⟩ := (e.guides (.notBeyond xs) j).outcome env
    rw [h] at hwithin
    exact ⟨hwithin.1, hwithin.2.1.trans (by omega)⟩
  engaged {j c r} hj h := by
    obtain ⟨-, hwithin⟩ := (e.guides (.notBeyond xs) j).outcome env
    rw [h] at hwithin
    obtain ⟨k, hk, -⟩ := hwithin
    exact Record.isEngaged_iff.2 ⟨k, hk⟩

theorem Immediate.timesLimited_eq {e : Combination σ ι α} (h : e.Immediate) (b : Bounds) :
    e.parser.timesLimited b = e.parser.times b := funext fun xs => funext fun i => funext fun env =>
  congrFun ((h.answers xs env).timesLimited_eq (e.advances_max xs i env) b) env

/-- Nothing in an expression counts beyond its limit. -/
theorem Immediate.limited_eq {e : Combination σ ι α} (h : e.Immediate) : e.limited = e.parser := by
  induction e with
  | primitive l => rfl
  | giveUp cause => rfl
  | andThen p q hp hq => simp only [limited, parser, hp h.1, hq h.2]
  | skip p q hp hq => simp only [limited, parser, hp h.1, hq h.2]
  | pair p q hp hq => simp only [limited, parser, hp h.1, hq h.2]
  | sequence ps hp => simp only [limited, parser, hp _ (h _)]
  | alt ps hp => simp only [limited, parser, hp _ (h _)]
  | times p b hp =>
    have hpart : p.Immediate := h
    simp only [limited, parser, hp hpart]
    exact hpart.timesLimited_eq b
  | sepBy p sep b hp hsep =>
    have hrest : (sep.andThen p).Immediate := ⟨h.2, h.1⟩
    simp only [limited, parser, hp h.1, hsep h.2]
    exact Parser.sepByLimited_eq (hrest.timesLimited_eq b.pred)
  | manyUntil p stop b hp hstop =>
    obtain ⟨hpart, hend⟩ : p.Immediate ∧ stop.Immediate := h
    simp only [limited, parser, hp hpart, hstop hend]
    refine funext fun xs => funext fun i => funext fun env => congrFun ?_ env
    exact (hpart.answers xs env).manyUntilLimited_eq (hend.answers xs env) (p.advances_max xs i env) b
  | tryMap p f hp => simp only [limited, parser, hp h.1]
  | bind p f hp hf => simp only [limited, parser, hp h.1, hf _ (h.2 _)]
  | mark p hp => simp only [limited, parser, hp h]
  | desc p label hp => simp only [limited, parser, hp h]
  | shouldFail p label hp => simp only [limited, parser, hp h]
  | peek p hp => simp only [limited, parser, hp h]
  | traced p name hp => simp only [limited, parser, hp h]
  | deferred found enter hp => exact h.elim
  | rule body hp => exact funext fun xs => funext fun i => congrFun (congrFun (hp xs i (h xs i)) xs) i

/-- The expression is an assembly that is not given up because parsers are nested too deep. -/
theorem Immediate.exists_assembly {e : Combination σ ι α} (h : e.Immediate) :
    ∃ made : Assembly σ ι (· ≠ .exhausted) α, made.parser = e.parser := by
  induction e with
  | primitive l => exact ⟨.callable l.parser (l.genuine.mono fun _ h => h ▸ nofun), rfl⟩
  | giveUp cause => exact ⟨.callable (Parser.giveUp cause) fun xs i env => h, rfl⟩
  | andThen p q hp hq =>
    obtain ⟨a, ha⟩ := hp h.1
    obtain ⟨b, hb⟩ := hq h.2
    exact ⟨.andThen a b, by simp only [Assembly.parser, parser, ha, hb]⟩
  | skip p q hp hq =>
    obtain ⟨a, ha⟩ := hp h.1
    obtain ⟨b, hb⟩ := hq h.2
    exact ⟨.skip a b, by simp only [Assembly.parser, parser, ha, hb]⟩
  | pair p q hp hq =>
    obtain ⟨a, ha⟩ := hp h.1
    obtain ⟨b, hb⟩ := hq h.2
    exact ⟨.pair a b, by simp only [Assembly.parser, parser, ha, hb]⟩
  | sequence ps hp =>
    choose a ha using fun k => hp k (h k)
    exact ⟨.sequence a, by simp only [Assembly.parser, parser, ha]⟩
  | alt ps hp =>
    choose a ha using fun k => hp k (h k)
    exact ⟨.alt a, by simp only [Assembly.parser, parser, ha]⟩
  | times p b hp =>
    obtain ⟨a, ha⟩ := hp h
    exact ⟨.times a b, by simp only [Assembly.parser, parser, ha]⟩
  | sepBy p sep b hp hsep =>
    obtain ⟨a, ha⟩ := hp h.1
    obtain ⟨a', ha'⟩ := hsep h.2
    exact ⟨.sepBy a a' b, by simp only [Assembly.parser, parser, ha, ha']⟩
  | manyUntil p stop b hp hstop =>
    obtain ⟨a, ha⟩ := hp h.1
    obtain ⟨a', ha'⟩ := hstop h.2
    exact ⟨.manyUntil a a' b, by simp only [Assembly.parser, parser, ha, ha']⟩
  | tryMap p f hp =>
    obtain ⟨a, ha⟩ := hp h.1
    refine ⟨.tryMap a f fun v => ?_, by simp only [Assembly.parser, parser, ha]⟩
    rcases hv : f v with cause | w
    · rintro rfl
      exact h.2 v hv
    · trivial
  | bind p f hp hf =>
    obtain ⟨a, ha⟩ := hp h.1
    choose b hb using fun v => hf v (h.2 v)
    exact ⟨.bind a b, by simp only [Assembly.parser, parser, ha, hb]⟩
  | mark p hp =>
    obtain ⟨a, ha⟩ := hp h
    exact ⟨.mark a, by simp only [Assembly.parser, parser, ha]⟩
  | desc p label hp =>
    obtain ⟨a, ha⟩ := hp h
    exact ⟨.desc a label, by simp only [Assembly.parser, parser, ha]⟩
  | shouldFail p label hp =>
    obtain ⟨a, ha⟩ := hp h
    exact ⟨.shouldFail a label, by simp only [Assembly.parser, parser, ha]⟩
  | peek p hp =>
    obtain ⟨a, ha⟩ := hp h
    exact ⟨.peek a, by simp only [Assembly.parser, parser, ha]⟩
  | traced p name hp =>
    obtain ⟨a, ha⟩ := hp h
    exact ⟨.traced a name, by simp only [Assembly.parser, parser, ha]⟩
  | deferred found enter hp => exact h.elim
  | rule body hp =>
    choose a ha using fun xs i => hp xs i (h xs i)
    exact ⟨.rule a, funext fun xs => funext fun i => congrFun (congrFun (ha xs i) xs) i⟩

theorem Immediate.not_exhausted {e : Combination σ ι α} (h : e.Immediate) (xs : List ι) (i : Nat) (env : Env σ) :
    (e.parser xs i).outcome env ≠ .error .exhausted := fun hended => by
  obtain ⟨made, hmade⟩ := h.exists_assembly
  rw [← hmade] at hended
  obtain ⟨-, hends⟩ := made.blames xs i env []
  rw [show ((made.parser xs i).execute env).1 = .error .exhausted from hended] at hends
  exact hends rfl

end Combination

/-! ## Main statement -/

/-- Without a greatest count, a repetition ends: of a parser whose outcomes depend on the cursor alone, which does
not move it back or beyond the end, it collects no more values than are needed or than there are cursors left, and
calls the parser for each of them and once more at most. So does a repetition that looks for its end with another
such parser. Each is given up only if a parser that it calls is.

Hence an expression in which nothing is deferred ends. It does what it does with each repetition cut off after one
attempt more than there can be, however repetitions are nested, and is never given up for being nested too deep. -/
theorem repetition_ends {p : Parser σ ι α} {stop : Parser σ ι β} {xs : List ι} {steady : Env σ → Prop}
    {f : Nat → Except Fault (Result α)} {g : Nat → Except Fault (Result β)} (hp : p.Answers xs steady f)
    (hstop : stop.Answers xs steady g) (hf : Advances xs.length f) (hg : Advances xs.length g) {i : Nat}
    (hi : i ≤ xs.length) {env : Env σ} (henv : steady env) {least : Nat} (hleast : least ≤ unbounded) :
    let b : Bounds := ⟨least, unbounded, hleast⟩
    (∃ n t after, Collects f i xs.length least n t ∧ steady after ∧
      (p.calling.times b xs i).execute (env.noting []) =
        ((p.times b xs i).outcome env, after.noting (calls f i t)) ∧
      (∀ vs m r, (p.times b xs i).outcome env = .ok (.success vs m r) → vs = values f i n ∧ m = cursor f i n) ∧
      ∀ cause, (p.times b xs i).outcome env = .error cause → attempt f i n = .error cause) ∧
    (∃ n t after, Collects f i xs.length least n t ∧ steady after ∧
      (p.calling.manyUntil stop.quiet b xs i).execute (env.noting []) =
        ((p.manyUntil stop b xs i).outcome env, after.noting (calls f i t)) ∧
      (∀ vs m r, (p.manyUntil stop b xs i).outcome env = .ok (.success vs m r) →
        vs = values f i n ∧ m = cursor f i n) ∧
      ∀ cause, (p.manyUntil stop b xs i).outcome env = .error cause →
        attempt f i n = .error cause ∨ g (cursor f i n) = .error cause) ∧
    ∀ {γ : Type} (e : Combination σ ι γ), e.Immediate →
      e.limited = e.parser ∧ ∀ ys j env, (e.parser ys j).outcome env ≠ .error .exhausted := by
  intro b
  have hopen : b.isOpen = true := by simp [Bounds.isOpen, b]
  refine ⟨?_, ?_, fun e he => ⟨he.limited_eq, he.not_exhausted⟩⟩
  · obtain ⟨n, collected, tried, e, hgo, hends, hmakes⟩ :=
      hp.calling.exists_timesEnds hf hi b.isOpen unbounded least ∅
    have hnoting := (p.carries_calling.times b) xs i
    obtain ⟨rfl, after, hafter, hran⟩ := Run.Makes.execute_noting hmakes hnoting henv
    rw [hopen] at hgo hends
    obtain ⟨hcollects, hvalues, hcause⟩ := hends.collects hf hi hgo
    exact ⟨collected, tried, after, hcollects, hafter, hran, hvalues, hcause⟩
  · obtain ⟨n, collected, tried, e, hgo, hends, hmakes⟩ :=
      hp.calling.exists_untilEnds hstop.quiet hf hg hi b.isOpen unbounded least ∅
    have hnoting := (p.carries_calling.manyUntil stop.carries_quiet b) xs i
    obtain ⟨rfl, after, hafter, hran⟩ := Run.Makes.execute_noting hmakes hnoting henv
    rw [hopen] at hgo hends
    obtain ⟨hcollects, hvalues, hcause⟩ := hends.collects hf hi hgo
    exact ⟨collected, tried, after, hcollects, hafter, hran, hvalues, hcause⟩

/-- An item or none, four times at least, over two items: two values have an item, and two more are needed. Any
number of items, any number of times, ends too. -/
theorem repetition_ends_of_nested :
    let symbol : Combination Unit UInt8 UInt8 := .primitive (.satisfy (.only 97 (ascii "a")))
    let stop : Combination Unit UInt8 Unit := .primitive .eof
    let e := symbol.times (.atMost 1)
    let xs : Bytes := [97, 97]
    let env : Env Unit := ⟨.ofLevel .off, ()⟩
    let f i := (e.parser xs i).outcome env
    let g i := (stop.parser xs i).outcome env
    let b : Bounds := ⟨4, unbounded, by decide⟩
    let nested := (e.times .any).times .any
    e.parser.Answers xs (fun _ => True) f ∧ stop.parser.Answers xs (fun _ => True) g ∧ Advances xs.length f ∧
      Advances xs.length g ∧
      (∃ n t, ∃ after : Env Unit, n ≤ 4 ∧ t ≤ n + 1 ∧ (e.parser.calling.times b xs 0).execute (env.noting []) =
        (.ok (.success [[97], [97], [], []] 2 (.raised 2 (.singleton (ascii "a")))), after.noting (calls f 0 t))) ∧
      (nested.parser xs 0).outcome env =
        .ok (.success [[[97], [97], []], [[]]] 2 (.raised 2 (.singleton (ascii "a")))) ∧
      nested.limited = nested.parser := by
  intro symbol stop e xs env f g b nested
  have he : e.Immediate := trivial
  have hend : stop.Immediate := trivial
  have hnested : nested.Immediate := trivial
  have hp := he.answers xs env
  have hstop := hend.answers xs env
  have hf : Advances xs.length f := e.advances xs env
  have hg : Advances xs.length g := stop.advances xs env
  have hleast : 4 ≤ unbounded := by decide
  obtain ⟨⟨n, t, after, hcollects, -, hran, -⟩, -, hends⟩ :=
    repetition_ends hp hstop hf hg (Nat.zero_le 2) trivial hleast
  have hrun : (e.parser.times b xs 0).outcome env =
      .ok (.success [[97], [97], [], []] 2 (.raised 2 (.singleton (ascii "a")))) := by decide
  refine ⟨hp, hstop, hf, hg, ⟨n, t, after, hcollects.le, ?_, ?_⟩, by decide, (hends nested hnested).1⟩
  · rcases hcollects.tried with rfl | ⟨rfl, -⟩ <;> omega
  · rw [← hrun]
    exact hran

end Furthest
