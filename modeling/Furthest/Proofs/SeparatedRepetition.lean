import Furthest.Grammar.Build
import Furthest.Proofs.Diagnostics
import Furthest.Proofs.RepetitionLimit

/-!
# Separated repetition

A separated repetition is expanded to a first value and a repetition of values after separators, whose bounds are
each one less (`Bounds.pred`). They are taken in words of 64 bits, where an unbounded greatest count stays what it
is: `Bounds.inner_eq`. The expansion reports the same (`Result.report`) because a repetition fails with an index
alone (`Parser.engaged_of_timesFrom`), and what it finds is `Parser.Separated`, where a separator comes before a
value only.

Main statement: `sepBy_expands`.
-/

namespace Furthest

variable {σ ι α β γ : Type}

/-! ## Bounds of the inner repetition -/

namespace Bounds

/-- The least count of what follows a first value, as a word. -/
def innerLeast (least : UInt64) : UInt64 := if least = 0 then 0 else least - 1

/-- The greatest count of what follows a first value, as a word. An unbounded one stays unbounded. -/
def innerMost (most : UInt64) : UInt64 := if most.toNat = unbounded then most else most - 1

theorem of_eq_ok_iff {repetition : Repetition} {least most : Nat} {b : Bounds} :
    of repetition least most = .ok b ↔ b.min = least ∧ b.max = most := by
  unfold of
  split
  · next h =>
    rw [Except.ok.injEq]
    constructor
    · rintro rfl
      exact ⟨rfl, rfl⟩
    · rintro ⟨rfl, rfl⟩
      rfl
  · next h =>
    simp only [reduceCtorEq, false_iff]
    rintro ⟨rfl, rfl⟩
    exact h b.min_le_max

/-- Counts of a separated repetition that is not empty can be one less each: nothing wraps, and the counts are not
reversed. -/
theorem inner_eq {least most : UInt64} {b : Bounds} (hleast : b.min = least.toNat) (hmost : b.max = most.toNat)
    (hne : b.max ≠ 0) : b.pred.min = (innerLeast least).toNat ∧ b.pred.max = (innerMost most).toNat := by
  refine ⟨?_, ?_⟩
  · show b.min - 1 = (if least = 0 then 0 else least - 1).toNat
    rw [hleast]
    split
    · next h => rw [h]; rfl
    · next h =>
      have hpos : (1 : UInt64).toNat ≤ least.toNat := Nat.pos_of_ne_zero fun hzero => h (UInt64.toNat_inj.1 hzero)
      rw [UInt64.toNat_sub_of_le _ _ (UInt64.le_iff_toNat_le.2 hpos)]
      rfl
  · show (if b.max = unbounded then unbounded else b.max - 1) =
      (if most.toNat = unbounded then most else most - 1).toNat
    rw [hmost]
    split
    · next h => exact h.symm
    · next h =>
      have hpos : (1 : UInt64).toNat ≤ most.toNat := Nat.pos_of_ne_zero (hmost ▸ hne)
      rw [UInt64.toNat_sub_of_le _ _ (UInt64.le_iff_toNat_le.2 hpos)]
      rfl

end Bounds

/-- What an outcome reports: the value and the next cursor of a success, and the deepest failure seen. -/
def Result.report (o : Result α) : Option (α × Nat) × Record := (o.decision, o.furthest)

namespace Parser

variable {p : Parser σ ι α} {sep : Parser σ ι β} {q : Parser σ ι (List α)} {xs : List ι} {b : Bounds}
variable {isOpen : Bool} {remaining needed i m n : Nat} {seen r : Record} {env after : Env σ}

/-! ## Failures of repetitions -/

/-- A failure that is made of a record has its index, and is no success. -/
theorem of_ofRecord {o : Result α} (h : (Run.ofExcept (Result.ofRecord seen)).execute env = (.ok o, after)) :
    seen.isEngaged ∧ ∃ c, o = .failure c seen := by
  obtain ⟨k, hk, ho⟩ := Result.ofRecord_eq_ok_iff.1 (congrArg Prod.fst h)
  exact ⟨Record.isEngaged_iff.2 ⟨k, hk⟩, k, ho⟩

/-- A repetition fails with an index, whatever it repeats: it makes its failure of a record. -/
theorem engaged_of_timesFrom {c : Nat}
    (h : (p.timesFrom isOpen xs remaining needed i seen).execute env = (.ok (.failure c r), after)) :
    r.isEngaged := by
  induction remaining generalizing needed i seen env with
  | zero => cases h
  | succ remaining ih =>
    rw [timesFrom] at h
    obtain ⟨o, env', -, h⟩ := Run.exists_of_bind h
    cases o with
    | failure c' r' =>
      simp only [Result.aggregate] at h
      split at h
      · cases h
      · obtain ⟨hr, c', ho⟩ := of_ofRecord h
        cases ho
        exact hr
    | success v m r' =>
      simp only [Result.aggregate] at h
      split at h
      · cases h
      · obtain ⟨o', env'', ho', h⟩ := Run.exists_of_bind h
        cases o' with
        | success ws m' s => cases h
        | failure c' s =>
          cases h
          exact ih ho'

/-- Whatever the parser fails with at some cursor has an index. -/
def Indexed (q : Parser σ ι α) (xs : List ι) : Prop :=
  ∀ ⦃i env c r after⦄, (q xs i).execute env = (.ok (.failure c r), after) → r.isEngaged

theorem indexed_times (p : Parser σ ι α) (b : Bounds) (xs : List ι) : (p.times b).Indexed xs := fun _ _ _ _ _ h =>
  engaged_of_timesFrom h

/-- Values that a first one begins fail with an index, if those after it do. -/
theorem Indexed.consFrom (hq : q.Indexed xs) (p : Parser σ ι α) : (p.consFrom q).Indexed xs := by
  intro i env c r after h
  obtain ⟨o, env', -, h⟩ := Run.exists_of_bind h
  cases o with
  | failure c' r' =>
    obtain ⟨hr, c', ho⟩ := of_ofRecord h
    cases ho
    exact hr
  | success v m r' =>
    obtain ⟨o', env'', ho', h⟩ := Run.exists_of_bind h
    cases o' with
    | success ws m' s => cases h
    | failure c' s =>
      cases h
      simp [hq ho']

/-! ## The expansion -/

/-- A failure of one type is made of a record as one of another type is. -/
theorem ofRecord_bind {go : Result α → Run σ γ} {go' : Result β → Run σ γ}
    (h : ∀ k, r.index = some k → go (.failure k r) = go' (.failure k r)) :
    Run.ofExcept (Result.ofRecord r) >>= go = Run.ofExcept (Result.ofRecord r) >>= go' := by
  unfold Result.ofRecord
  rcases hr : r.index with _ | k
  · rfl
  · exact h k hr

theorem ofRecord_bind_report {k : Nat} (h : r.index = some k) :
    (do return (← Run.ofExcept (Result.ofRecord r)).report : Run σ (Option (α × Nat) × Record)) =
      Pure.pure (none, r) := by
  rw [Result.ofRecord_eq_ok_iff.2 ⟨k, h, rfl⟩]
  rfl

/-- A first value and what follows it report what the two report as a pair, if what follows fails with an index. -/
theorem consFrom_reports (hq : q.Indexed xs) (p : Parser σ ι α) (i : Nat) :
    (do return (← p.consFrom q xs i).report) = do return (← combine₂ List.cons p q xs i).report := by
  unfold consFrom combine₂ Parser.map tryMap pair
  simp only [bind_assoc]
  refine bind_congr fun o => ?_
  cases o with
  | failure c r => exact ofRecord_bind fun k hk => (ofRecord_bind_report hk).symm
  | success v m r =>
    simp only [Result.proceed, bind_assoc, pure_bind]
    refine Run.bind_congr_of_outcome fun env o ho => ?_
    cases o with
    | success ws m' s => rfl
    | failure c s =>
      obtain ⟨k, hk⟩ : ∃ k, (s.merge r).index = some k := Record.isEngaged_iff.1 (by simp [hq (Prod.ext ho rfl)])
      simp only [Result.aggregate, Result.ofRecord_eq_ok_iff.2 ⟨k, hk, rfl⟩]
      exact (ofRecord_bind_report hk).symm

theorem sepBy_reports (p : Parser σ ι α) (sep : Parser σ ι β) (hmin : 0 < b.min) (xs : List ι) (i : Nat) :
    (do return (← p.sepBy sep b xs i).report) =
      do return (← combine₂ List.cons p ((sep.andThen p).times b.pred) xs i).report := by
  rw [sepBy_of_min_pos hmin]
  exact consFrom_reports (indexed_times _ _ xs) p i

/-- Where no value is needed, none is the alternative to one at least. -/
theorem sepBy_eq_alt (p : Parser σ ι α) (sep : Parser σ ι β) (hmin : b.min = 0) (hmax : 0 < b.max) :
    p.sepBy sep b = alt [p.sepBy sep ⟨1, b.max, hmax⟩, succeed []] := by
  have hpred : (⟨1, b.max, hmax⟩ : Bounds).pred = b.pred := by simp [Bounds.pred, hmin]
  rw [sepBy_of_min_eq_zero (Nat.ne_of_gt hmax) hmin, sepBy_of_min_pos Nat.one_pos, hpred]
  refine funext fun xs => funext fun i => Run.bind_congr_of_outcome fun env o ho => ?_
  cases o with
  | success vs m r => simp only [Result.aggregate_empty]
  | failure c r =>
    have hr : r.isEngaged := (indexed_times _ _ xs).consFrom p (Prod.ext ho rfl)
    simp only [Result.aggregate, Record.merge_empty, altFrom, succeed, pure_bind,
      Record.empty_merge (Record.proper_of_isEngaged hr)]

/-! ## What is found -/

/-- Values are found one after the other from an environment, each but the last with a separator after it. The last
one ends where they all end. -/
inductive Separated (p : Parser σ ι α) (sep : Parser σ ι β) (xs : List ι) : Env σ → Nat → List α → Nat → Prop
  | one {env after : Env σ} {i n : Nat} {v : α} {r : Record}
    (hp : (p xs i).execute env = (.ok (.success v n r), after)) : Separated p sep xs env i [v] n
  | more {env env' env'' : Env σ} {i m k n : Nat} {v : α} {w : β} {vs : List α} {r r' : Record}
    (hp : (p xs i).execute env = (.ok (.success v m r), env'))
    (hsep : (sep xs m).execute env' = (.ok (.success w k r'), env''))
    (hrest : Separated p sep xs env'' k vs n) : Separated p sep xs env i (v :: vs) n

theorem exists_of_andThen {v : α}
    (h : (sep.andThen p xs i).execute env = (.ok (.success v n r), after)) :
    ∃ w m r' env' r'', (sep xs i).execute env = (.ok (.success w m r'), env') ∧
      (p xs m).execute env' = (.ok (.success v n r''), after) := by
  obtain ⟨o, env', ho, h⟩ := Run.exists_of_bind h
  cases o with
  | failure c s =>
    obtain ⟨-, c', hc⟩ := of_ofRecord h
    cases hc
  | success w m s =>
    obtain ⟨o', env'', ho', h⟩ := Run.exists_of_bind h
    cases o' with
    | failure c s' => cases h
    | success v' n' s' =>
      cases h
      exact ⟨w, m, s, env', s', ho, ho'⟩

/-- A repetition of values after separators goes on from a first value. -/
theorem Separated.of_timesFrom {v : α} {vs : List α} {s : Record}
    (hp : (p xs i).execute env = (.ok (.success v m r), after)) (hle : needed ≤ remaining)
    (h : ((sep.andThen p).timesFrom isOpen xs remaining needed m seen).outcome after = .ok (.success vs n s)) :
    Separated p sep xs env i (v :: vs) n ∧ needed ≤ vs.length ∧ vs.length ≤ remaining := by
  induction remaining generalizing needed i m env after v r seen vs with
  | zero =>
    cases h
    exact ⟨.one hp, hle, Nat.le_refl 0⟩
  | succ remaining ih =>
    rw [timesFrom] at h
    obtain ⟨o, env', ho, h⟩ := Run.exists_of_bind (Prod.ext h rfl)
    cases o with
    | failure c r' =>
      simp only [Result.aggregate] at h
      split at h
      · next hn =>
        cases h
        exact ⟨.one hp, hn.le, Nat.zero_le _⟩
      · obtain ⟨-, c', hc⟩ := of_ofRecord h
        cases hc
    | success v' m' r' =>
      obtain ⟨w, k, s', env'', s'', hsep, hp'⟩ := exists_of_andThen ho
      simp only [Result.aggregate] at h
      split at h
      · next hidle =>
        cases h
        exact ⟨.more hp hsep (.one hp'), hidle.2.2, Nat.succ_le_succ (Nat.zero_le _)⟩
      · obtain ⟨o', env₂, ho', h⟩ := Run.exists_of_bind h
        cases o' with
        | failure c t => cases h
        | success ws m'' t =>
          cases h
          obtain ⟨hrest, hneeded, hcount⟩ := ih hp' (by omega) (congrArg Prod.fst ho')
          refine ⟨.more hp hsep hrest, ?_, ?_⟩ <;> rw [List.length_cons] <;> omega

/-- A separated repetition succeeds without values, if none is needed, or with a first value and what follows it. -/
theorem exists_of_sepBy {vs : List α} (h : (p.sepBy sep b xs i).outcome env = .ok (.success vs n r)) :
    (vs = [] ∧ n = i ∧ b.min = 0) ∨ b.max ≠ 0 ∧ ∃ v ws m r' s after, vs = v :: ws ∧
      (p xs i).execute env = (.ok (.success v m r'), after) ∧
      ((sep.andThen p).times b.pred xs m).outcome after = .ok (.success ws n s) := by
  have hle := b.min_le_max
  by_cases hmax : b.max = 0
  · rw [sepBy_of_max_eq_zero hmax] at h
    cases h
    exact .inl ⟨rfl, rfl, by omega⟩
  have values {vs : List α} {n : Nat} {r : Record} {env₁ : Env σ}
      (h : (p.consFrom ((sep.andThen p).times b.pred) xs i).execute env = (.ok (.success vs n r), env₁)) :
      ∃ v ws m r' s after, vs = v :: ws ∧ (p xs i).execute env = (.ok (.success v m r'), after) ∧
        ((sep.andThen p).times b.pred xs m).outcome after = .ok (.success ws n s) := by
    obtain ⟨o, after, ho, h⟩ := Run.exists_of_bind h
    cases o with
    | failure c r' =>
      obtain ⟨-, c', hc⟩ := of_ofRecord h
      cases hc
    | success v m r' =>
      obtain ⟨o', env₂, ho', h⟩ := Run.exists_of_bind h
      cases o' with
      | failure c s => cases h
      | success ws m' s =>
        cases h
        exact ⟨v, ws, m, r', s, after, rfl, ho, congrArg Prod.fst ho'⟩
  by_cases hmin : 0 < b.min
  · rw [sepBy_of_min_pos hmin] at h
    exact .inr ⟨hmax, values (Prod.ext h rfl)⟩
  · rw [sepBy_of_min_eq_zero hmax (Nat.eq_zero_of_not_pos hmin)] at h
    obtain ⟨o, env₁, ho, h⟩ := Run.exists_of_bind (Prod.ext h rfl)
    cases o with
    | failure c r' =>
      cases h
      exact .inl ⟨rfl, rfl, by omega⟩
    | success ws m s =>
      cases h
      exact .inr ⟨hmax, values ho⟩

/-- A separated repetition finds separated values, as many as its bounds allow. One without a greatest count can
count to one more than the greatest count there is. -/
theorem separated_of_sepBy {vs : List α} (h : (p.sepBy sep b xs i).outcome env = .ok (.success vs n r)) :
    b.min ≤ vs.length ∧ (vs.length ≤ b.max ∨ b.max = unbounded ∧ vs.length = unbounded + 1) ∧
      (vs = [] ∧ n = i ∨ Separated p sep xs env i vs n) := by
  rcases exists_of_sepBy h with ⟨rfl, rfl, hmin⟩ | ⟨hmax, v, ws, m, r', s, after, rfl, hp, hrest⟩
  · exact ⟨hmin.le, .inl (Nat.zero_le _), .inl ⟨rfl, rfl⟩⟩
  obtain ⟨hseparated, hneeded, hcount⟩ := Separated.of_timesFrom hp b.pred.min_le_max hrest
  have hneeded : b.min - 1 ≤ ws.length := hneeded
  refine ⟨by rw [List.length_cons]; omega, ?_, .inr hseparated⟩
  have hcount : ws.length ≤ if b.max = unbounded then unbounded else b.max - 1 := hcount
  rw [List.length_cons]
  split at hcount <;> omega

open Chain in
/-- With parsers that move the cursor on within an input that is short enough, there are never more values than can
be counted. -/
theorem length_le_of_sepBy {steady : Env σ → Prop} {f g : Nat → Except Fault (Result α)} (hp : p.Answers xs steady f)
    (hf : Advances xs.length f) (hq : (sep.andThen p).Answers xs steady g) (hg : Advances xs.length g)
    (hxs : xs.length + 1 < unbounded) (hi : i ≤ xs.length) (henv : steady env) {vs : List α}
    (h : (p.sepBy sep b xs i).outcome env = .ok (.success vs n r)) : vs.length ≤ b.max := by
  have hle := b.min_le_max
  obtain ⟨-, hlength, -⟩ := separated_of_sepBy h
  refine hlength.elim id fun ⟨hopen, _⟩ => ?_
  rcases exists_of_sepBy h with ⟨rfl, -, -⟩ | ⟨-, v, ws, m, r', s, after, rfl, hfirst, hrest⟩
  · exact Nat.zero_le _
  have hvalue : f i = .ok (.success v m r') := (hp.outcome henv i).symm.trans (congrArg Prod.fst hfirst)
  have hm := (hf.within hi hvalue).2
  have hafter : steady after := by
    have := hp.steady_after henv i
    rwa [hfirst] at this
  have hpred : b.pred.isOpen = true := by simp [Bounds.pred, Bounds.isOpen, hopen]
  obtain ⟨k, collected, tried, e, hgo, hends, hmakes⟩ :=
    (hq.makes fun i => [call g i]).exists_timesEnds hg hm b.pred.isOpen b.pred.max b.pred.min ∅
  rw [hpred] at hgo hends
  obtain ⟨hcollects, hvalues, -⟩ := hends.collects hg hm hgo
  have hended : e = .ok (.success ws n s) := ((hmakes [] after hafter).1).symm.trans hrest
  have hlength : ws.length = collected := by
    rw [(hvalues _ _ _ hended).1, length_values hcollects.lasts]
  have hbound : collected ≤ max (b.min - 1) (xs.length - m + 1) := hcollects.le
  rw [List.length_cons]
  omega

end Parser

/-- Building a separated repetition builds its parts, and then checks the bounds. -/
theorem Grammar.execute_build_sepBy {a : Alphabet} {q s q' s' : Grammar a} {env env' env'' : Env (Store a)}
    (hq : q.build.execute env = (.ok q', env')) (hs : s.build.execute env' = (.ok s', env''))
    (bounds : Except Fault Bounds) :
    (Grammar.sepBy q s bounds).build.execute env = (bounds.map fun b => .sepBy q' s' (.ok b), env'') := by
  rw [build, Run.execute_bind, hq]
  show (s.build >>= _).execute env' = _
  rw [Run.execute_bind, hs]
  cases bounds <;> rfl

/-! ## Main statement -/

open Chain in
/-- A separated repetition is built exactly if its bounds are not reversed, and then the bounds of the inner
repetition are neither, nor do they wrap.

With a least count, it reports what a first value reports with a repetition of values after separators, whose bounds
are one less. With none it is the choice between one value at least and no value, and without values it invokes no
parser.

What it finds is a number of values within its bounds, with a separator only where a value follows, so that it ends
where the last value does. -/
theorem sepBy_expands (p : Parser σ ι α) (sep : Parser σ ι β) :
    (∀ (least most : UInt64) {a : Alphabet} {q s q' s' : Grammar a} {env env' env'' : Env (Store a)},
      q.build.execute env = (.ok q', env') → s.build.execute env' = (.ok s', env'') →
        let separated := Grammar.sepBy q s (Bounds.of .sepBy least.toNat most.toNat)
        (separated.build.outcome env = .error (.reversedBounds .sepBy) ↔ most < least) ∧
        (least ≤ most → ∃ b : Bounds, b.min = least.toNat ∧ b.max = most.toNat ∧
          separated.build.execute env = (.ok (.sepBy q' s' (.ok b)), env'') ∧
          (most ≠ 0 →
            Bounds.of .times (Bounds.innerLeast least).toNat (Bounds.innerMost most).toNat = .ok b.pred))) ∧
    ∀ b : Bounds,
      (0 < b.min → ∀ xs i, (do return (← p.sepBy sep b xs i).report) =
        do return (← Parser.combine₂ List.cons p ((sep.andThen p).times b.pred) xs i).report) ∧
      (b.min = 0 → ∀ h : 0 < b.max,
        p.sepBy sep b = Parser.alt [p.sepBy sep ⟨1, b.max, h⟩, Parser.succeed []]) ∧
      (b.max = 0 → p.sepBy sep b = Parser.succeed []) ∧
      ∀ xs i env vs n r, (p.sepBy sep b xs i).outcome env = .ok (.success vs n r) →
        b.min ≤ vs.length ∧ (vs.length ≤ b.max ∨ b.max = unbounded ∧ vs.length = unbounded + 1) ∧
        (vs = [] ∧ n = i ∨ Parser.Separated p sep xs env i vs n) ∧
        ∀ {steady : Env σ → Prop} {f g : Nat → Except Fault (Result α)}, p.Answers xs steady f →
          Advances xs.length f → (sep.andThen p).Answers xs steady g → Advances xs.length g →
          xs.length + 1 < unbounded → i ≤ xs.length → steady env → vs.length ≤ b.max := by
  refine ⟨fun least most a q s q' s' env env' env'' hq hs => ?_, fun b => ⟨fun hmin xs i => ?_, fun hmin h => ?_,
    Parser.sepBy_of_max_eq_zero, fun xs i env vs n r h => ?_⟩⟩
  · intro separated
    have hbuild := Grammar.execute_build_sepBy hq hs (Bounds.of .sepBy least.toNat most.toNat)
    refine ⟨?_, fun hle => ?_⟩
    · rw [Run.outcome, hbuild, UInt64.lt_iff_toNat_lt, ← Bounds.of_eq_error_iff]
      rcases Bounds.of .sepBy least.toNat most.toNat with cause | b
      · simp [Except.map]
      · simp [Except.map]
    · have hbounds : Bounds.of .sepBy least.toNat most.toNat =
          .ok ⟨least.toNat, most.toNat, UInt64.le_iff_toNat_le.1 hle⟩ := Bounds.of_eq_ok_iff.2 ⟨rfl, rfl⟩
      refine ⟨_, rfl, rfl, by rw [hbuild, hbounds]; rfl, fun hne => ?_⟩
      exact Bounds.of_eq_ok_iff.2 (Bounds.inner_eq rfl rfl fun hzero => hne (UInt64.toNat_inj.1 hzero))
  · exact Parser.sepBy_reports p sep hmin xs i
  · exact Parser.sepBy_eq_alt p sep hmin h
  · obtain ⟨hleast, hmost, hseparated⟩ := Parser.separated_of_sepBy h
    exact ⟨hleast, hmost, hseparated, fun hp hf hq hg hxs hi henv =>
      Parser.length_le_of_sepBy hp hf hq hg hxs hi henv h⟩

/-- Digits with commas between them: the comma at the end is not consumed, and the digit that is missing after it is
reported. -/
theorem sepBy_expands_of_digits :
    let p : Parser Unit UInt8 UInt8 := .satisfy .digit
    let sep : Parser Unit UInt8 UInt8 := .symbol 44
    let b : Bounds := ⟨1, unbounded, by decide⟩
    let xs : Bytes := [49, 44, 50, 44]
    let env : Env Unit := ⟨.ofLevel .off, ()⟩
    let digit : Grammar .bytes := .one .digit
    let comma : Grammar .bytes := .one (.symbol 44)
    0 < b.min ∧
      (p.sepBy sep b xs 0).outcome env = .ok (.success [49, 50] 3 (.raised 4 (.singleton (ascii "a digit")))) ∧
      (Parser.combine₂ List.cons p ((sep.andThen p).times b.pred) xs 0 >>= fun o => pure o.report).outcome env =
        .ok (some ([49, 50], 3), .raised 4 (.singleton (ascii "a digit"))) ∧
      Parser.Separated p sep xs env 0 [49, 50] 3 ∧
      ∀ env, (Grammar.sepBy digit comma (Bounds.of .sepBy 2 1)).build.outcome env =
        .error (.reversedBounds .sepBy) := by
  intro p sep b xs env digit comma
  obtain ⟨hbuild, hexpands⟩ := sepBy_expands p sep
  obtain ⟨hreports, -, -, hfinds⟩ := hexpands b
  have hrun : (p.sepBy sep b xs 0).outcome env =
      .ok (.success [49, 50] 3 (.raised 4 (.singleton (ascii "a digit")))) := by decide
  refine ⟨Nat.one_pos, hrun, ?_, ?_, fun env => ?_⟩
  · rw [← hreports Nat.one_pos xs 0, Run.outcome_bind_pure, hrun]
    rfl
  · exact (hfinds _ _ _ _ _ _ hrun).2.2.1.resolve_left nofun
  · exact (hbuild 2 1 (Run.execute_pure _ env) (Run.execute_pure _ env)).1.2 (by decide)

end Furthest
