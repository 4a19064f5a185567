import Furthest.Proofs.Outcomes
import Furthest.Proofs.RepetitionLimit
import Furthest.Proofs.Sequencing

/-!
# Repetitions split and join

A repetition of `k` values and then of some more reports as one repetition of all of them, with both counts greater by
`k`. The one loop hands its record and its counts on where the two loops begin anew: `Parser.timesFrom_add` has that of
loops without an end of their own, and `Parser.handsOn_timesFrom` that the second one may begin without a record.

Where no greatest count is given, one loop ends at a match that consumes nothing and two do not. So there the parser has
to consume what it matches (`Parser.Consumes`); then the input ends the repetition before the greatest count does.

Main statement: `repetitions_split`.
-/

namespace Furthest

variable {σ ι α β : Type} {a : Alphabet}

namespace Parser

/-- Over an input, the parser never succeeds without consuming. -/
def Consumes (p : Parser σ ι α) (xs : List ι) : Prop :=
  ∀ i env v n r, (p xs i).outcome env = .ok (.success v n r) → n ≠ i

theorem consumes_satisfy (c : ItemClass ι) (xs : List ι) : (satisfy c : Parser σ ι ι).Consumes xs := by
  intro i env v n r h
  unfold satisfy at h
  rcases hx : xs[i]? with _ | x <;> rw [hx] at h
  · cases h
  · by_cases hc : c.accepts x
    · simp only [hc, if_true] at h
      cases h
      exact Nat.succ_ne_self i
    · simp only [hc] at h
      cases h

theorem Consumes.tryMap {p : Parser σ ι α} {xs : List ι} (hp : p.Consumes xs) (f : α → Except Fault β) :
    (p.tryMap f).Consumes xs := by
  intro i env w n r h
  obtain ⟨o, after, ho, h⟩ := Run.exists_of_bind (Prod.ext h rfl)
  cases o with
  | success v m s =>
    obtain ⟨w', after, -, h⟩ := Run.exists_of_bind h
    obtain ⟨⟩ : Result.success w' m s = .success w n r := Except.ok.inj (congrArg Prod.fst h)
    exact hp i env v n r (congrArg Prod.fst ho)
  | failure c s =>
    obtain ⟨k, -, hfailure⟩ := Result.ofRecord_eq_ok_iff.1 (congrArg Prod.fst h)
    cases hfailure

/-! ## One loop and two -/

section

variable (p : Parser σ ι α) (isOpen : Bool) (xs : List ι)

/-- While values are needed, a failure of the parser is one of the repetition. -/
theorem timesFrom_needed (remaining needed i : Nat) (r : Record) :
    p.timesFrom isOpen xs (remaining + 1) (needed + 1) i r = (do
      ((← p xs i).aggregate r).proceed fun v n r =>
        if n = i ∧ isOpen ∧ needed + 1 ≤ 1 then return .success [v] n r
        else return (← p.timesFrom isOpen xs remaining needed n r).map (v :: ·)) := by
  rw [timesFrom]
  refine bind_congr fun o => ?_
  cases o with
  | success v n t => rfl
  | failure c t => rfl

/-- A loop that only its counts end goes through `k` values, and then goes on as it would have begun. -/
theorem timesFrom_add (k remaining needed i : Nat) (r : Record) :
    p.timesFrom false xs (k + remaining) (k + needed) i r = (do
      (← p.timesFrom false xs k k i r).proceed fun vs n s =>
        return (← p.timesFrom false xs remaining needed n s).map (vs ++ ·)) := by
  induction k generalizing i r with
  | zero =>
    simp only [Nat.zero_add, timesFrom, pure_bind, Result.proceed, List.nil_append, Result.map_id', bind_pure]
  | succ k ih =>
    rw [Nat.succ_add, Nat.succ_add, timesFrom_needed, timesFrom_needed]
    simp only [Bool.false_eq_true, false_and, and_false, if_false, ih, bind_assoc, Result.proceed_proceed, pure_bind,
      Result.map_proceed, Result.proceed_map, Result.map_map, List.cons_append]

end

/-- A loop hands on the record that it is handed. -/
theorem handsOn_timesFrom (e : Combination σ ι α) (isOpen : Bool) (xs : List ι) (remaining needed i : Nat) :
    Run.HandsOn (e.parser.timesFrom isOpen xs remaining needed i) := by
  induction remaining generalizing needed i with
  | zero => exact .success [] i
  | succ remaining ih =>
    cases needed with
    | zero =>
      intro s r
      rw [timesFrom_merge]
      exact .refl _
    | succ needed =>
      rw [funext (timesFrom_needed e.parser isOpen xs remaining needed i)]
      refine .step e (fun v n => ?_) xs i
      split
      · exact .success [v] n
      · exact (ih needed n).map (v :: ·)

/-! ## What ends a loop -/

section

variable {p : Parser σ ι α} {xs : List ι}

/-- Where each match consumes, a loop needs no end of its own. -/
theorem Consumes.timesFrom_eq (hp : p.Consumes xs) (isOpen : Bool) (remaining needed i : Nat) (r : Record) :
    p.timesFrom isOpen xs remaining needed i r = p.timesFrom false xs remaining needed i r := by
  induction remaining generalizing needed i r with
  | zero => rfl
  | succ remaining ih =>
    refine Run.bind_congr_of_outcome fun env o ho => ?_
    cases o with
    | failure c t => rfl
    | success v n t =>
      have hn : n ≠ i := hp i env v n t ho
      simp only [Result.aggregate, hn, false_and, if_false, ih]

/-- Where each match consumes, the greatest count plays no part if it is more than what is left of the input. -/
theorem Consumes.timesFrom_remaining {e : Combination σ ι α} (he : e.parser.Consumes xs) {remaining remaining' i : Nat}
    (h : xs.length - i < remaining) (h' : xs.length - i < remaining') (needed : Nat) (r : Record) :
    e.parser.timesFrom false xs remaining needed i r = e.parser.timesFrom false xs remaining' needed i r := by
  induction remaining generalizing remaining' needed i r with
  | zero => omega
  | succ remaining ih =>
    obtain ⟨remaining', rfl⟩ := Nat.exists_eq_succ_of_ne_zero (Nat.ne_zero_of_lt h')
    refine Run.bind_congr_of_outcome fun env o ho => ?_
    cases o with
    | failure c t => rfl
    | success v n t =>
      have hn : n ≠ i := he i env v n t ho
      obtain ⟨hle, hmax⟩ := (e.advances_max xs i env).within (Nat.le_max_left ..) ho
      have hleft := ih (show xs.length - n < remaining by omega) (show xs.length - n < remaining' by omega)
      simp only [Result.aggregate, hleft]

end

/-! ## Repetitions -/

variable (e : Combination σ ι α) {xs : List ι} {k : Nat} {b : Bounds}

/-- Two repetitions that only their counts end report as one loop. -/
theorem times_add_reports (hk : ∀ i, e.parser.times (.exactly k) xs i = e.parser.timesFrom false xs k k i ∅)
    (hb : ∀ i, e.parser.times b xs i = e.parser.timesFrom false xs b.max b.min i ∅) (i : Nat) :
    (combine₂ (· ++ ·) (e.parser.times (.exactly k)) (e.parser.times b) xs i).SameReport
      (e.parser.timesFrom false xs (k + b.max) (k + b.min) i ∅) := by
  have hrest (n : Nat) :
      Run.SameReport ((e.times b).parser xs n) (e.parser.timesFrom false xs b.max b.min n ∅) := .of_eq (hb n)
  have hcombine := combine₂_reports (e := e.times (.exactly k)) (i := i) hrest
    (handsOn_timesFrom e false xs b.max b.min) (· ++ ·)
  rw [timesFrom_add, ← hk]
  exact hcombine

theorem times_add_bounded (hmax : k + b.max < unbounded) :
    (combine₂ (· ++ ·) (e.parser.times (.exactly k)) (e.parser.times b)).ReportsAs
      (e.parser.times ⟨k + b.min, k + b.max, Nat.add_le_add_left b.min_le_max k⟩) := fun xs i => by
  have hopen {c : Bounds} (hc : c.max < unbounded) (i : Nat) :
      e.parser.times c xs i = e.parser.timesFrom false xs c.max c.min i ∅ := by
    rw [times, Bounds.isOpen, decide_eq_false (Nat.ne_of_lt hc)]
  have hsum := hopen (c := ⟨k + b.min, k + b.max, Nat.add_le_add_left b.min_le_max k⟩) hmax i
  rw [hsum]
  exact times_add_reports e (hopen (c := .exactly k) (by show k < _; omega)) (hopen (by omega)) i

theorem times_add_unbounded (he : e.parser.Consumes xs) (hxs : xs.length < unbounded) {least : Nat}
    (hleast : k + least ≤ unbounded) (i : Nat) :
    (combine₂ (· ++ ·) (e.parser.times (.exactly k)) (e.parser.times ⟨least, unbounded, by omega⟩) xs i).SameReport
      (e.parser.times ⟨k + least, unbounded, hleast⟩ xs i) := by
  have hopen (c : Bounds) (i : Nat) : e.parser.times c xs i = e.parser.timesFrom false xs c.max c.min i ∅ :=
    he.timesFrom_eq c.isOpen c.max c.min i ∅
  rw [hopen, he.timesFrom_remaining (show xs.length - i < unbounded by omega)
    (show xs.length - i < k + unbounded by omega)]
  exact times_add_reports e (hopen _) (hopen _) i

end Parser

/-! ## Described repetitions -/

namespace Grammar

variable (p : Grammar a) (limit : Nat) {min max max' : Nat}

theorem parserWithin_timesOf (h : min ≤ max) : (timesOf p min max).parserWithin (limit + 1) =
    ((p.parserWithin (limit + 1)).times ⟨min, max, h⟩).map .list := by
  show bounded (Bounds.of .times min max) (p.parserWithin (limit + 1)).times = _
  rw [Bounds.of, dif_pos h]
  rfl

/-- Described repetitions split where the parsers that they stand for do. -/
theorem timesOf_add_reports {k : Nat} (h : min ≤ max) (hk : k + min ≤ max') {xs : List a.Carrier} {i : Nat}
    (hsplit : ∀ e : Combination (Store a) a.Carrier Value, e.parser = p.parserWithin limit →
      (Parser.combine₂ (· ++ ·) (e.parser.times (.exactly k)) (e.parser.times ⟨min, max, h⟩) xs i).SameReport
        (e.parser.times ⟨k + min, max', hk⟩ xs i)) :
    ((plus (timesOf p k k) (timesOf p min max) Value.addLists).parserWithin limit xs i).SameReport
      ((timesOf p (k + min) max').parserWithin limit xs i) := by
  cases limit with
  | zero => exact .refl _
  | succ limit =>
    obtain ⟨e, -, he⟩ := combined_parserWithin (limit + 1) p
    have hplus := plus_addLists_reports limit (p := timesOf p k k) (q := timesOf p min max)
      (e := e.times (.exactly k)) (f := e.times ⟨min, max, h⟩)
      (by rw [parserWithin_timesOf p limit (Nat.le_refl k), ← he]; rfl)
      (by rw [parserWithin_timesOf p limit h, ← he]; rfl)
    rw [parserWithin_timesOf p limit hk, ← he]
    exact (hplus xs i).trans (Parser.tryMap_congr (hsplit e he) _)

end Grammar

/-! ## Main statement -/

/-- A repetition of exactly `k` values and then of some more reports as one repetition, with both counts greater by `k`:
whatever the parser consumes if there is a greatest count, and where each match consumes if there is none. The input is
shorter than the greatest count there is. Described repetitions split alike, to every depth in which parsers are
entered. A repetition in a half-open range is one up to the count before its upper end, and cannot be built if the range
is empty. -/
theorem repetitions_split :
    (∀ (e : Combination σ ι α) (k : Nat) (b : Bounds), k + b.max < unbounded →
      (Parser.combine₂ (· ++ ·) (e.parser.times (.exactly k)) (e.parser.times b)).ReportsAs
        (e.parser.times ⟨k + b.min, k + b.max, Nat.add_le_add_left b.min_le_max k⟩)) ∧
    (∀ (e : Combination σ ι α) (k least : Nat) (hleast : k + least ≤ unbounded) (xs : List ι),
      xs.length < unbounded → e.parser.Consumes xs → ∀ i,
        (Parser.combine₂ (· ++ ·) (e.parser.times (.exactly k))
          (e.parser.times ⟨least, unbounded, (Nat.le_add_left least k).trans hleast⟩) xs i).SameReport
          (e.parser.times ⟨k + least, unbounded, hleast⟩ xs i)) ∧
    (∀ (p : Grammar a) (limit k min max : Nat), min ≤ max → k + max < unbounded →
      ((Grammar.plus (.timesOf p k k) (.timesOf p min max) Value.addLists).parserWithin limit).ReportsAs
        ((Grammar.timesOf p (k + min) (k + max)).parserWithin limit)) ∧
    (∀ (p : Grammar a) (limit k least : Nat), k + least ≤ unbounded → ∀ xs : List a.Carrier,
      xs.length < unbounded → (p.parserWithin limit).Consumes xs → ∀ i,
        ((Grammar.plus (.timesOf p k k) (.timesOf p least unbounded) Value.addLists).parserWithin limit xs i).SameReport
          ((Grammar.timesOf p (k + least) unbounded).parserWithin limit xs i)) ∧
    ∀ (p : Grammar a) (lower upper : Nat),
      (lower < upper → Grammar.timesIn p lower upper = Grammar.timesOf p lower (upper - 1)) ∧
      (upper ≤ lower → (Grammar.timesIn p lower upper).build = do
        let _ ← p.build
        Run.giveUp .emptyRange) := by
  refine ⟨fun e k b => Parser.times_add_bounded e, fun e k least hleast xs hxs he i =>
    Parser.times_add_unbounded e he hxs hleast i, fun p limit k min max h hmax xs i => ?_,
    fun p limit k least hleast xs hxs hp i => ?_, fun p lower upper => ⟨fun h => ?_, fun h => ?_⟩⟩
  · exact p.timesOf_add_reports limit h (Nat.add_le_add_left h k) fun e _ =>
      Parser.times_add_bounded e (b := ⟨min, max, h⟩) hmax xs i
  · exact p.timesOf_add_reports limit (by omega) hleast fun e he =>
      Parser.times_add_unbounded e (he ▸ hp) hxs hleast i
  · rw [Grammar.timesIn, Grammar.timesOf, Bounds.ofRange, dif_pos h, Bounds.of, dif_pos (by omega)]
  · rw [Grammar.timesIn, Bounds.ofRange, dif_neg (Nat.not_lt.2 h), Grammar.build]
    rfl

/-- An item or none, as a part that may match nothing. With a greatest count the repetition of it splits, also where it
consumes nothing; without one it does not, while that of the item itself does. -/
theorem repetitions_split_of_optional :
    let symbol : Combination Unit UInt8 UInt8 := .primitive (.satisfy (.only 97 (ascii "a")))
    let e := symbol.times (.atMost 1)
    let described : Grammar .bytes := .one (.only 97 (ascii "a"))
    let outcome {α : Type} (p : Parser Unit UInt8 α) (xs : Bytes) := (p xs 0).outcome ⟨.ofLevel .off, ()⟩
    let two := Parser.combine₂ (· ++ ·) (e.parser.times (.exactly 1)) (e.parser.times ⟨1, 2, by decide⟩)
    (1 + 2 < unbounded ∧ two.ReportsAs (e.parser.times ⟨2, 3, by decide⟩) ∧
      outcome two [97] = .ok (.success [[97], [], []] 1 (.raised 1 (.singleton (ascii "a"))))) ∧
    (1 + 0 ≤ unbounded ∧ symbol.parser.Consumes [97, 97] ∧
      (Parser.combine₂ (· ++ ·) (symbol.parser.times (.exactly 1)) symbol.parser.many [97, 97] 0).SameReport
        (symbol.parser.oneOrMore [97, 97] 0)) ∧
    (outcome (Parser.combine₂ (· ++ ·) (e.parser.times (.exactly 1)) e.parser.many) []).map Result.value? ≠
      (outcome e.parser.oneOrMore []).map Result.value? ∧
    ((Grammar.plus (.timesOf described 1 1) (.timesOf described 1 2) Value.addLists).parserWithin 1).ReportsAs
      ((Grammar.timesOf described 2 3).parserWithin 1) ∧
    ((described.parserWithin 1).Consumes [97, 97] ∧
      ((Grammar.plus (.timesOf described 1 1) described.many Value.addLists).parserWithin 1 [97, 97] 0).SameReport
        ((Grammar.timesOf described 1 unbounded).parserWithin 1 [97, 97] 0)) ∧
    described.timesIn 0 2 = described.timesOf 0 1 ∧
    (described.timesIn 2 2).build = (do
      let _ ← described.build
      Run.giveUp .emptyRange) := by
  intro symbol e described outcome two
  obtain ⟨bounded, -, boundedDescribed, unboundedDescribed, range⟩ := @repetitions_split Unit UInt8 (List UInt8) .bytes
  obtain ⟨-, unbounded, -⟩ := @repetitions_split Unit UInt8 UInt8 .bytes
  have hsymbol : symbol.parser.Consumes [97, 97] := Parser.consumes_satisfy _ _
  have hdescribed : (described.parserWithin 1).Consumes [97, 97] := (Parser.consumes_satisfy _ _).tryMap _
  exact ⟨⟨by decide, bounded e 1 ⟨1, 2, by decide⟩ (by decide), by decide⟩,
    ⟨by decide, hsymbol, unbounded symbol 1 0 (by decide) _ (by decide) hsymbol 0⟩, by decide,
    boundedDescribed described 1 1 1 2 (by decide) (by decide),
    ⟨hdescribed, unboundedDescribed described 1 1 0 (by decide) _ (by decide) hdescribed 0⟩,
    (range described 0 2).1 (by decide), (range described 2 2).2 (by decide)⟩

end Furthest
