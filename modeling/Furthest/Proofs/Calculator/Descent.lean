import Mathlib.Data.Prod.Lex
import Furthest.Proofs.Calculator.Totality

/-!
# The rules of the calculator descend

`Rule.body` is what a rule does with the parsers that it invokes for the rules in it. A rule at a cursor has a
`Rule.measure`: how much input is left there, and the rank of the rule. A body looks at other rules only at lesser
measures, in lexicographic order (`Rule.body_congr`): rules that are invoked at the same cursor have lesser ranks,
and the others come after a byte that was consumed. So the equations of the grammar have one solution, and factors
that nest up to some depth are that solution where the measure is less than the depth (`Rule.body_within`).

Main statement: `rules_descend`.
-/

namespace Furthest

variable {σ ι α β γ ν : Type}

/-! ## Parsers that agree where they are invoked -/

/-- What follows a run that lands between two cursors has to be known for such outcomes alone. -/
theorem Run.Lands.bind_congr {x : Run σ (Result α)} {least most : Nat} (hx : x.Lands least most)
    {f f' : Result α → Run σ β} (h : ∀ o, o.Lands least most → f' o = f o) : x >>= f' = x >>= f := by
  obtain ⟨o, ho, hl⟩ := hx
  exact Run.bind_congr_of_outcome fun _ _ hv => h _ (ho.eq_of_outcome hv ▸ hl)

namespace Parser.Concludes

variable {p p' : Parser σ ι α} {q q' : Parser σ ι β} {xs : List ι} {i m : Nat}

theorem pair_congr (hc : p.Concludes xs i m) (hp : p' xs i = p xs i)
    (hq : ∀ n, m ≤ n → n ≤ max i xs.length → q' xs n = q xs n) : p'.pair q' xs i = p.pair q xs i := by
  unfold Parser.pair
  rw [hp]
  refine hc.bind_congr fun o ho => ?_
  cases ho with
  | success hm hn => simp only [Result.proceed, hq _ hm hn]
  | failure h => rfl

theorem andThen_congr (hc : p.Concludes xs i m) (hp : p' xs i = p xs i)
    (hq : ∀ n, m ≤ n → n ≤ max i xs.length → q' xs n = q xs n) : p'.andThen q' xs i = p.andThen q xs i := by
  unfold Parser.andThen
  rw [hp]
  refine hc.bind_congr fun o ho => ?_
  cases ho with
  | success hm hn => simp only [Result.proceed, hq _ hm hn]
  | failure h => rfl

/-- The second parser is the same. -/
theorem skip_congr (hp : p' xs i = p xs i) (q : Parser σ ι β) : p'.skip q xs i = p.skip q xs i := by
  unfold Parser.skip
  rw [hp]

theorem map_congr (hp : p' xs i = p xs i) (f : α → β) : p'.map f xs i = p.map f xs i := by
  unfold Parser.map Parser.tryMap
  rw [hp]

theorem combine₂_congr (f : α → β → γ) (hc : p.Concludes xs i m) (hp : p' xs i = p xs i)
    (hq : ∀ n, m ≤ n → n ≤ max i xs.length → q' xs n = q xs n) :
    Parser.combine₂ f p' q' xs i = Parser.combine₂ f p q xs i :=
  map_congr (hc.pair_congr hp hq) _

theorem traced_congr (hp : p' xs i = p xs i) (name : Bytes) : p'.traced name xs i = p.traced name xs i := by
  unfold Parser.traced
  rw [hp]

theorem orElse_congr {q q' : Parser σ ι α} (hp : p' xs i = p xs i) (hq : q' xs i = q xs i) :
    p'.orElse q' xs i = p.orElse q xs i := by
  unfold Parser.orElse Parser.alt
  rw [altFrom, altFrom, hp]
  refine bind_congr fun o => ?_
  cases o with
  | success v n r => rfl
  | failure c r => simp only [Result.aggregate, altFrom, hq]

theorem timesFrom_congr {most : Nat} (hc : ∀ n, i ≤ n → n ≤ most → (p xs n).Lands n most)
    (hp : ∀ n, i ≤ n → n ≤ most → p' xs n = p xs n) (isOpen : Bool) (remaining needed : Nat) {n : Nat} (hi : i ≤ n)
    (hn : n ≤ most) (r : Record) :
    p'.timesFrom isOpen xs remaining needed n r = p.timesFrom isOpen xs remaining needed n r := by
  induction remaining generalizing needed n r with
  | zero => rfl
  | succ remaining ih =>
    rw [Parser.timesFrom, Parser.timesFrom, hp n hi hn]
    refine (hc n hi hn).bind_congr fun o ho => ?_
    cases ho with
    | failure h => rfl
    | success hl hm => simp only [Result.aggregate, ih _ (hi.trans hl) hm]

theorem many_congr (hc : ∀ n, i ≤ n → n ≤ max i xs.length → p.Concludes xs n n)
    (hp : ∀ n, i ≤ n → n ≤ max i xs.length → p' xs n = p xs n) : p'.many xs i = p.many xs i :=
  timesFrom_congr (fun n hi hn => (hc n hi hn).within hn) hp _ _ _ (Nat.le_refl i) (Nat.le_max_left ..) ∅

theorem optional_congr (hc : ∀ n, i ≤ n → n ≤ max i xs.length → p.Concludes xs n n)
    (hp : ∀ n, i ≤ n → n ≤ max i xs.length → p' xs n = p xs n) : p'.optional xs i = p.optional xs i :=
  map_congr (timesFrom_congr (fun n hi hn => (hc n hi hn).within hn) hp _ _ _ (Nat.le_refl i)
    (Nat.le_max_left ..) ∅) _

theorem token_congr {p p' : Parser σ UInt8 α} {xs : Bytes} (hp : ∀ n, i ≤ n → n ≤ max i xs.length → p' xs n = p xs n) :
    p'.token xs i = p.token xs i := by
  have blanks : (Parser.space.many : Parser σ UInt8 Bytes).Concludes xs i i :=
    many fun j _ _ => (satisfy .blank xs j).mono (Nat.le_succ j)
  exact skip_congr (blanks.andThen_congr rfl hp) _

end Parser.Concludes

/-! ## What a rule invokes -/

namespace Calculator

open Furthest.Parser Furthest.Parser.Concludes

namespace Rule

/-- What a rule does, given what to invoke for the rules in it. -/
def body (A : Arithmetic ν) (calls : Rule → Parser σ UInt8 ν) : Rule → Parser σ UInt8 ν
  | number => Calculator.number A
  | expression => (chainOf A (ascii "+-") (calls term)).traced (ascii "expression")
  | term => (chainOf A (ascii "*/") (calls factor)).traced (ascii "term")
  | factor => (combine₂ A.signed (token (symbol 45)).optional (calls power)).traced (ascii "factor")
  | power =>
    (combine₂ A.raised (calls primary) ((token (symbol 94)).andThen (calls factor)).optional).traced (ascii "power")
  | primary =>
    ((token (calls number)).orElse (((token (symbol 40)).andThen (calls expression)).skip (token (symbol 41)))).traced
      (ascii "primary")
  | calculator => token (calls expression)

/-- The place of a rule among those that are invoked at one cursor: a rule invokes rules of lesser ranks there. -/
def rank : Rule → Nat
  | number => 0
  | primary => 1
  | power => 2
  | factor => 3
  | term => 4
  | expression => 5
  | calculator => 6

/-- How much of an input of some size is left at a cursor, and the rank of a rule that is invoked there. -/
def measure (r : Rule) (size i : Nat) : ℕ ×ₗ ℕ := toLex (size - i, r.rank)

variable {r r' : Rule} {size i j : Nat}

theorem measure_lt_of_rank (hr : r'.rank < r.rank) (hij : i ≤ j) : r'.measure size j < r.measure size i := by
  have hleft : size - j < size - i ∨ size - j = size - i := by omega
  exact Prod.Lex.toLex_lt_toLex.2 (hleft.imp_right fun h => ⟨h, hr⟩)

theorem measure_lt_of_lt (r r' : Rule) (hij : i < j) (hj : j ≤ max i size) :
    r'.measure size j < r.measure size i :=
  Prod.Lex.toLex_lt_toLex.2 (.inl (by omega))

variable {A : Arithmetic ν} {calls calls' : Rule → Parser σ UInt8 ν} {xs : Bytes}

theorem chainOf_congr {operand operand' : Parser σ UInt8 ν} (operators : Bytes)
    (hc : Consumes operand xs i (max i xs.length))
    (h : ∀ n, i ≤ n → n ≤ max i xs.length → operand' xs n = operand xs n) :
    chainOf A operators operand' xs i = chainOf A operators operand xs i := by
  have operator (j : Nat) := consumes_token (σ := σ) (.oneOf operators) xs j
  refine combine₂_congr _ (hc i (Nat.le_refl i) (Nat.le_max_left ..)) (h i (Nat.le_refl i) (Nat.le_max_left ..))
    fun n hi hn => ?_
  refine many_congr (fun j hj hm => ?_) fun j hj hm => ?_
  · refine (Concludes.pair (operator j) fun n hn hm => ?_ : (opPair _ _).Concludes xs j j)
    exact (hc n (by omega) (by omega)).mono (by omega)
  · exact (operator j).pair_congr rfl fun n hn hm => h n (by omega) (by omega)

/-- The body of a rule looks at other rules only at lesser measures. -/
theorem body_congr (r : Rule) (hc : ∀ r' j, (calls r').Concludes xs j (j + 1))
    (h : ∀ r' j, r'.measure xs.length j < r.measure xs.length i → calls' r' xs j = calls r' xs j) :
    r.body A calls' xs i = r.body A calls xs i := by
  have weak (r' : Rule) (j : Nat) : (calls r').Concludes xs j j := (hc r' j).mono (Nat.le_succ j)
  have below (r' : Rule) (hr : r'.rank < r.rank) (j : Nat) (hij : i ≤ j) : calls' r' xs j = calls r' xs j :=
    h r' j (measure_lt_of_rank hr hij)
  have later (r' : Rule) (j : Nat) (hij : i < j) (hj : j ≤ max i xs.length) : calls' r' xs j = calls r' xs j :=
    h r' j (measure_lt_of_lt r r' hij hj)
  cases r with
  | number => rfl
  | expression =>
    exact traced_congr (chainOf_congr _ (fun n _ _ => hc .term n) fun n hi _ => below .term (by decide) n hi) _
  | term =>
    exact traced_congr (chainOf_congr _ (fun n _ _ => hc .factor n) fun n hi _ => below .factor (by decide) n hi) _
  | factor =>
    have sign : (token (symbol 45) : Parser σ UInt8 UInt8).optional.Concludes xs i i :=
      .optional fun n _ _ => (consumes_token _ xs n).mono (Nat.le_succ n)
    exact traced_congr (sign.combine₂_congr _ rfl fun n hi _ => below .power (by decide) n hi) _
  | power =>
    refine traced_congr ((hc .primary i).combine₂_congr _ (below .primary (by decide) i (Nat.le_refl i))
      fun n hi hn => ?_) _
    refine optional_congr (fun j hj hm => ?_) fun j hj hm => ?_
    · exact .andThen (consumes_token _ xs j) fun m hm _ => (weak .factor m).mono (by omega)
    · exact (consumes_token _ xs j).andThen_congr rfl fun m hm hl => later .factor m (by omega) (by omega)
  | primary =>
    refine traced_congr (orElse_congr (token_congr fun n hi _ => below .number (by decide) n hi) ?_) _
    exact skip_congr ((consumes_token _ xs i).andThen_congr rfl fun n hi hn => later .expression n hi hn) _
  | calculator => exact token_congr fun n hi _ => below .expression (by decide) n hi

/-! ## The rules solve their equations -/

/-- The parser of a rule over given factors. -/
def overFactors (A : Arithmetic ν) (inner : Parser σ UInt8 ν) : Rule → Parser σ UInt8 ν
  | number => Calculator.number A
  | expression => expressionOf A inner
  | term => termOf A inner
  | factor => inner
  | power => powerOf A inner
  | primary => primaryOf A inner
  | calculator => token (expressionOf A inner)

/-- A rule over given factors invokes rules over them, unless it is a factor itself. -/
theorem overFactors_eq_body (A : Arithmetic ν) (inner : Parser σ UInt8 ν) (hr : r ≠ .factor) :
    r.overFactors A inner = r.body A fun r' => r'.overFactors A inner := by
  cases r with
  | factor => exact absurd rfl hr
  | _ => rfl

theorem parser_eq_overFactors (A : Arithmetic ν) (r : Rule) :
    (r.parser A : Parser σ UInt8 ν) = r.overFactors A (Calculator.factor A) := by
  cases r <;> rfl

/-- A factor does not look at factors that nest deeper than there is input left. -/
theorem measure_le_of_depth {depth : Nat} (h : size - i ≤ depth) :
    Rule.factor.measure size i ≤ toLex (depth, Rule.factor.rank) :=
  Prod.Lex.toLex_le_toLex.2 ((Nat.lt_or_eq_of_le h).imp_right fun h => ⟨h, Nat.le_refl _⟩)

/-- Over factors that nest up to some depth, a body does what it does with the rules, where the measure is not
greater than the depth. -/
theorem body_within (A : Arithmetic ν) (xs : Bytes) (r : Rule) (i depth : Nat)
    (h : r.measure xs.length i ≤ toLex (depth, Rule.factor.rank)) :
    r.body A (fun r' => r'.overFactors A (factorWithin A depth) : Rule → Parser σ UInt8 ν) xs i =
      r.body A (fun r' => r'.parser A) xs i := by
  induction hm : r.measure xs.length i using WellFoundedLT.induction generalizing r i depth with
  | ind m ih =>
    subst hm
    refine r.body_congr (fun r' j => r'.concludes A xs j) fun r' j hlt => ?_
    have hless := hlt.trans_le h
    by_cases hr : r' = .factor
    · subst hr
      have hleft : xs.length - j < depth := by
        rcases Prod.Lex.toLex_lt_toLex.1 hless with h | ⟨-, h⟩
        · exact h
        · exact absurd h (Nat.lt_irrefl _)
      obtain ⟨depth, rfl⟩ := Nat.exists_eq_succ_of_ne_zero (Nat.ne_of_gt (Nat.zero_lt_of_lt hleft))
      -- both are the body of a factor, over factors that nest one level less
      have hwithin := ih _ hlt .factor j depth (measure_le_of_depth (Nat.le_of_lt_succ hleft)) rfl
      have hall := ih _ hlt .factor j (xs.length - j) (measure_le_of_depth (Nat.le_refl _)) rfl
      exact hwithin.trans hall.symm
    · have hbody := ih _ hlt r' j depth hless.le rfl
      simp only [parser_eq_overFactors] at hbody ⊢
      rw [overFactors_eq_body A _ hr, overFactors_eq_body A _ hr]
      exact hbody

/-- Every rule does what its body does with the rules in it. -/
theorem parser_eq_body (A : Arithmetic ν) (r : Rule) (xs : Bytes) (i : Nat) :
    (r.parser A : Parser σ UInt8 ν) xs i = r.body A (fun r' => r'.parser A) xs i := by
  by_cases hr : r = .factor
  · subst hr
    exact body_within A xs .factor i (xs.length - i) (measure_le_of_depth (Nat.le_refl _))
  · simp only [parser_eq_overFactors]
    rw [overFactors_eq_body A _ hr]

end Rule

/-! ## Main statement -/

open Rule in
/-- Every rule ends at every cursor, in every environment and without a fault; where it succeeds it has consumed,
and no more than there is. It looks at other rules only where less input is left, or as much and the rank is less:
parsers that answer there as the rules do will serve it, whatever they do elsewhere. So the rules are the one
solution of the equations of the grammar. -/
theorem rules_descend (A : Arithmetic ν) (xs : Bytes) :
    (∀ (r : Rule) (i : Nat) (env : Env σ), ∃ o, (r.parser A xs i).outcome env = .ok o ∧
      ∀ v n f, o = .success v n f → i + 1 ≤ n ∧ n ≤ xs.length) ∧
    (∀ (calls : Rule → Parser σ UInt8 ν) (r : Rule) (i : Nat),
      (∀ r' j, r'.measure xs.length j < r.measure xs.length i → calls r' xs j = r'.parser A xs j) →
        r.body A calls xs i = r.parser A xs i) ∧
    ∀ calls : Rule → Parser σ UInt8 ν, (∀ r i, calls r xs i = r.body A calls xs i) →
      ∀ r i, calls r xs i = r.parser A xs i := by
  have descends (calls : Rule → Parser σ UInt8 ν) (r : Rule) (i : Nat)
      (h : ∀ r' j, r'.measure xs.length j < r.measure xs.length i → calls r' xs j = r'.parser A xs j) :
      r.body A calls xs i = r.parser A xs i := by
    rw [parser_eq_body]
    exact r.body_congr (fun r' j => r'.concludes A xs j) h
  refine ⟨fun r i env => ?_, descends, fun calls hcalls r i => ?_⟩
  · obtain ⟨o, ho, hl⟩ := r.concludes (σ := σ) A xs i
    refine ⟨o, ho env, fun v n f h => ?_⟩
    subst h
    cases hl with
    | success hi hn => omega
  · induction hm : r.measure xs.length i using WellFoundedLT.induction generalizing r i with
    | ind m ih =>
      subst hm
      rw [hcalls]
      exact descends calls r i fun r' j hlt => ih _ hlt r' j rfl

open Rule in
/-- A primary in parentheses is served by rules that are given up at its own cursor, but for numbers. -/
theorem rules_descend_of_parenthesis :
    let A : Arithmetic Int := ⟨fun d => Decimal.ofDigits d, (· + ·), (· - ·), (· * ·), (· / ·), (- ·),
      fun x y => Int.pow x y.toNat⟩
    let xs : Bytes := ascii "(2)"
    let calls : Rule → Parser Unit UInt8 Int := fun r ys j =>
      if r.measure xs.length j < Rule.primary.measure xs.length 0 then r.parser A ys j else Run.giveUp .exhausted
    (calls .expression xs 0 = Run.giveUp .exhausted ∧ calls .primary xs 0 = Run.giveUp .exhausted) ∧
      (∀ r j, r.measure xs.length j < Rule.primary.measure xs.length 0 → calls r xs j = r.parser A xs j) ∧
      Rule.primary.body A calls xs 0 = Rule.primary.parser A xs 0 := by
  intro A xs calls
  have hcalls (r : Rule) (j : Nat) (h : r.measure xs.length j < Rule.primary.measure xs.length 0) :
      calls r xs j = r.parser A xs j := if_pos h
  exact ⟨⟨if_neg (by decide), if_neg (by decide)⟩, hcalls, (rules_descend A xs).2.1 calls .primary 0 hcalls⟩

end Calculator

end Furthest
