import Furthest.Calculator.Rules
import Furthest.Proofs.CursorBounds
import Furthest.Proofs.Outcomes

/-!
# The calculator gives nothing up

`Parser.Concludes` has that an invocation ends in every environment, without a fault: with a success from some
cursor on, or with a failure that has seen a failure. Each combinator of the calculator keeps this, and a factor
nests factors only at later cursors, so the depth that is taken from the input is enough.

Main statement: `Calculator.Rule.concludes`.
-/

namespace Furthest

variable {σ ι α β γ ν : Type}

/-- A success from one cursor to another, or a failure that has seen a failure. -/
inductive Result.Lands (least most : Nat) : Result α → Prop
  | success {v : α} {n : Nat} {r : Record} (hl : least ≤ n) (hm : n ≤ most) : Lands least most (success v n r)
  | failure {c : Nat} {r : Record} (h : r.isEngaged) : Lands least most (failure c r)

namespace Result.Lands

variable {least least' most most' : Nat} {o : Result α}

theorem mono (h : o.Lands least most) (hl : least' ≤ least) (hm : most ≤ most') : o.Lands least' most' := by
  cases h with
  | success h h' => exact .success (hl.trans h) (h'.trans hm)
  | failure h => exact .failure h

theorem aggregate (h : o.Lands least most) (r : Record) : (o.aggregate r).Lands least most := by
  cases h with
  | success h h' => exact .success h h'
  | failure h => exact .failure (by simp [h])

theorem map (h : o.Lands least most) (f : α → β) : (o.map f).Lands least most := by
  cases h with
  | success h h' => exact .success h h'
  | failure h => exact .failure h

end Result.Lands

/-- In every environment the run ends with an outcome that lands between two cursors. -/
def Run.Lands (x : Run σ (Result α)) (least most : Nat) : Prop := ∃ o, x.Ends o ∧ o.Lands least most

namespace Run.Lands

variable {least least' most : Nat} {x : Run σ (Result α)}

theorem pure {o : Result α} (h : o.Lands least most) : (Pure.pure o : Run σ (Result α)).Lands least most :=
  ⟨o, .pure o, h⟩

theorem ofRecord {r : Record} (h : r.isEngaged) :
    (Run.ofExcept (Result.ofRecord r) : Run σ (Result α)).Lands least most := by
  obtain ⟨c, hc⟩ := Run.Ends.ofRecord (σ := σ) (α := α) h
  exact ⟨_, hc, .failure h⟩

theorem bind (hx : x.Lands least most) {f : Result α → Run σ (Result β)}
    (hf : ∀ o, o.Lands least most → (f o).Lands least' most) : (x >>= f).Lands least' most := by
  obtain ⟨o, ho, hl⟩ := hx
  obtain ⟨o', ho', hl'⟩ := hf o hl
  exact ⟨o', ho.bind ho', hl'⟩

/-- What goes on after a success. -/
theorem proceed {o : Result α} (ho : o.Lands least most) {f : α → Nat → Record → Run σ (Result β)}
    (hf : ∀ v n r, least ≤ n → n ≤ most → (f v n r).Lands least' most) : (o.proceed f).Lands least' most := by
  cases ho with
  | success h h' => exact hf _ _ _ h h'
  | failure h => exact ofRecord h

end Run.Lands

/-- The invocation ends in every environment: with a success at a cursor or later, and within the input if it began
there, or with a failure. -/
def Parser.Concludes (p : Parser σ ι α) (xs : List ι) (i least : Nat) : Prop :=
  (p xs i).Lands least (max i xs.length)

namespace Parser.Concludes

variable {p : Parser σ ι α} {q : Parser σ ι β} {xs : List ι} {i m k : Nat}

/-- A parser that is invoked where another one has succeeded. -/
theorem within {n : Nat} (hp : p.Concludes xs n k) (hn : n ≤ max i xs.length) :
    (p xs n).Lands k (max i xs.length) := by
  obtain ⟨o, ho, hl⟩ := hp
  exact ⟨o, ho, hl.mono (Nat.le_refl k) (by omega)⟩

/-- What is left to conclude once it does not matter how much was consumed. -/
theorem mono (hp : p.Concludes xs i m) (hk : k ≤ m) : p.Concludes xs i k := by
  obtain ⟨o, ho, hl⟩ := hp
  exact ⟨o, ho, hl.mono hk (Nat.le_refl _)⟩

/-! ## The combinators -/

theorem satisfy (c : ItemClass ι) (xs : List ι) (i : Nat) :
    (Parser.satisfy c : Parser σ ι ι).Concludes xs i (i + 1) := by
  rcases hx : xs[i]? with _ | x
  · exact ⟨.fail i (.singleton c.label), fun _ => by simp [Run.outcome, Parser.satisfy, hx], .failure rfl⟩
  by_cases hc : c.accepts x
  · have hi : i < xs.length := (List.getElem?_eq_some_iff.1 hx).1
    exact ⟨.success x (i + 1) ∅, fun _ => by simp [Run.outcome, Parser.satisfy, hx, hc],
      .success (Nat.le_refl _) (by omega)⟩
  · exact ⟨.fail i (.singleton c.label), fun _ => by simp [Run.outcome, Parser.satisfy, hx, hc], .failure rfl⟩

theorem str {xs : Bytes} (literal : Bytes) (hi : i ≤ xs.length) :
    (Parser.str literal : Parser σ UInt8 Bytes).Concludes xs i i := by
  by_cases h : literal <+: xs.drop i
  · obtain ⟨rest, hrest⟩ := h
    have hlen := congrArg List.length hrest
    rw [List.length_append, List.length_drop] at hlen
    exact ⟨_, matches_str hrest.symm hi, .success (by omega) (by omega)⟩
  · obtain ⟨hr, c, hc⟩ := fails_str h hi
    exact ⟨_, hc, .failure hr⟩

theorem andThen (hp : p.Concludes xs i m) (hq : ∀ n, m ≤ n → n ≤ max i xs.length → q.Concludes xs n k) :
    (p.andThen q).Concludes xs i k :=
  .bind hp fun _ ho => .proceed ho fun _ _ _ hm hn => .bind ((hq _ hm hn).within hn) fun _ ho' =>
    .pure (ho'.aggregate _)

theorem pair (hp : p.Concludes xs i m) (hq : ∀ n, m ≤ n → n ≤ max i xs.length → q.Concludes xs n k) :
    (p.pair q).Concludes xs i k :=
  .bind hp fun _ ho => .proceed ho fun _ _ _ hm hn => .bind ((hq _ hm hn).within hn) fun _ ho' =>
    .proceed (ho'.aggregate _) fun _ _ _ hk hn' => .pure (.success hk hn')

theorem skip (hp : p.Concludes xs i m) (hq : ∀ n, m ≤ n → n ≤ max i xs.length → q.Concludes xs n k) :
    (p.skip q).Concludes xs i k :=
  .bind hp fun _ ho => by
    cases ho with
    | failure h => exact .pure (.failure h)
    | success hm hn =>
      exact .bind ((hq _ hm hn).within hn) fun _ ho' => .proceed (ho'.aggregate _) fun _ _ _ hk hn' =>
        .pure (.success hk hn')

theorem map (hp : p.Concludes xs i m) (f : α → β) : (p.map f).Concludes xs i m :=
  .bind hp fun _ ho => .proceed ho fun _ _ _ hm hn => .pure (.success hm hn)

theorem combine₂ (f : α → β → γ) (hp : p.Concludes xs i m)
    (hq : ∀ n, m ≤ n → n ≤ max i xs.length → q.Concludes xs n k) : (Parser.combine₂ f p q).Concludes xs i k :=
  (hp.pair hq).map _

theorem desc (hp : p.Concludes xs i m) (label : Bytes) : (p.desc label).Concludes xs i m :=
  .bind hp fun _ ho => by
    cases ho with
    | success hm hn => exact .pure (.success hm hn)
    | failure h => exact .pure (.failure rfl)

theorem traced (hp : p.Concludes xs i m) (name : Bytes) : (p.traced name).Concludes xs i m := by
  obtain ⟨o, ho, hl⟩ := hp
  have hend : o.isSuccess ∨ o.furthest.isEngaged := by
    cases hl with
    | success hm hn => exact .inl rfl
    | failure h => exact .inr h
  obtain ⟨entry, hentry⟩ := exists_outcomeEntry hend name i
  have hrun : (Run.ofExcept (outcomeEntry name i o) : Run σ Entry).Ends entry := fun _ => hentry
  exact ⟨o, (Run.Ends.record _).bind (ho.bind (hrun.bind ((Run.Ends.record _).bind (.pure o)))), hl⟩

theorem orElse {q : Parser σ ι α} (hp : p.Concludes xs i m) (hq : q.Concludes xs i m) :
    (p.orElse q).Concludes xs i m :=
  .bind hp fun _ ho => by
    cases ho with
    | success hm hn => exact .pure (.success hm hn)
    | failure h =>
      refine .bind hq fun _ ho' => ?_
      cases ho' with
      | success hm hn => exact .pure (.success hm hn)
      | failure h' =>
        show (ite _ _ _ : Run σ (Result α)).Lands _ _
        rw [if_pos (by simp [h'])]
        exact .ofRecord (by simp [h'])

/-! ## Repetition -/

/-- A repetition from a cursor on, if every value is read from there on. -/
theorem timesFrom {most : Nat} (hp : ∀ n, i ≤ n → n ≤ most → (p xs n).Lands n most) (isOpen : Bool)
    (remaining needed : Nat) {n : Nat} (hi : i ≤ n) (hn : n ≤ most) (r : Record) :
    (p.timesFrom isOpen xs remaining needed n r).Lands n most := by
  induction remaining generalizing needed n r with
  | zero => exact .pure (.success (Nat.le_refl n) hn)
  | succ remaining ih =>
    refine .bind (hp n hi hn) fun o ho => ?_
    cases ho with
    | failure h =>
      simp only [Result.aggregate]
      split
      · exact .pure (.success (Nat.le_refl n) hn)
      · exact .ofRecord (by simp [h])
    | success hl hm =>
      simp only [Result.aggregate]
      split
      · exact .pure (.success hl hm)
      · exact .bind (ih _ (hi.trans hl) hm _) fun o ho => .pure ((ho.map _).mono hl (Nat.le_refl _))

theorem times (b : Bounds) (hp : ∀ n, i ≤ n → n ≤ max i xs.length → p.Concludes xs n n) :
    (p.times b).Concludes xs i i :=
  timesFrom (fun n hi hn => (hp n hi hn).within hn) _ _ _ (Nat.le_refl i) (Nat.le_max_left ..) ∅

theorem many (hp : ∀ n, i ≤ n → n ≤ max i xs.length → p.Concludes xs n n) : p.many.Concludes xs i i :=
  times _ hp

theorem optional (hp : ∀ n, i ≤ n → n ≤ max i xs.length → p.Concludes xs n n) : p.optional.Concludes xs i i :=
  (times _ hp).map _

/-- A repetition that needs a value ends no earlier than its first value does. -/
theorem oneOrMore (hp : p.Concludes xs i m)
    (hrest : ∀ n, m ≤ n → n ≤ max i xs.length → p.Concludes xs n n) : p.oneOrMore.Concludes xs i m := by
  refine .bind (f := fun o => _) hp fun o ho => ?_
  cases ho with
  | failure h => exact .ofRecord (by simp [h])
  | success hl hm =>
    show (ite _ _ _ : Run σ (Result (List α))).Lands _ _
    split
    · exact .pure (.success hl hm)
    · refine .bind (timesFrom (fun n hi hn => (hrest n hi hn).within hn) _ _ _ hl hm _) fun o ho => ?_
      exact .pure ((ho.map _).mono hl (Nat.le_refl _))

/-- Blanks around a parser. -/
theorem token {p : Parser σ UInt8 α} {xs : Bytes}
    (hp : ∀ n, i ≤ n → n ≤ max i xs.length → p.Concludes xs n (n + 1)) : p.token.Concludes xs i (i + 1) := by
  have blanks (n : Nat) : (Parser.space.many : Parser σ UInt8 Bytes).Concludes xs n n :=
    many fun j _ _ => (satisfy .blank xs j).mono (Nat.le_succ j)
  refine skip (m := i + 1) (andThen (blanks i) fun n hi hn => (hp n hi hn).mono (by omega)) fun n hi _ => ?_
  exact (blanks n).mono hi

end Parser.Concludes

/-! ## The rules -/

namespace Calculator

open Furthest.Parser

variable {A : Arithmetic ν} {inner : Parser σ UInt8 ν} {xs : Bytes} {i : Nat}

theorem number_concludes (xs : Bytes) (i : Nat) : (number A : Parser σ UInt8 ν).Concludes xs i (i + 1) := by
  have digit (n : Nat) : (Parser.digit : Parser σ UInt8 UInt8).Concludes xs n n :=
    (Concludes.satisfy .digit xs n).mono (Nat.le_succ n)
  refine Concludes.traced (.desc (.map (.combine₂ _ (m := i + 1) (k := i + 1) ?_ fun n hi hn => ?_) _) _) _
  · exact .oneOrMore (.satisfy .digit xs i) fun n _ _ => digit n
  · -- a digit was read, so the cursor is within the input, where a point can be compared
    refine ((Concludes.optional fun j hj hm => ?_).map _).mono hi
    exact .combine₂ _ (.str _ (by omega)) fun n hn _ => (Concludes.many fun n _ _ => digit n).mono hn

/-- A parser that consumes at the cursors between two of them. -/
def Consumes (p : Parser σ UInt8 α) (xs : Bytes) (least most : Nat) : Prop :=
  ∀ n, least ≤ n → n ≤ most → p.Concludes xs n (n + 1)

theorem Consumes.mono {p : Parser σ UInt8 α} {least least' most most' : Nat} (h : Consumes p xs least most)
    (hl : least ≤ least') (hm : most' ≤ most) : Consumes p xs least' most' := fun n hn hn' =>
  h n (hl.trans hn) (hn'.trans hm)

theorem consumes_token (c : ItemClass UInt8) (xs : Bytes) (i : Nat) :
    (token (satisfy c) : Parser σ UInt8 UInt8).Concludes xs i (i + 1) :=
  .token fun n _ _ => .satisfy c xs n

theorem chainOf_concludes {operand : Parser σ UInt8 ν} (operators : Bytes)
    (h : Consumes operand xs i (max i xs.length)) : (chainOf A operators operand).Concludes xs i (i + 1) := by
  refine .combine₂ _ (h i (Nat.le_refl i) (Nat.le_max_left ..)) fun n hi hn => ?_
  refine (Concludes.many fun j hj hm => ?_).mono hi
  refine (Concludes.pair (consumes_token _ xs j) fun n hn hm => ?_ : (opPair _ _).Concludes xs j j)
  exact (h n (by omega) (by omega)).mono (by omega)

theorem termOf_concludes (h : Consumes inner xs i (max i xs.length)) : (termOf A inner).Concludes xs i (i + 1) :=
  .traced (chainOf_concludes _ h) _

theorem expressionOf_concludes (h : Consumes inner xs i (max i xs.length)) :
    (expressionOf A inner).Concludes xs i (i + 1) :=
  .traced (chainOf_concludes _ fun _ hi hn => termOf_concludes (h.mono hi (by omega))) _

theorem primaryOf_concludes (h : Consumes inner xs (i + 1) (max i xs.length)) :
    (primaryOf A inner).Concludes xs i (i + 1) := by
  refine .traced (.orElse (.token fun n _ _ => number_concludes xs n) ?_) _
  refine .skip (.andThen (m := i + 1) (k := i + 1) (consumes_token _ xs i) fun n hi hn => ?_) fun n hi _ => ?_
  · exact (expressionOf_concludes (h.mono hi (by omega))).mono (by omega)
  · exact (consumes_token _ xs n).mono (by omega)

theorem powerOf_concludes (h : Consumes inner xs (i + 1) (max i xs.length)) :
    (powerOf A inner).Concludes xs i (i + 1) := by
  refine .traced (.combine₂ _ (primaryOf_concludes h) fun n hi hn => ?_) _
  refine (Concludes.optional fun j hj hm => ?_).mono hi
  refine .andThen (consumes_token _ xs j) fun m hm hl => ?_
  exact (h m (by omega) (by omega)).mono (by omega)

/-- A factor consumes, if the factors inside it do at later cursors. -/
theorem factorOf_concludes (h : Consumes inner xs (i + 1) (max i xs.length)) :
    (factorOf A inner).Concludes xs i (i + 1) := by
  have sign : (token (symbol 45) : Parser σ UInt8 UInt8).optional.Concludes xs i i :=
    .optional fun n _ _ => (consumes_token _ xs n).mono (Nat.le_succ n)
  refine .traced (.combine₂ _ sign fun n hi hn => ?_) _
  exact (powerOf_concludes (h.mono (by omega) (by omega))).mono (by omega)

/-- Factors nest no deeper than there are bytes left. -/
theorem factorWithin_concludes (depth : Nat) (hd : xs.length - i < depth) :
    (factorWithin A depth : Parser σ UInt8 ν).Concludes xs i (i + 1) := by
  induction depth generalizing i with
  | zero => omega
  | succ depth ih => exact factorOf_concludes fun n hi hn => ih (by omega)

theorem factor_concludes (A : Arithmetic ν) (xs : Bytes) (i : Nat) :
    (factor A : Parser σ UInt8 ν).Concludes xs i (i + 1) := by
  unfold Concludes factor
  exact factorWithin_concludes (xs.length - i + 1) (Nat.lt_succ_self _)

/-- Every rule ends at every cursor, in every environment and without a fault, and a success has consumed. -/
theorem Rule.concludes (r : Rule) (A : Arithmetic ν) (xs : Bytes) (i : Nat) :
    (r.parser A : Parser σ UInt8 ν).Concludes xs i (i + 1) := by
  have factor (least most : Nat) : Consumes (Calculator.factor A : Parser σ UInt8 ν) xs least most :=
    fun n _ _ => factor_concludes A xs n
  cases r with
  | number => exact number_concludes xs i
  | expression => exact expressionOf_concludes (factor _ _)
  | term => exact termOf_concludes (factor _ _)
  | factor => exact factor_concludes A xs i
  | power => exact powerOf_concludes (factor _ _)
  | primary => exact primaryOf_concludes (factor _ _)
  | calculator => exact .token fun n _ _ => expressionOf_concludes (factor _ _)

end Calculator

end Furthest
