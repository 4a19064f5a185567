import Furthest.Calculator.Rules

/-!
# Closed classes of parsers

A class of parsers of bytes is closed if it has the parsers of single bytes and of literals, and with some
parsers those that are combined of them. It then has the derived parsers and the rules of the calculator as
well: what is shown of each way to combine parsers need not be shown of these again.

Main statement: `Parser.Closed.rule`.
-/

namespace Furthest

variable {σ α β γ ν : Type}

/-- A class of parsers of bytes that is closed under the ways in which the calculator combines parsers. -/
structure Parser.Closed (P : {α : Type} → Parser σ UInt8 α → Prop) : Prop where
  giveUp {α : Type} (cause : Fault) : P (Parser.giveUp cause : Parser σ UInt8 α)
  satisfy (c : ItemClass UInt8) : P (Parser.satisfy c)
  str (literal : Bytes) : P (Parser.str literal)
  andThen {α β : Type} {p : Parser σ UInt8 α} {q : Parser σ UInt8 β} : P p → P q → P (p.andThen q)
  skip {α β : Type} {p : Parser σ UInt8 α} {q : Parser σ UInt8 β} : P p → P q → P (p.skip q)
  pair {α β : Type} {p : Parser σ UInt8 α} {q : Parser σ UInt8 β} : P p → P q → P (p.pair q)
  alt {α : Type} {ps : List (Parser σ UInt8 α)} : (∀ p ∈ ps, P p) → P (Parser.alt ps)
  times {α : Type} {p : Parser σ UInt8 α} (b : Bounds) : P p → P (p.times b)
  tryMap {α β : Type} {p : Parser σ UInt8 α} (f : α → Except Fault β) : P p → P (p.tryMap f)
  desc {α : Type} {p : Parser σ UInt8 α} (label : Bytes) : P p → P (p.desc label)
  traced {α : Type} {p : Parser σ UInt8 α} (name : Bytes) : P p → P (p.traced name)
  /-- What is entered depends on how many bytes are left. -/
  remaining {α : Type} {p : Nat → Parser σ UInt8 α} : (∀ n, P (p n)) → P fun xs i => p (xs.length - i) xs i

namespace Parser.Closed

variable {P : {α : Type} → Parser σ UInt8 α → Prop} (hP : Closed P)
variable {p : Parser σ UInt8 α} {q : Parser σ UInt8 β}

include hP

/-! ## Derived parsers -/

theorem map (f : α → β) (hp : P p) : P (p.map f) := hP.tryMap _ hp

theorem many (hp : P p) : P p.many := hP.times _ hp

theorem optional (hp : P p) : P p.optional := hP.map _ (hP.times _ hp)

theorem combine₂ (f : α → β → γ) (hp : P p) (hq : P q) : P (Parser.combine₂ f p q) := hP.map _ (hP.pair hp hq)

theorem orElse {q : Parser σ UInt8 α} (hp : P p) (hq : P q) : P (p.orElse q) := hP.alt (by simp [hp, hq])

theorem token (hp : P p) : P p.token :=
  have blanks := hP.many (hP.satisfy .blank)
  hP.skip (hP.andThen blanks hp) blanks

theorem strFrom (literals : List Bytes) : P (Parser.strFrom literals) :=
  hP.alt fun p hp => by
    obtain ⟨literal, -, rfl⟩ := List.mem_map.1 hp
    exact hP.str literal

theorem letter : P Parser.letter := hP.desc _ (hP.orElse (hP.satisfy .lower) (hP.satisfy .upper))

theorem whitespace : P Parser.whitespace := hP.desc _ (hP.times _ (hP.satisfy .blank))

/-! ## The calculator -/

variable {A : Arithmetic ν} {inner : Parser σ UInt8 ν}

theorem opPair {operand : Parser σ UInt8 α} (operators : Bytes) (h : P operand) :
    P (Calculator.opPair operators operand) :=
  hP.pair (hP.token (hP.satisfy _)) h

theorem number : P (Calculator.number A : Parser σ UInt8 ν) :=
  have digit := hP.satisfy .digit
  have fraction := hP.map (·.getD []) (hP.optional (hP.combine₂ (· ++ ·) (hP.str (ascii ".")) (hP.many digit)))
  have numeral := hP.combine₂ (· ++ ·) (hP.times _ digit) fraction
  hP.traced _ (hP.desc _ (hP.map _ numeral))

theorem chainOf {operand : Parser σ UInt8 ν} (operators : Bytes) (h : P operand) :
    P (Calculator.chainOf A operators operand) :=
  hP.combine₂ _ h (hP.many (hP.opPair operators h))

theorem termOf (h : P inner) : P (Calculator.termOf A inner) := hP.traced _ (hP.chainOf _ h)

theorem expressionOf (h : P inner) : P (Calculator.expressionOf A inner) :=
  hP.traced _ (hP.chainOf _ (hP.termOf h))

theorem primaryOf (h : P inner) : P (Calculator.primaryOf A inner) :=
  have bracket (b : UInt8) : P (Parser.symbol b).token := hP.token (hP.satisfy _)
  have parentheses := hP.skip (hP.andThen (bracket 40) (hP.expressionOf h)) (bracket 41)
  hP.traced _ (hP.orElse (hP.token hP.number) parentheses)

theorem powerOf (h : P inner) : P (Calculator.powerOf A inner) :=
  have exponent := hP.optional (hP.andThen (hP.token (hP.satisfy _)) h)
  hP.traced _ (hP.combine₂ _ (hP.primaryOf h) exponent)

theorem factorOf (h : P inner) : P (Calculator.factorOf A inner) :=
  have sign := hP.optional (hP.token (hP.satisfy _))
  hP.traced _ (hP.combine₂ _ sign (hP.powerOf h))

theorem factorWithin (depth : Nat) : P (Calculator.factorWithin A depth : Parser σ UInt8 ν) := by
  induction depth with
  | zero => exact hP.giveUp .exhausted
  | succ depth ih => exact hP.factorOf ih

theorem factor : P (Calculator.factor A : Parser σ UInt8 ν) := hP.remaining fun n => hP.factorWithin (n + 1)

/-- The rules of the calculator are in every closed class. -/
theorem rule (A : Arithmetic ν) (r : Calculator.Rule) : P (r.parser A : Parser σ UInt8 ν) := by
  cases r with
  | number => exact hP.number
  | expression => exact hP.expressionOf hP.factor
  | term => exact hP.termOf hP.factor
  | factor => exact hP.factor
  | power => exact hP.powerOf hP.factor
  | primary => exact hP.primaryOf hP.factor
  | calculator => exact hP.token (hP.expressionOf hP.factor)

end Parser.Closed

end Furthest
