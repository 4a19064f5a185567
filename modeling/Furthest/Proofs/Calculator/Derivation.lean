import Furthest.Calculator.Rules

/-!
# Derivations of expressions

The sentences of the grammar, with their values:

    expression = term {("+" | "-") term}.
    term = factor {("*" | "/") factor}.
    factor = ["-"] power.
    power = primary ["^" factor].
    primary = number | "(" expression ")".
    number = digit {digit} ["." {digit}].

Repetitions are derived from the left, and so are their values. What a token may look like in the text is left
open: `Padded` has blanks before and after it, `Trailed` after it only. Blanks before a token may as well be
those after the token before it, so that the two differ in the blanks before a sentence alone.

Main statement: `Derives.trailed`.
-/

namespace Furthest.Calculator

variable {ν : Type}

/-- A run of blanks. -/
def Blanks (b : Bytes) : Prop := ∀ c ∈ b, ItemClass.blank.accepts c

/-- A run of digits. -/
def Digits (w : Bytes) : Prop := ∀ c ∈ w, ItemClass.digit.accepts c

instance (b : Bytes) : Decidable (Blanks b) := List.decidableBAll _ b

instance (w : Bytes) : Decidable (Digits w) := List.decidableBAll _ w

/-- The text of a number. -/
inductive IsNumeral : Bytes → Prop where
  | whole {w : Bytes} (hne : w ≠ []) (hw : Digits w) : IsNumeral w
  | fraction {w f : Bytes} (hne : w ≠ []) (hw : Digits w) (hf : Digits f) : IsNumeral (w ++ ascii "." ++ f)

/-- A token with blanks before and after it. -/
def Padded (token text : Bytes) : Prop := ∃ b b', Blanks b ∧ Blanks b' ∧ text = b ++ token ++ b'

/-- A token with blanks after it. -/
def Trailed (token text : Bytes) : Prop := ∃ b, Blanks b ∧ text = token ++ b

/-- What is derived, a number apart. -/
inductive Nonterminal where
  | expression
  | term
  | factor
  | power
  | primary
deriving DecidableEq

namespace Nonterminal

/-- What alone is a sentence of the nonterminal as well. -/
def operand : Nonterminal → Option Nonterminal
  | expression => some term
  | term => some factor
  | factor => some power
  | power => some primary
  | primary => none

/-- The operators that a nonterminal repeats, with what they compute. -/
inductive Operation (A : Arithmetic ν) : Nonterminal → Bytes → (ν → ν → ν) → Prop where
  | add : Operation A expression (ascii "+") A.add
  | sub : Operation A expression (ascii "-") A.sub
  | mul : Operation A term (ascii "*") A.mul
  | div : Operation A term (ascii "/") A.div

end Nonterminal

/-- A text is a sentence that is derived from a nonterminal, and has a value. -/
inductive Derives (A : Arithmetic ν) (spaced : Bytes → Bytes → Prop) : Nonterminal → Bytes → ν → Prop where
  | number {d t : Bytes} (hd : IsNumeral d) (ht : spaced d t) : Derives A spaced .primary t (A.ofNumeral d)
  | parentheses {o u c : Bytes} {x : ν} (ho : spaced (ascii "(") o) (hu : Derives A spaced .expression u x)
    (hc : spaced (ascii ")") c) : Derives A spaced .primary (o ++ u ++ c) x
  | single {n m : Nonterminal} {u : Bytes} {x : ν} (hm : n.operand = some m) (hu : Derives A spaced m u x) :
    Derives A spaced n u x
  | pow {u t w : Bytes} {x y : ν} (hu : Derives A spaced .primary u x) (ht : spaced (ascii "^") t)
    (hw : Derives A spaced .factor w y) : Derives A spaced .power (u ++ t ++ w) (A.pow x y)
  | neg {t u : Bytes} {x : ν} (ht : spaced (ascii "-") t) (hu : Derives A spaced .power u x) :
    Derives A spaced .factor (t ++ u) (A.neg x)
  | operation {n m : Nonterminal} {token u t w : Bytes} {f : ν → ν → ν} {x y : ν} (hm : n.operand = some m)
    (hf : n.Operation A token f) (hu : Derives A spaced n u x) (ht : spaced token t)
    (hw : Derives A spaced m w y) : Derives A spaced n (u ++ t ++ w) (f x y)

theorem Blanks.append {b b' : Bytes} (hb : Blanks b) (hb' : Blanks b') : Blanks (b ++ b') :=
  List.forall_mem_append.2 ⟨hb, hb'⟩

theorem Trailed.append {d t b : Bytes} (ht : Trailed d t) (hb : Blanks b) : Trailed d (t ++ b) := by
  obtain ⟨b', hb', rfl⟩ := ht
  exact ⟨b' ++ b, hb'.append hb, by rw [List.append_assoc]⟩

namespace Derives

variable {A : Arithmetic ν} {n : Nonterminal} {u b : Bytes} {x : ν}

/-- Blanks may follow a sentence. -/
theorem append (h : Derives A Trailed n u x) (hb : Blanks b) : Derives A Trailed n (u ++ b) x := by
  induction h with
  | number hd ht => exact .number hd (ht.append hb)
  | parentheses ho hu hc =>
    rw [List.append_assoc]
    exact .parentheses ho hu (hc.append hb)
  | single hm _ ih => exact .single hm ih
  | pow hu ht _ _ ih =>
    rw [List.append_assoc]
    exact .pow hu ht ih
  | neg ht _ ih =>
    rw [List.append_assoc]
    exact .neg ht ih
  | operation hm hf hu ht _ _ ih =>
    rw [List.append_assoc]
    exact .operation hm hf hu ht ih

/-- Blanks may come before a sentence. -/
theorem prepend (h : Derives A Padded n u x) (hb : Blanks b) : Derives A Padded n (b ++ u) x := by
  have padded : ∀ {token text : Bytes}, Padded token text → Padded token (b ++ text) := by
    rintro token _ ⟨b₁, b₂, hb₁, hb₂, rfl⟩
    exact ⟨b ++ b₁, b₂, hb.append hb₁, hb₂, by simp only [List.append_assoc]⟩
  induction h with
  | number hd ht => exact .number hd (padded ht)
  | parentheses ho hu hc =>
    rw [List.append_assoc, ← List.append_assoc, ← List.append_assoc]
    exact .parentheses (padded ho) hu hc
  | single hm _ ih => exact .single hm ih
  | pow _ ht hw ih =>
    rw [List.append_assoc, ← List.append_assoc, ← List.append_assoc]
    exact .pow ih ht hw
  | neg ht hu =>
    rw [← List.append_assoc]
    exact .neg (padded ht) hu
  | operation hm hf _ ht hw ih =>
    rw [List.append_assoc, ← List.append_assoc, ← List.append_assoc]
    exact .operation hm hf ih ht hw

/-- Blanks before a token follow the token before it, or the whole sentence follows them. -/
theorem trailed (h : Derives A Padded n u x) : ∃ b w, Blanks b ∧ u = b ++ w ∧ Derives A Trailed n w x := by
  induction h with
  | @number d t hd ht =>
    obtain ⟨b, b', hb, hb', rfl⟩ := ht
    exact ⟨b, d ++ b', hb, List.append_assoc .., .number hd ⟨b', hb', rfl⟩⟩
  | parentheses ho _ hc ih =>
    obtain ⟨b₁, b₂, hb₁, hb₂, rfl⟩ := ho
    obtain ⟨b₃, w, hb₃, rfl, hw⟩ := ih
    obtain ⟨b₄, b₅, hb₄, hb₅, rfl⟩ := hc
    exact ⟨b₁, ascii "(" ++ (b₂ ++ b₃) ++ (w ++ b₄) ++ (ascii ")" ++ b₅), hb₁, by simp only [List.append_assoc],
      .parentheses ⟨_, hb₂.append hb₃, rfl⟩ (hw.append hb₄) ⟨b₅, hb₅, rfl⟩⟩
  | single hm _ ih =>
    obtain ⟨b, w, hb, rfl, hw⟩ := ih
    exact ⟨b, w, hb, rfl, .single hm hw⟩
  | pow _ ht _ ihu ihw =>
    obtain ⟨b₁, u, hb₁, rfl, hu⟩ := ihu
    obtain ⟨b₂, b₃, hb₂, hb₃, rfl⟩ := ht
    obtain ⟨b₄, w, hb₄, rfl, hw⟩ := ihw
    exact ⟨b₁, u ++ b₂ ++ (ascii "^" ++ (b₃ ++ b₄)) ++ w, hb₁, by simp only [List.append_assoc],
      .pow (hu.append hb₂) ⟨_, hb₃.append hb₄, rfl⟩ hw⟩
  | neg ht _ ih =>
    obtain ⟨b₁, b₂, hb₁, hb₂, rfl⟩ := ht
    obtain ⟨b₃, w, hb₃, rfl, hw⟩ := ih
    exact ⟨b₁, ascii "-" ++ (b₂ ++ b₃) ++ w, hb₁, by simp only [List.append_assoc],
      .neg ⟨_, hb₂.append hb₃, rfl⟩ hw⟩
  | @operation n m token _ _ _ f x y hm hf _ ht _ ihu ihw =>
    obtain ⟨b₁, u, hb₁, rfl, hu⟩ := ihu
    obtain ⟨b₂, b₃, hb₂, hb₃, rfl⟩ := ht
    obtain ⟨b₄, w, hb₄, rfl, hw⟩ := ihw
    exact ⟨b₁, u ++ b₂ ++ (token ++ (b₃ ++ b₄)) ++ w, hb₁, by simp only [List.append_assoc],
      .operation hm hf (hu.append hb₂) ⟨_, hb₃.append hb₄, rfl⟩ hw⟩

end Derives

end Furthest.Calculator
