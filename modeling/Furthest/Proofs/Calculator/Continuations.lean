import Mathlib.Data.Bool.AllAny
import Mathlib.Data.List.Induction
import Furthest.Proofs.Calculator.ViablePrefix

/-!
# What an error of the calculator expects

Where the calculator rejects an input, the error names what could have come next after the part that was read. What
that is can be told from the text: whether an operand has to come or has come (`OperandNext`, `EndsInOperand`),
whether the last token is a sign (`EndsInSign`) or a number that may go on (`EndsInNumber`, `EndsInInteger`), and
whether a parenthesis is open (`OpenParenthesis`). `Continuation` has the labels that belong to each.

A text that can be read leads to a standing, and the two agree on all of this: one byte leads from one standing to the
next by a `Move`, and `Reaches.induction` is the induction over the bytes that were read.

Main statement: `expected_iff_continuation`.
-/

namespace Furthest.Calculator

open Furthest.Parser

variable {σ ν : Type} {A : Arithmetic ν} {s t : Standing} {p q : Phase} {depth : Nat} {u v w b : Bytes} {c : UInt8}

/-! ## How a text ends -/

/-- The last byte of the last token. -/
def tokenEnd (u : Bytes) : Option UInt8 := (u.filter fun c => !ItemClass.blank.accepts c).getLast?

/-- An operand has to come next: nothing was read yet, or the last token is an operator or a parenthesis that opens. -/
def OperandNext (u : Bytes) : Prop := ∀ c ∈ tokenEnd u, c ∈ ascii "+-*/^("

/-- The last token is a minus that was read where an operand had to come. -/
def EndsInSign (u : Bytes) : Prop := ∃ v b, OperandNext v ∧ Blanks b ∧ u = v ++ 45 :: b

/-- The last part of the text is a complete operand, with the blanks after it. -/
def EndsInOperand (A : Arithmetic ν) (u : Bytes) : Prop := ∃ v w x, Derives A Padded .primary w x ∧ u = v ++ w

/-- The last part of the text is a number, without blanks after it. -/
def EndsInNumber (u : Bytes) : Prop := ∃ v d, IsNumeral d ∧ u = v ++ d

/-- A byte of a number. -/
def NumeralByte (c : UInt8) : Prop := ItemClass.digit.accepts c ∨ c = 46

/-- The last part of the text is a number without a point, and without blanks after it. -/
def EndsInInteger (u : Bytes) : Prop :=
  ∃ v w, w ≠ [] ∧ Digits w ∧ (∀ c ∈ v.getLast?, ¬ NumeralByte c) ∧ u = v ++ w

/-- A parenthesis was opened and not closed. -/
def OpenParenthesis (u : Bytes) : Prop := u.count 41 < u.count 40

/-- The labels of what may come next after a text that an accepted input begins with. -/
inductive Continuation (A : Arithmetic ν) (u : Bytes) : Bytes → Prop where
  | space : Continuation A u (ascii "a space")
  | number (h : OperandNext u) : Continuation A u (ascii "a number")
  | opening (h : OperandNext u) : Continuation A u (ascii "(")
  | sign (h : OperandNext u) (hs : ¬ EndsInSign u) : Continuation A u (ascii "-")
  | power (h : EndsInOperand A u) : Continuation A u (ascii "^")
  | factor (h : EndsInOperand A u) : Continuation A u (ascii "[*/]")
  | term (h : EndsInOperand A u) : Continuation A u (ascii "[+-]")
  | closing (h : EndsInOperand A u) (ho : OpenParenthesis u) : Continuation A u (ascii ")")
  | ending (h : EndsInOperand A u) (ho : ¬ OpenParenthesis u) : Continuation A u (ascii "EOF")
  | digit (h : EndsInNumber u) : Continuation A u (ascii "a digit")
  | point (h : EndsInInteger u) : Continuation A u (ascii ".")

theorem tokenEnd_append (u w : Bytes) : tokenEnd (u ++ w) = (tokenEnd w).or (tokenEnd u) := by
  rw [tokenEnd, List.filter_append, List.getLast?_append]
  rfl

theorem tokenEnd_blanks (hb : Blanks b) : tokenEnd b = none := by
  rw [tokenEnd, List.filter_eq_nil_iff.2 fun c hc => by simp [hb c hc]]
  rfl

theorem tokenEnd_singleton (hc : ¬ ItemClass.blank.accepts c) : tokenEnd [c] = some c := by
  simp [tokenEnd, hc]

/-- Blanks do not end a token. -/
theorem tokenEnd_append_blanks (u : Bytes) (hb : Blanks b) : tokenEnd (u ++ b) = tokenEnd u := by
  rw [tokenEnd_append, tokenEnd_blanks hb, Option.none_or]

theorem tokenEnd_concat (u : Bytes) (hc : ¬ ItemClass.blank.accepts c) : tokenEnd (u ++ [c]) = some c := by
  rw [tokenEnd_append, tokenEnd_singleton hc, Option.some_or]

theorem blanks_singleton (hc : ItemClass.blank.accepts c) : Blanks [c] := List.forall_mem_singleton.2 hc

theorem operandNext_append_blanks (hb : Blanks b) : OperandNext (u ++ b) ↔ OperandNext u := by
  rw [OperandNext, OperandNext, tokenEnd_append_blanks u hb]

theorem operandNext_concat (hc : ¬ ItemClass.blank.accepts c) : OperandNext (u ++ [c]) ↔ c ∈ ascii "+-*/^(" := by
  simp [OperandNext, tokenEnd_concat u hc]

/-- A sign stays the last token while blanks are read. -/
theorem endsInSign_concat : EndsInSign (u ++ [c]) ↔
    (ItemClass.blank.accepts c ∧ EndsInSign u) ∨ (c = 45 ∧ OperandNext u) := by
  constructor
  · rintro ⟨v, b, hv, hb, h⟩
    cases b using List.reverseRecOn with
    | nil =>
      obtain ⟨rfl, ⟨⟩⟩ := List.append_inj' h rfl
      exact .inr ⟨rfl, hv⟩
    | append_singleton b d _ =>
      rw [← List.cons_append, ← List.append_assoc] at h
      obtain ⟨rfl, ⟨⟩⟩ := List.append_inj' h rfl
      exact .inl ⟨hb c (by simp), v, b, hv, fun x hx => hb x (List.mem_append_left _ hx), rfl⟩
  · rintro (⟨hc, v, b, hv, hb, rfl⟩ | ⟨rfl, hu⟩)
    · exact ⟨v, b ++ [c], hv, hb.append (blanks_singleton hc), by simp⟩
    · exact ⟨u, [], hu, nofun, rfl⟩

/-- A digit goes on in a number without a point, or begins one where no number ends. -/
theorem endsInInteger_concat : EndsInInteger (u ++ [c]) ↔
    ItemClass.digit.accepts c ∧ (EndsInInteger u ∨ ∀ x ∈ u.getLast?, ¬ NumeralByte x) := by
  constructor
  · rintro ⟨v, w, hne, hw, hv, h⟩
    cases w using List.reverseRecOn with
    | nil => exact absurd rfl hne
    | append_singleton w d _ =>
      rw [← List.append_assoc] at h
      obtain ⟨rfl, ⟨⟩⟩ := List.append_inj' h rfl
      refine ⟨hw c (by simp), ?_⟩
      by_cases hempty : w = []
      · subst hempty
        rw [List.append_nil]
        exact .inr hv
      · exact .inl ⟨v, w, hempty, fun x hx => hw x (List.mem_append_left _ hx), hv, rfl⟩
  · rintro ⟨hc, ⟨v, w, hne, hw, hv, rfl⟩ | hu⟩
    · refine ⟨v, w ++ [c], by simp, List.forall_mem_append.2 ⟨hw, List.forall_mem_singleton.2 hc⟩, hv, ?_⟩
      rw [List.append_assoc]
    · exact ⟨u, [c], List.cons_ne_nil c [], List.forall_mem_singleton.2 hc, hu, rfl⟩

/-! ## What one byte does -/

/-- A byte that is read in an expression, between the standings before and after it. -/
inductive Move : Standing → UInt8 → Standing → Prop where
  | blank {signed : Bool} {depth : Nat} {c : UInt8} (hc : ItemClass.blank.accepts c) :
    Move ⟨.operand signed, depth⟩ c ⟨.operand signed, depth⟩
  | pause {p : Phase} {depth : Nat} {c : UInt8} (hp : p.isEnded) (hc : ItemClass.blank.accepts c) :
    Move ⟨p, depth⟩ c ⟨.complete, depth⟩
  | first {signed : Bool} {depth : Nat} {c : UInt8} (hc : ItemClass.digit.accepts c) :
    Move ⟨.operand signed, depth⟩ c ⟨.whole, depth⟩
  | whole {depth : Nat} {c : UInt8} (hc : ItemClass.digit.accepts c) : Move ⟨.whole, depth⟩ c ⟨.whole, depth⟩
  | point {depth : Nat} : Move ⟨.whole, depth⟩ 46 ⟨.fraction, depth⟩
  | fraction {depth : Nat} {c : UInt8} (hc : ItemClass.digit.accepts c) :
    Move ⟨.fraction, depth⟩ c ⟨.fraction, depth⟩
  | sign {depth : Nat} : Move ⟨.operand false, depth⟩ 45 ⟨.operand true, depth⟩
  | opening {signed : Bool} {depth : Nat} : Move ⟨.operand signed, depth⟩ 40 ⟨.operand false, depth + 1⟩
  | operator {p : Phase} {depth : Nat} {c : UInt8} (hp : p.isEnded) (hc : c ∈ Level.expression.operators) :
    Move ⟨p, depth⟩ c ⟨.operand false, depth⟩
  | closing {p : Phase} {depth : Nat} (hp : p.isEnded) : Move ⟨p, depth + 1⟩ 41 ⟨.complete, depth⟩

theorem Move.of_extend (h : p.extend c = some q) : Move ⟨p, depth⟩ c ⟨q, depth⟩ := by
  by_cases hb : ItemClass.blank.accepts c
  · cases p <;> simp only [Phase.extend, hb, if_true, Option.some.injEq] at h <;> subst h
    · exact .blank hb
    all_goals exact .pause rfl hb
  by_cases hd : ItemClass.digit.accepts c
  · cases p <;> simp only [Phase.extend, hb, hd, Bool.false_eq_true, if_true, if_false, Option.some.injEq,
      reduceCtorEq] at h <;> subst h
    · exact .first hd
    · exact .whole hd
    · exact .fraction hd
  · cases p <;> simp only [Phase.extend, hb, hd, Bool.false_eq_true, if_false, Option.ite_none_right_eq_some,
      Option.some.injEq, reduceCtorEq] at h
    · obtain ⟨⟨rfl, rfl⟩, rfl⟩ := h
      exact .sign
    · obtain ⟨rfl, rfl⟩ := h
      exact .point

/-- Every byte that is read is a move. -/
theorem Move.of_step (h : Level.expression.step s c = some t) : Move s c t := by
  obtain ⟨p, depth⟩ := s
  rcases hq : p.extend c with _ | q
  · by_cases hp : p.isEnded
    · rw [Level.step_of_isEnded hq hp] at h
      cases depth <;> simp only [Level.follow] at h <;> split at h
      · cases h
        exact .operator hp ‹_›
      · cases h
      · cases h
        next hc =>
          subst hc
          exact .closing hp
      · split at h <;> cases h
        exact .operator hp ‹_›
    · rw [Level.step_of_operand hq hp] at h
      split at h <;> cases h
      next hc =>
        subst hc
        cases p with
        | operand signed => exact .opening
        | _ => exact absurd rfl hp
  · rw [Level.step_of_extend hq] at h
    cases h
    exact .of_extend hq

/-- A text is read from the beginning of an expression and leads to a standing. -/
def Reaches (u : Bytes) (t : Standing) : Prop := Level.expression.advance ⟨.operand false, 0⟩ u = some t

theorem Reaches.concat (h : Reaches (u ++ [c]) t) : ∃ s, Reaches u s ∧ Move s c t := by
  rw [Reaches, Level.advance, List.foldlM_append, Option.bind_eq_bind, Option.bind_eq_some_iff] at h
  obtain ⟨s, hs, ht⟩ := h
  rw [List.foldlM_cons, Option.bind_eq_bind, Option.bind_eq_some_iff] at ht
  obtain ⟨t', hstep, ⟨⟩⟩ := ht
  exact ⟨s, hs, .of_step hstep⟩

/-- What holds before anything is read, and is kept by moves, holds of every text that is read. -/
theorem Reaches.induction {motive : Bytes → Standing → Prop} (start : motive [] ⟨.operand false, 0⟩)
    (move : ∀ {u s c t}, Reaches u s → motive u s → Move s c t → motive (u ++ [c]) t) (h : Reaches u t) :
    motive u t := by
  induction u using List.reverseRecOn generalizing t with
  | nil =>
    cases h
    exact start
  | append_singleton u c ih =>
    obtain ⟨s, hs, hm⟩ := h.concat
    exact move hs (ih hs) hm

/-! ## Standings and texts -/

theorem ne_of_accepts {k : ItemClass UInt8} {d : UInt8} (hc : k.accepts c) (hd : k.accepts d = false) : c ≠ d := by
  rintro rfl
  rw [hd] at hc
  cases hc

theorem Move.count_eq (h : Move s c t) : [c].count 40 + s.depth = [c].count 41 + t.depth := by
  have other {depth : Nat} (hopen : c ≠ 40) (hclose : c ≠ 41) : [c].count 40 + depth = [c].count 41 + depth := by
    simp [hopen, hclose]
  cases h with
  | blank hc | pause _ hc => exact other (ne_of_accepts hc rfl) (ne_of_accepts hc rfl)
  | first hc | whole hc | fraction hc => exact other (ne_of_accepts hc rfl) (ne_of_accepts hc rfl)
  | point | sign => exact other (by decide) (by decide)
  | opening | closing => simp [Nat.add_comm]
  | operator _ hc =>
    have hne : ∀ x ∈ Level.expression.operators, x ≠ 40 ∧ x ≠ 41 :=
      List.all_iff_forall_prop.1 (by decide)
    exact other (hne c hc).1 (hne c hc).2

/-- As many parentheses are open as the standing counts. -/
theorem Reaches.count_eq (h : Reaches u t) : u.count 40 = u.count 41 + t.depth := by
  refine h.induction (motive := fun u t => u.count 40 = u.count 41 + t.depth) rfl fun _ ih hm => ?_
  have hcount := hm.count_eq
  rw [List.count_append, List.count_append]
  omega

theorem Reaches.openParenthesis_iff (h : Reaches u t) : OpenParenthesis u ↔ t.depth ≠ 0 := by
  have hcount := h.count_eq
  rw [OpenParenthesis]
  omega

/-- An operand has to come next where the standing is before an operand. -/
theorem Reaches.operandNext_iff (h : Reaches u t) : OperandNext u ↔ ¬ t.phase.isEnded := by
  refine h.induction (motive := fun u t => OperandNext u ↔ ¬ t.phase.isEnded) ?_ fun {u s c t} _ ih hm => ?_
  · exact iff_of_true nofun Bool.false_ne_true
  cases hm with
  | blank hc => rwa [operandNext_append_blanks (blanks_singleton hc)]
  | pause hp hc =>
    rw [operandNext_append_blanks (blanks_singleton hc), ih]
    exact iff_of_false (not_not_intro hp) (not_not_intro rfl)
  | first hc | whole hc | fraction hc =>
    have hsymbol : ∀ x ∈ ascii "+-*/^(", ItemClass.digit.accepts x = false :=
      List.all_iff_forall_prop.1 (by decide)
    rw [operandNext_concat (by simp [Level.not_blank_of_digit hc])]
    exact iff_of_false (fun hmem => by simp [hsymbol c hmem] at hc) (not_not_intro rfl)
  | point | closing =>
    rw [operandNext_concat (by decide)]
    exact iff_of_false (by decide) (not_not_intro rfl)
  | sign | opening =>
    rw [operandNext_concat (by decide)]
    exact iff_of_true (by decide) Bool.false_ne_true
  | operator hp hc =>
    have hsymbol : ∀ x ∈ Level.expression.operators, x ∈ ascii "+-*/^(" :=
      List.all_iff_forall_prop.1 (by decide)
    rw [operandNext_concat (by simp [not_blank_of_operator hc])]
    exact iff_of_true (hsymbol c hc) Bool.false_ne_true

theorem ne_operand_of_isEnded {signed : Bool} (hp : p.isEnded) : p ≠ .operand signed := by
  rintro rfl
  cases hp

/-- The last token is a sign where the standing is after one. -/
theorem Reaches.endsInSign_iff (h : Reaches u t) : EndsInSign u ↔ t.phase = .operand true := by
  refine h.induction (motive := fun u t => EndsInSign u ↔ t.phase = .operand true) ?_ fun {u s c t} hu ih hm => ?_
  · simp [EndsInSign]
  have hnext := hu.operandNext_iff
  rw [endsInSign_concat, ih]
  cases hm with
  | blank hc => simp [hc, ne_of_accepts (d := 45) hc rfl]
  | pause hp hc => simp [ne_operand_of_isEnded hp, ne_of_accepts (d := 45) hc rfl]
  | first hc | whole hc | fraction hc =>
    simp [Level.not_blank_of_digit hc, ne_of_accepts (d := 45) hc rfl]
  | point | opening | closing => exact iff_of_false (by simp [ItemClass.blank]) (by simp)
  | sign => exact iff_of_true (.inr ⟨rfl, hnext.2 Bool.false_ne_true⟩) rfl
  | operator hp hc =>
    refine iff_of_false ?_ (by simp)
    rintro (⟨hblank, -⟩ | ⟨-, hu⟩)
    · simp [not_blank_of_operator hc] at hblank
    · exact hnext.1 hu hp

/-! ## Numbers -/

/-- The standing is in a number. -/
def Phase.InNumber (p : Phase) : Prop := p = .whole ∨ p = .fraction

theorem not_numeralByte_of_blank (hc : ItemClass.blank.accepts c) : ¬ NumeralByte c := by
  rintro (hd | rfl)
  · simp [Level.not_blank_of_digit hd] at hc
  · cases hc

theorem not_numeralByte_of_operator (hc : c ∈ Level.expression.operators) : ¬ NumeralByte c := by
  have hne : ∀ x ∈ Level.expression.operators, ItemClass.digit.accepts x = false ∧ x ≠ 46 :=
    List.all_iff_forall_prop.1 (by decide)
  simp [NumeralByte, hne c hc]

/-- A byte of a number leads into a number, and any other byte does not. -/
theorem Move.inNumber_iff (h : Move s c t) : t.phase.InNumber ↔ NumeralByte c := by
  cases h with
  | blank hc | pause _ hc => exact iff_of_false (by simp [Phase.InNumber]) (not_numeralByte_of_blank hc)
  | first hc | whole hc | fraction hc => exact iff_of_true (by simp [Phase.InNumber]) (.inl hc)
  | point => exact iff_of_true (.inr rfl) (.inr rfl)
  | sign | opening | closing => exact iff_of_false (by simp [Phase.InNumber]) (by simp [NumeralByte, ItemClass.digit])
  | operator _ hc => exact iff_of_false (by simp [Phase.InNumber]) (not_numeralByte_of_operator hc)

/-- A digit leads on in a number without a point, or begins one. -/
theorem Move.whole_iff (h : Move s c t) :
    t.phase = .whole ↔ ItemClass.digit.accepts c ∧ (s.phase = .whole ∨ ¬ s.phase.InNumber) := by
  cases h with
  | first hc | whole hc | fraction hc => simp [hc, Phase.InNumber]
  | blank hc | pause _ hc =>
    exact iff_of_false (by simp) fun h => not_numeralByte_of_blank hc (.inl h.1)
  | point | sign | opening | closing => exact iff_of_false (by simp) (by simp [ItemClass.digit])
  | operator _ hc => exact iff_of_false (by simp) fun h => not_numeralByte_of_operator hc (.inl h.1)

theorem Reaches.inNumber_iff (h : Reaches u t) : t.phase.InNumber ↔ ∃ c ∈ u.getLast?, NumeralByte c := by
  refine h.induction (motive := fun u t => t.phase.InNumber ↔ ∃ c ∈ u.getLast?, NumeralByte c) ?_ fun _ _ hm => ?_
  · simp [Phase.InNumber]
  · simp [hm.inNumber_iff]

/-- The text ends in a number without a point where the standing is in one. -/
theorem Reaches.endsInInteger_iff (h : Reaches u t) : EndsInInteger u ↔ t.phase = .whole := by
  refine h.induction (motive := fun u t => EndsInInteger u ↔ t.phase = .whole) ?_ fun hu ih hm => ?_
  · simp [EndsInInteger]
  · have hlast := not_congr hu.inNumber_iff
    push Not at hlast
    rw [endsInInteger_concat, hm.whole_iff, ih, hlast]

theorem EndsInInteger.point (h : EndsInInteger u) : EndsInNumber (u ++ [46]) := by
  obtain ⟨v, w, hne, hw, -, rfl⟩ := h
  exact ⟨v, w ++ ascii "." ++ [], .fraction hne hw nofun, by simp [ascii]⟩

theorem EndsInNumber.digit (h : EndsInNumber u) (hc : ItemClass.digit.accepts c) : EndsInNumber (u ++ [c]) := by
  have hdigit {f : Bytes} (hf : Digits f) : Digits (f ++ [c]) :=
    List.forall_mem_append.2 ⟨hf, List.forall_mem_singleton.2 hc⟩
  obtain ⟨v, d, hd, rfl⟩ := h
  cases hd with
  | whole hne hw => exact ⟨v, _, .whole (by simp) (hdigit hw), List.append_assoc ..⟩
  | fraction hne hw hf => exact ⟨v, _, .fraction hne hw (hdigit hf), by simp only [List.append_assoc]⟩

/-- A number ends in one of its bytes. -/
theorem EndsInNumber.numeralByte (h : EndsInNumber u) : ∃ c ∈ u.getLast?, NumeralByte c := by
  obtain ⟨v, d, hd, rfl⟩ := h
  have hlast : ∃ c ∈ d.getLast?, NumeralByte c := by
    have digits {w : Bytes} (hne : w ≠ []) (hw : Digits w) : ∃ c ∈ w.getLast?, NumeralByte c :=
      ⟨w.getLast hne, List.getLast?_eq_some_getLast hne, .inl (hw _ (List.getLast_mem hne))⟩
    cases hd with
    | whole hne hw => exact digits hne hw
    | @fraction w f hne hw hf =>
      by_cases hempty : f = []
      · exact ⟨46, by simp [hempty, ascii], .inr rfl⟩
      · obtain ⟨c, hc, hbyte⟩ := digits hempty hf
        exact ⟨c, by rw [List.getLast?_append, Option.mem_def.1 hc]; rfl, hbyte⟩
  obtain ⟨c, hc, hbyte⟩ := hlast
  exact ⟨c, by rw [List.getLast?_append, Option.mem_def.1 hc]; rfl, hbyte⟩

/-- The text ends in a number where the standing is in one. -/
theorem Reaches.endsInNumber_iff (h : Reaches u t) : EndsInNumber u ↔ t.phase.InNumber := by
  refine ⟨fun hu => h.inNumber_iff.2 hu.numeralByte, ?_⟩
  refine h.induction (motive := fun u t => t.phase.InNumber → EndsInNumber u) ?_ fun {u s c t} hu ih hm ht => ?_
  · simp [Phase.InNumber]
  cases hm with
  | first hc => exact ⟨u, [c], .whole (List.cons_ne_nil c []) (List.forall_mem_singleton.2 hc), rfl⟩
  | whole hc => exact (ih (.inl rfl)).digit hc
  | fraction hc => exact (ih (.inr rfl)).digit hc
  | point => exact (hu.endsInInteger_iff.2 rfl).point
  | blank | pause | sign | opening | operator | closing => simp [Phase.InNumber] at ht

/-! ## Operands -/

/-- A text with parentheses open: each part is read from the beginning of an expression, up to a parenthesis that
opens or to the end. -/
inductive Nested : Bytes → Standing → Prop where
  | flat {u : Bytes} {p : Phase} (h : Reaches u ⟨p, 0⟩) : Nested u ⟨p, 0⟩
  | inside {v e : Bytes} {signed : Bool} {p : Phase} {depth : Nat} (hv : Nested v ⟨.operand signed, depth⟩)
    (he : Reaches e ⟨p, 0⟩) : Nested (v ++ 40 :: e) ⟨p, depth + 1⟩

theorem Move.step (h : Move s c t) : Level.expression.step s c = some t := by
  cases h with
  | blank hc => exact Level.step_of_extend (by simp [Phase.extend, hc])
  | @pause p depth c hp hc =>
    cases p with
    | operand signed => cases hp
    | _ => exact Level.step_of_extend (by simp [Phase.extend, hc])
  | first hc | whole hc | fraction hc =>
    exact Level.step_of_extend (by simp [Phase.extend, hc, Level.not_blank_of_digit hc])
  | point | sign => rfl
  | @opening signed depth => cases signed <;> rfl
  | @operator p depth c hp hc =>
    have hclose : ∀ x ∈ Level.expression.operators, x ≠ 41 :=
      List.all_iff_forall_prop.1 (by decide)
    rw [Level.step_of_isEnded (Level.extend_of_mem_operators hp hc) hp]
    cases depth <;> simp [Level.follow, hc, hclose c hc]
  | @closing p depth hp =>
    cases p with
    | operand signed => cases hp
    | _ => rfl

theorem Reaches.move (h : Reaches u s) (hm : Move s c t) : Reaches (u ++ [c]) t := by
  rw [Reaches, Level.advance_append h, Level.advance_cons, hm.step]
  rfl

/-- A move stays at its depth, where it does not depend on the depth, or opens or closes a parenthesis. -/
theorem Move.depth_cases (h : Move ⟨p, depth⟩ c t) :
    (∃ q, t = ⟨q, depth⟩ ∧ ∀ depth', Move ⟨p, depth'⟩ c ⟨q, depth'⟩) ∨
      (∃ signed, p = .operand signed ∧ c = 40 ∧ t = ⟨.operand false, depth + 1⟩) ∨
      (p.isEnded ∧ c = 41 ∧ ∃ outer, depth = outer + 1 ∧ t = ⟨.complete, outer⟩) := by
  cases h with
  | blank hc => exact .inl ⟨_, rfl, fun _ => .blank hc⟩
  | pause hp hc => exact .inl ⟨_, rfl, fun _ => .pause hp hc⟩
  | first hc => exact .inl ⟨_, rfl, fun _ => .first hc⟩
  | whole hc => exact .inl ⟨_, rfl, fun _ => .whole hc⟩
  | fraction hc => exact .inl ⟨_, rfl, fun _ => .fraction hc⟩
  | point => exact .inl ⟨_, rfl, fun _ => .point⟩
  | sign => exact .inl ⟨_, rfl, fun _ => .sign⟩
  | operator hp hc => exact .inl ⟨_, rfl, fun _ => .operator hp hc⟩
  | opening => exact .inr (.inl ⟨_, rfl, rfl, rfl⟩)
  | closing hp => exact .inr (.inr ⟨hp, rfl, _, rfl, rfl⟩)

/-- An expression in parentheses is read where an operand has to come. -/
theorem Reaches.parentheses {signed : Bool} {e : Bytes} (hv : Reaches v ⟨.operand signed, 0⟩)
    (he : Reaches e ⟨p, 0⟩) (hp : p.isEnded) : Reaches (v ++ 40 :: e ++ [41]) ⟨.complete, 0⟩ := by
  have hopen : Reaches (v ++ [40]) ⟨.operand false, 1⟩ := hv.move .opening
  have hinside : Level.expression.advance ⟨.operand false, 1⟩ e = some ⟨p, 1⟩ := Level.advance_deepen he
  have hall : Reaches (v ++ [40] ++ e) ⟨p, 1⟩ := by rw [Reaches, Level.advance_append hopen, hinside]
  have hclosed := hall.move (.closing hp)
  rwa [List.append_assoc v] at hclosed

theorem Nested.concat (h : Nested u s) (hm : Move s c t) : Nested (u ++ [c]) t := by
  cases h with
  | flat h =>
    rcases hm.depth_cases with ⟨q, rfl, hq⟩ | ⟨signed, rfl, rfl, rfl⟩ | ⟨-, -, outer, ⟨⟩, -⟩
    · exact .flat (h.move (hq 0))
    · exact .inside (.flat h) rfl
  | @inside v e signed p depth hv he =>
    rcases hm.depth_cases with ⟨q, rfl, hq⟩ | ⟨signed, rfl, rfl, rfl⟩ | ⟨hp, rfl, outer, hdepth, rfl⟩
    · rw [List.append_assoc]
      exact .inside hv (he.move (hq 0))
    · exact .inside (.inside hv he) rfl
    · obtain rfl : depth = outer := Nat.succ.inj hdepth
      cases hv with
      | flat hv => exact .flat (hv.parentheses he hp)
      | inside hv' he' =>
        simp only [List.append_assoc, List.cons_append]
        exact .inside hv' (by simpa using he'.parentheses he hp)

theorem Reaches.nested (h : Reaches u t) : Nested u t :=
  h.induction (.flat rfl) fun _ ih hm => ih.concat hm

/-- Blanks may follow an operand. -/
theorem EndsInOperand.append (h : EndsInOperand A u) (hb : Blanks b) : EndsInOperand A (u ++ b) := by
  have padded {token text : Bytes} : Padded token text → Padded token (text ++ b) := by
    rintro ⟨b₁, b₂, hb₁, hb₂, rfl⟩
    exact ⟨b₁, b₂ ++ b, hb₁, hb₂.append hb, by simp only [List.append_assoc]⟩
  obtain ⟨v, w, x, hw, rfl⟩ := h
  cases hw with
  | number hd ht => exact ⟨v, _, _, .number hd (padded ht), List.append_assoc ..⟩
  | parentheses ho he hc => exact ⟨v, _, _, .parentheses ho he (padded hc), by simp only [List.append_assoc]⟩
  | single hm => cases hm
  | operation hm => cases hm

theorem padded_refl (token : Bytes) : Padded token token := ⟨[], [], nofun, nofun, by simp⟩

theorem EndsInNumber.endsInOperand (h : EndsInNumber u) : EndsInOperand A u := by
  obtain ⟨v, d, hd, rfl⟩ := h
  exact ⟨v, d, _, .number hd (padded_refl d), rfl⟩

/-- A whole expression that was read is derived. -/
theorem Reaches.derives (h : Reaches u t) (ht : t.Accepting) (hlen : u.length < unbounded) :
    ∃ x, Derives A Padded .expression u x := by
  obtain ⟨x, hx⟩ := accepts_of_advance (σ := Unit) A (countable_of_length hlen) h ht
  exact ⟨x, ((parse_iff_derives A u hlen ⟨.ofLevel .off, ()⟩).1 x).1 (hx _)⟩

/-- The text ends in an operand where the operand at hand may end. -/
theorem Reaches.endsInOperand (h : Reaches u t) (ht : t.phase.isEnded) (hlen : u.length < unbounded) :
    EndsInOperand A u := by
  revert ht hlen
  refine h.induction (motive := fun u t => t.phase.isEnded → u.length < unbounded → EndsInOperand A u) nofun
    fun {u s c t} hu ih hm ht hlen => ?_
  rw [List.length_append] at hlen
  have number (hn : t.phase.InNumber) : EndsInOperand A (u ++ [c]) :=
    ((hu.move hm).endsInNumber_iff.2 hn).endsInOperand
  cases hm with
  | first | whole => exact number (.inl rfl)
  | fraction | point => exact number (.inr rfl)
  | pause hp hc => exact (ih hp (by omega)).append (blanks_singleton hc)
  | closing hp =>
    cases hu.nested with
    | @inside v e _ _ _ _ he =>
      obtain ⟨x, hx⟩ := he.derives (A := A) ⟨hp, rfl⟩ (by simp at hlen; omega)
      exact ⟨v, ascii "(" ++ e ++ ascii ")", x, .parentheses (padded_refl _) hx (padded_refl _), by simp [ascii]⟩
  | blank | sign | opening | operator => cases ht

/-- An operand ends in a byte of a number or in a parenthesis that closes, and blanks. -/
theorem EndsInOperand.exists_concat (h : EndsInOperand A u) :
    ∃ v c b, Blanks b ∧ (NumeralByte c ∨ c = 41) ∧ u = v ++ [c] ++ b := by
  obtain ⟨v, w, x, hw, rfl⟩ := h
  cases hw with
  | @number d t hd ht =>
    obtain ⟨b, b', -, hb', rfl⟩ := ht
    obtain ⟨c, hc, hbyte⟩ := EndsInNumber.numeralByte ⟨[], d, hd, rfl⟩
    obtain ⟨d', rfl⟩ := List.getLast?_eq_some_iff.1 hc
    exact ⟨v ++ b ++ d', c, b', hb', .inl hbyte, by simp only [List.append_assoc]⟩
  | @parentheses o e cl x _ _ hc =>
    obtain ⟨b, b', -, hb', rfl⟩ := hc
    exact ⟨v ++ (o ++ e ++ b), 41, b', hb', .inr rfl, by simp [ascii]⟩
  | single hm => cases hm
  | operation hm => cases hm

/-- Where an operand ends, none has to come next. -/
theorem EndsInOperand.not_operandNext (h : EndsInOperand A u) : ¬ OperandNext u := by
  obtain ⟨v, c, b, hb, hc, rfl⟩ := h.exists_concat
  have hblank : ¬ ItemClass.blank.accepts c := fun hblank =>
    hc.elim (not_numeralByte_of_blank hblank) (ne_of_accepts hblank rfl)
  have hsymbol : ∀ x ∈ ascii "+-*/^(", ItemClass.digit.accepts x = false ∧ x ≠ 46 ∧ x ≠ 41 :=
    List.all_iff_forall_prop.1 (by decide)
  rw [operandNext_append_blanks hb, operandNext_concat hblank]
  intro hmem
  simp [NumeralByte, hsymbol c hmem] at hc

theorem Reaches.endsInOperand_iff (h : Reaches u t) (hlen : u.length < unbounded) :
    EndsInOperand A u ↔ t.phase.isEnded := by
  refine ⟨fun hu => ?_, fun ht => h.endsInOperand ht hlen⟩
  by_contra ht
  exact hu.not_operandNext (h.operandNext_iff.2 ht)

/-! ## Main statement -/

theorem continuation_iff {label : Bytes} : Continuation A u label ↔
    label = ascii "a space" ∨
      (OperandNext u ∧ (label = ascii "a number" ∨ label = ascii "(" ∨ (¬ EndsInSign u ∧ label = ascii "-"))) ∨
      (EndsInOperand A u ∧ (label = ascii "^" ∨ label = ascii "[*/]" ∨ label = ascii "[+-]" ∨
        (OpenParenthesis u ∧ label = ascii ")") ∨ (¬ OpenParenthesis u ∧ label = ascii "EOF"))) ∨
      (EndsInNumber u ∧ label = ascii "a digit") ∨ (EndsInInteger u ∧ label = ascii ".") := by
  constructor
  · intro h
    cases h <;> simp [*]
  · rintro (rfl | ⟨h, rfl | rfl | ⟨hs, rfl⟩⟩ | ⟨h, rfl | rfl | rfl | ⟨ho, rfl⟩ | ⟨ho, rfl⟩⟩ | ⟨h, rfl⟩ | ⟨h, rfl⟩)
    exacts [.space, .number h, .opening h, .sign h hs, .power h, .factor h, .term h, .closing h ho, .ending h ho,
      .digit h, .point h]

/-- What may come next at a standing are the continuations of a text that leads there. -/
theorem Reaches.mem_outlook_iff (h : Reaches u t) (hlen : u.length < unbounded) {label : Bytes} :
    label ∈ outlook t ↔ Continuation A u label := by
  rw [continuation_iff, h.operandNext_iff, h.endsInSign_iff, h.endsInOperand_iff hlen, h.openParenthesis_iff,
    h.endsInNumber_iff, h.endsInInteger_iff]
  obtain ⟨p, depth⟩ := t
  rcases p with signed | _ | _ | _
  · cases signed <;>
      simp [outlook, Standing.Accepting, Phase.isEnded, Level.expected, Phase.labels, Phase.InNumber]
  all_goals
    cases depth <;>
      simp [outlook, Standing.Accepting, Phase.isEnded, Level.expected, Phase.labels, Phase.InNumber,
        Level.followLabels, Level.labels, endLabel]
  all_goals grind

/-- An error names what may come next after the part of the input before its index, and nothing else. -/
theorem expected_iff_continuation (A : Arithmetic ν) (s : Bytes) (hs : s.length < unbounded) (env : Env σ)
    (e : ParseError) (he : ((calculator A).parse s).outcome env = .ok (.error e)) :
    (∀ label, label ∈ e.expected ↔ Continuation A (s.take e.index) label) ∧
      (OperandNext (s.take e.index) ↔ ¬ EndsInOperand A (s.take e.index)) := by
  obtain ⟨u, rest, t, hr, ⟨-, -, v, -, hends⟩ | ⟨-, hends⟩⟩ := parse_calculator (σ := σ) A (countable_of_length hs)
  · cases hends.eq_of_outcome he
  obtain rfl := Except.error.inj (hends.eq_of_outcome he)
  have hlen : s.length = u.length + rest.length := by rw [hr.eq_append, List.length_append]
  have hu : s.take u.length = u := by rw [hr.eq_append, List.take_left]
  have hreach : Reaches u t := hr.advance
  show (∀ label, label ∈ outlook t ↔ Continuation A (s.take u.length) label) ∧
    (OperandNext (s.take u.length) ↔ ¬ EndsInOperand A (s.take u.length))
  rw [hu]
  refine ⟨fun label => hreach.mem_outlook_iff (by omega), ?_⟩
  rw [hreach.operandNext_iff, hreach.endsInOperand_iff (by omega)]

/-- A number in a parenthesis that is not closed, with a blank after it. -/
theorem expected_iff_continuation_of_open_parenthesis :
    let A : Arithmetic Unit := ⟨fun _ => (), fun _ _ => (), fun _ _ => (), fun _ _ => (), fun _ _ => (), id,
      fun _ _ => ()⟩
    let s : Bytes := ascii "(12 x"
    let e : ParseError :=
      ⟨.ofList [ascii "a space", ascii "^", ascii "[*/]", ascii "[+-]", ascii ")"], 4, ascii "0:4"⟩
    let env : Env Unit := ⟨.ofLevel .off, ()⟩
    s.length < unbounded ∧ ((calculator A).parse s).outcome env = .ok (.error e) ∧
      (∀ label, label ∈ e.expected ↔ Continuation A (ascii "(12 ") label) ∧
      Continuation A (ascii "(12 ") (ascii ")") ∧ ¬ Continuation A (ascii "(12 ") (ascii "a digit") := by
  intro A s e env
  have hs : s.length < unbounded := by decide
  have he : ((calculator A).parse s).outcome env = .ok (.error e) := by decide +kernel
  obtain ⟨hlabels, -⟩ := expected_iff_continuation A s hs env e he
  have hclosing : ascii ")" ∈ e.expected := Labels.mem_ofList.2 (by decide)
  have hdigit : ascii "a digit" ∉ e.expected := mt Labels.mem_ofList.1 (by decide)
  exact ⟨hs, he, hlabels, (hlabels _).1 hclosing, mt (hlabels _).2 hdigit⟩

end Furthest.Calculator
