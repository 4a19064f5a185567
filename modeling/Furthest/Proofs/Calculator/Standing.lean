import Furthest.Proofs.Calculator.Derivation

/-!
# Standings of a reader of expressions

Reading an expression byte by byte takes no more than a `Standing`: the phase of the operand at hand, and how many
parentheses are open. `Level.step` reads one byte and `Level.advance` a text; a level has the operators that may
follow an operand outside parentheses, inside of which all of them may. `Level.expected` has the labels of what may
come next.

* `Level.step_congr`, `Level.expected_congr`: levels differ after a whole operand only;
* `Level.advance_deepen`: what is read of an expression is read alike inside parentheses;
* `Level.advance_completion`: every standing leads on to a whole expression.
-/

namespace Furthest.Calculator

/-- Where in an operand a reader is. -/
inductive Phase where
  /-- Before an operand, whose sign was read already or is not allowed if it is `signed`. -/
  | operand (signed : Bool)
  | whole
  | fraction
  /-- After an operand and blanks, or after a parenthesis. -/
  | complete
deriving DecidableEq

namespace Phase

/-- Goes on in the operand at hand. -/
def extend : Phase → UInt8 → Option Phase
  | operand signed, c =>
    if ItemClass.blank.accepts c then some (operand signed)
    else if ItemClass.digit.accepts c then some whole
    else if c = 45 ∧ signed = false then some (operand true)
    else none
  | whole, c =>
    if ItemClass.blank.accepts c then some complete
    else if ItemClass.digit.accepts c then some whole
    else if c = 46 then some fraction
    else none
  | fraction, c =>
    if ItemClass.blank.accepts c then some complete
    else if ItemClass.digit.accepts c then some fraction
    else none
  | complete, c => if ItemClass.blank.accepts c then some complete else none

/-- The operand may end here. -/
def isEnded : Phase → Bool
  | operand _ => false
  | _ => true

/-- What goes on in the operand at hand. -/
def labels : Phase → List Bytes
  | operand true => [ascii "a space", ascii "a number", ascii "("]
  | operand false => [ascii "a space", ascii "a number", ascii "(", ascii "-"]
  | whole => [ascii "a space", ascii "a digit", ascii "."]
  | fraction => [ascii "a space", ascii "a digit"]
  | complete => [ascii "a space"]

end Phase

/-- How far an expression has been read. -/
structure Standing where
  phase : Phase
  depth : Nat
deriving DecidableEq

namespace Standing

/-- Inside one more pair of parentheses. -/
def deepen (s : Standing) : Standing := ⟨s.phase, s.depth + 1⟩

/-- What was read is a whole sentence. -/
def Accepting (s : Standing) : Prop := s.phase.isEnded ∧ s.depth = 0

instance (s : Standing) : Decidable s.Accepting := inferInstanceAs (Decidable (_ ∧ _))

theorem not_accepting_operand (signed : Bool) (depth : Nat) : ¬ (⟨.operand signed, depth⟩ : Standing).Accepting :=
  fun h => absurd h.1 Bool.false_ne_true

end Standing

/-- How tightly the operators bind that may follow an operand. -/
inductive Level where
  | primary
  | power
  | term
  | expression

namespace Level

/-- The operators that may follow an operand outside parentheses. -/
def operators : Level → Bytes
  | primary => []
  | power => ascii "^"
  | term => ascii "^*/"
  | expression => ascii "^*/+-"

def labels : Level → List Bytes
  | primary => []
  | power => [ascii "^"]
  | term => [ascii "^", ascii "[*/]"]
  | expression => [ascii "^", ascii "[*/]", ascii "[+-]"]

/-- Reads a byte after an operand. -/
def follow (L : Level) : Nat → UInt8 → Option Standing
  | 0, c => if c ∈ L.operators then some ⟨.operand false, 0⟩ else none
  | depth + 1, c =>
    if c = 41 then some ⟨.complete, depth⟩
    else if c ∈ expression.operators then some ⟨.operand false, depth + 1⟩
    else none

/-- What may follow an operand. -/
def followLabels (L : Level) : Nat → List Bytes
  | 0 => L.labels
  | _ + 1 => expression.labels ++ [ascii ")"]

/-- Reads a byte. -/
def step (L : Level) (s : Standing) (c : UInt8) : Option Standing :=
  match s.phase.extend c with
  | some phase => some ⟨phase, s.depth⟩
  | none =>
    if s.phase.isEnded then L.follow s.depth c
    else if c = 40 then some ⟨.operand false, s.depth + 1⟩
    else none

/-- Reads a text. -/
def advance (L : Level) (s : Standing) (u : Bytes) : Option Standing := u.foldlM L.step s

/-- The labels of what may come next. -/
def expected (L : Level) (s : Standing) : Labels :=
  .ofList (s.phase.labels ++ if s.phase.isEnded then L.followLabels s.depth else [])

variable {L L' : Level} {s t t' : Standing} {c : UInt8} {u w b : Bytes}

@[simp] theorem advance_nil (L : Level) (s : Standing) : L.advance s [] = some s := rfl

@[simp] theorem advance_cons (L : Level) (s : Standing) (c : UInt8) (u : Bytes) :
    L.advance s (c :: u) = (L.step s c).bind (L.advance · u) := rfl

theorem advance_append (h : L.advance s u = some t) : L.advance s (u ++ w) = L.advance t w := by
  rw [advance, List.foldlM_append, ← advance, h]
  rfl

theorem step_of_extend {p : Phase} (h : s.phase.extend c = some p) : L.step s c = some ⟨p, s.depth⟩ := by
  simp only [step, h]

theorem step_of_isEnded (h : s.phase.extend c = none) (hs : s.phase.isEnded) :
    L.step s c = L.follow s.depth c := by
  simp only [step, h, hs, if_true]

theorem step_of_operand (h : s.phase.extend c = none) (hs : ¬ s.phase.isEnded) :
    L.step s c = if c = 40 then some ⟨.operand false, s.depth + 1⟩ else none := by
  simp only [step, h, hs, if_false, Bool.false_eq_true]

theorem extend_of_step_eq_none (h : L.step s c = none) : s.phase.extend c = none := by
  rcases hp : s.phase.extend c with _ | p
  · rfl
  · rw [step_of_extend hp] at h
    cases h

/-- No byte is read both as an operator and on in an operand that has ended. -/
theorem extend_of_mem_operators {p : Phase} (hp : p.isEnded) (hc : c ∈ expression.operators) :
    p.extend c = none := by
  have hc' : c = 94 ∨ c = 42 ∨ c = 47 ∨ c = 43 ∨ c = 45 := by
    simpa [operators, ascii] using hc
  cases p with
  | operand signed => simp [Phase.isEnded] at hp
  | _ => rcases hc' with rfl | rfl | rfl | rfl | rfl <;> decide

theorem operators_subset (L : Level) : L.operators ⊆ expression.operators := by
  cases L <;> decide

/-- Blanks are read everywhere. -/
theorem step_blank (L : Level) (s : Standing) (hc : ItemClass.blank.accepts c) : L.step s c ≠ none := by
  obtain ⟨p, depth⟩ := s
  cases p <;> simp [step, Phase.extend, hc]

/-! ## Levels -/

/-- Before the end of an operand and inside parentheses all levels read alike. -/
theorem step_congr (L L' : Level) (hs : ¬ s.Accepting) (c : UInt8) : L.step s c = L'.step s c := by
  obtain ⟨p, depth⟩ := s
  cases depth with
  | succ depth => rfl
  | zero =>
    have hp : p.isEnded = false := by simpa [Standing.Accepting] using hs
    simp [step, hp]

theorem expected_congr (L L' : Level) (hs : ¬ s.Accepting) : L.expected s = L'.expected s := by
  obtain ⟨p, depth⟩ := s
  cases depth with
  | succ depth => rfl
  | zero =>
    have hp : p.isEnded = false := by simpa [Standing.Accepting] using hs
    simp [expected, hp]

/-- After a whole sentence, a byte that does not go on in its last operand is read as an operator or not at all. -/
theorem step_accepting (hs : s.Accepting) (hc : s.phase.extend c = none) :
    L.step s c = if c ∈ L.operators then some ⟨.operand false, 0⟩ else none := by
  rw [step_of_isEnded hc hs.1, hs.2]
  rfl

theorem step_operator (hs : s.Accepting) (hc : c ∈ L.operators) : L.step s c = some ⟨.operand false, 0⟩ := by
  rw [step_accepting hs (extend_of_mem_operators hs.1 (L.operators_subset hc)), if_pos hc]

theorem step_mono (hL : L.operators ⊆ L'.operators) (h : L.step s c = some t) : L'.step s c = some t := by
  by_cases hs : s.Accepting
  · rcases hp : s.phase.extend c with _ | p
    · rw [step_accepting hs hp] at h ⊢
      split at h
      · next hc => rwa [if_pos (hL hc)]
      · cases h
    · rwa [step_of_extend hp] at h ⊢
  · rwa [step_congr L' L hs]

theorem advance_mono (hL : L.operators ⊆ L'.operators) (h : L.advance s u = some t) : L'.advance s u = some t := by
  induction u generalizing s with
  | nil => exact h
  | cons c u ih =>
    rw [advance_cons, Option.bind_eq_some_iff] at h ⊢
    obtain ⟨s', hs', hu⟩ := h
    exact ⟨s', step_mono hL hs', ih hu⟩

/-! ## Parentheses -/

theorem follow_deepen {depth : Nat} (h : expression.follow depth c = some t) :
    L.follow (depth + 1) c = some t.deepen := by
  cases depth with
  | zero =>
    simp only [follow] at h ⊢
    split at h <;> cases h
    next hc =>
      have hc' : c ≠ 41 := by
        rintro rfl
        revert hc
        decide
      rw [if_neg hc', if_pos hc]
      rfl
  | succ depth =>
    simp only [follow] at h ⊢
    split at h
    · next hc =>
      cases h
      rw [if_pos hc]
      rfl
    · next hc =>
      split at h <;> cases h
      next hc' =>
        rw [if_neg hc, if_pos hc']
        rfl

theorem follow_deepen_eq_none {depth : Nat} (h : expression.follow depth c = none) (hc : depth = 0 → c ≠ 41) :
    L.follow (depth + 1) c = none := by
  cases depth with
  | zero =>
    simp only [follow, ite_eq_right_iff, reduceCtorEq, imp_false] at h
    simp only [follow, hc rfl, h, if_false]
  | succ depth =>
    simp only [follow] at h ⊢
    split at h
    · cases h
    · next hc =>
      split at h
      · cases h
      · next hc' => rw [if_neg hc, if_neg hc']

theorem step_deepen (h : expression.step s c = some t) : L.step s.deepen c = some t.deepen := by
  rcases hp : s.phase.extend c with _ | p
  · by_cases hs : s.phase.isEnded
    · rw [step_of_isEnded hp hs] at h
      rw [step_of_isEnded (s := s.deepen) hp hs]
      exact follow_deepen h
    · rw [step_of_operand hp hs] at h
      rw [step_of_operand (s := s.deepen) hp hs]
      split at h <;> cases h
      next hc => rw [if_pos hc]; rfl
  · rw [step_of_extend hp] at h
    cases h
    exact step_of_extend (s := s.deepen) hp

theorem advance_deepen (h : expression.advance s u = some t) : L.advance s.deepen u = some t.deepen := by
  induction u generalizing s with
  | nil =>
    cases h
    rfl
  | cons c u ih =>
    rw [advance_cons, Option.bind_eq_some_iff] at h ⊢
    obtain ⟨s', hs', hu⟩ := h
    exact ⟨s'.deepen, step_deepen hs', ih hu⟩

/-- A byte that is not read in an expression is not read inside parentheses either, unless it closes them. -/
theorem step_deepen_eq_none (h : expression.step s c = none) (hc : s.Accepting → c ≠ 41) :
    L.step s.deepen c = none := by
  have hp := extend_of_step_eq_none h
  by_cases hs : s.phase.isEnded
  · rw [step_of_isEnded hp hs] at h
    rw [step_of_isEnded (s := s.deepen) hp hs]
    exact follow_deepen_eq_none h fun hd => hc ⟨hs, hd⟩
  · rw [step_of_operand hp hs] at h
    rw [step_of_operand (s := s.deepen) hp hs]
    split at h
    · cases h
    · next hc' => rw [if_neg hc']

/-- Where an expression ends, the parenthesis before it is closed. -/
theorem step_close (hs : s.Accepting) : L.step s.deepen 41 = some ⟨.complete, 0⟩ := by
  obtain ⟨p, depth⟩ := s
  obtain ⟨hp, rfl : depth = 0⟩ := hs
  cases p with
  | operand signed => simp [Phase.isEnded] at hp
  | _ => rfl

/-! ## Signs -/

/-- What is read where a sign is not allowed is read where it is. -/
theorem step_unsigned {depth : Nat} (h : L.step ⟨.operand true, depth⟩ c = some t) :
    L.step ⟨.operand false, depth⟩ c =
      if ItemClass.blank.accepts c then some ⟨.operand false, depth⟩ else some t := by
  by_cases hb : ItemClass.blank.accepts c
  · simp [step, Phase.extend, hb]
  by_cases hd : ItemClass.digit.accepts c
  · simpa [step, Phase.extend, hb, hd] using h
  by_cases hc : c = 40
  · subst hc
    exact h
  · simp [step, Phase.extend, Phase.isEnded, hb, hd, hc] at h

theorem advance_unsigned {depth : Nat} (h : L.advance ⟨.operand true, depth⟩ u = some t) :
    (Blanks u ∧ t = ⟨.operand true, depth⟩) ∨ (¬ Blanks u ∧ L.advance ⟨.operand false, depth⟩ u = some t) := by
  induction u with
  | nil =>
    cases h
    exact .inl ⟨nofun, rfl⟩
  | cons c u ih =>
    rw [advance_cons, Option.bind_eq_some_iff] at h
    obtain ⟨s', hs', hu⟩ := h
    by_cases hc : ItemClass.blank.accepts c
    · obtain rfl : s' = ⟨.operand true, depth⟩ := by simpa [step, Phase.extend, hc] using hs'.symm
      rcases ih hu with ⟨hb, ht⟩ | ⟨hb, ht⟩
      · exact .inl ⟨List.forall_mem_cons.2 ⟨hc, hb⟩, ht⟩
      · refine .inr ⟨fun h => hb (List.forall_mem_cons.1 h).2, ?_⟩
        rw [advance_cons, step_unsigned hs', if_pos hc]
        exact ht
    · refine .inr ⟨fun h => hc (List.forall_mem_cons.1 h).1, ?_⟩
      rw [advance_cons, step_unsigned hs', if_neg hc]
      exact hu

/-! ## Runs of blanks and digits -/

/-- Bytes that leave the phase as it is. -/
theorem advance_of_extend {p : Phase} {depth : Nat} (hu : ∀ c ∈ u, p.extend c = some p) :
    L.advance ⟨p, depth⟩ u = some ⟨p, depth⟩ := by
  induction u with
  | nil => rfl
  | cons c u ih =>
    obtain ⟨hc, hu⟩ := List.forall_mem_cons.1 hu
    have hstep : L.step ⟨p, depth⟩ c = some ⟨p, depth⟩ := step_of_extend hc
    rw [advance_cons, hstep]
    exact ih hu

theorem advance_blanks {signed : Bool} {depth : Nat} (hb : Blanks b) :
    L.advance ⟨.operand signed, depth⟩ b = some ⟨.operand signed, depth⟩ :=
  advance_of_extend fun c hc => by simp [Phase.extend, hb c hc]

theorem advance_blanks_of_isEnded (hs : s.phase.isEnded) (hb : Blanks b) :
    L.advance s b = some (if b = [] then s else ⟨.complete, s.depth⟩) := by
  cases b with
  | nil => rfl
  | cons c b =>
    obtain ⟨hc, hb⟩ := List.forall_mem_cons.1 hb
    have hstep : L.step s c = some ⟨.complete, s.depth⟩ := by
      refine step_of_extend ?_
      cases hp : s.phase with
      | operand signed => simp [hp, Phase.isEnded] at hs
      | _ => simp [Phase.extend, hc]
    rw [advance_cons, hstep, if_neg (List.cons_ne_nil c b)]
    exact advance_of_extend fun c hc => by simp [Phase.extend, hb c hc]

theorem not_blank_of_digit (hc : ItemClass.digit.accepts c) : ItemClass.blank.accepts c = false := by
  have hc : 48 ≤ c.toNat ∧ c.toNat ≤ 57 := by simpa [ItemClass.digit, UInt8.le_iff_toNat_le] using hc
  simp only [ItemClass.blank, UInt8.le_iff_toNat_le, ← UInt8.toNat_inj, UInt8.reduceToNat, Bool.or_eq_false_iff,
    Bool.and_eq_false_iff, decide_eq_false_iff_not]
  omega

theorem advance_fraction {depth : Nat} (hu : Digits u) : L.advance ⟨.fraction, depth⟩ u = some ⟨.fraction, depth⟩ :=
  advance_of_extend fun c hc => by simp [Phase.extend, hu c hc, not_blank_of_digit (hu c hc)]

theorem advance_digits {signed : Bool} {depth : Nat} (hu : Digits u) (hne : u ≠ []) :
    L.advance ⟨.operand signed, depth⟩ u = some ⟨.whole, depth⟩ := by
  cases u with
  | nil => exact absurd rfl hne
  | cons c u =>
    obtain ⟨hc, hu⟩ := List.forall_mem_cons.1 hu
    have hstep : L.step ⟨.operand signed, depth⟩ c = some ⟨.whole, depth⟩ :=
      step_of_extend (by simp [Phase.extend, hc, not_blank_of_digit hc])
    rw [advance_cons, hstep]
    exact advance_of_extend fun c hc => by simp [Phase.extend, hu c hc, not_blank_of_digit (hu c hc)]

/-! ## Tokens -/

/-- A sign, with blanks around it. -/
theorem advance_sign {depth : Nat} (hb : Blanks b) (hw : Blanks w) :
    L.advance ⟨.operand false, depth⟩ (b ++ 45 :: w) = some ⟨.operand true, depth⟩ := by
  rw [advance_append (advance_blanks hb)]
  exact advance_blanks hw

/-- A parenthesis that opens, with blanks around it. -/
theorem advance_open {signed : Bool} {depth : Nat} (hb : Blanks b) (hw : Blanks w) :
    L.advance ⟨.operand signed, depth⟩ (b ++ 40 :: w) = some ⟨.operand false, depth + 1⟩ := by
  have hstep : L.step ⟨.operand signed, depth⟩ 40 = some ⟨.operand false, depth + 1⟩ := by
    cases signed <;> rfl
  rw [advance_append (advance_blanks hb), advance_cons, hstep]
  exact advance_blanks hw

/-- A parenthesis that closes, with blanks after it. -/
theorem advance_close (hs : s.Accepting) (hb : Blanks b) : L.advance s.deepen (41 :: b) = some ⟨.complete, 0⟩ := by
  rw [advance_cons, step_close hs]
  exact advance_of_extend fun c hc => by simp [Phase.extend, hb c hc]

/-- An operator, with blanks after it. -/
theorem advance_operator (hs : s.Accepting) (hc : c ∈ L.operators) (hb : Blanks b) :
    L.advance s (c :: b) = some ⟨.operand false, 0⟩ := by
  rw [advance_cons, step_operator hs hc]
  exact advance_blanks hb

/-! ## What may come next -/

/-- Blanks may come next everywhere. -/
theorem space_mem_expected (L : Level) (s : Standing) : ascii "a space" ∈ L.expected s := by
  obtain ⟨p, depth⟩ := s
  rcases p with _ | _ | _ | _ <;> simp [expected, Phase.labels]
  next signed => cases signed <;> simp

/-- A whole sentence may go on with the operators that a level adds. -/
theorem expected_union (hs : s.Accepting) {label : Bytes} (hL : L'.labels = L.labels ++ [label]) :
    L.expected s ∪ .singleton label = L'.expected s := by
  obtain ⟨p, depth⟩ := s
  obtain ⟨hp : p.isEnded = true, rfl : depth = 0⟩ := hs
  refine Labels.ext fun x => ?_
  simp only [expected, hp, if_true, followLabels, hL, Labels.mem_union, Labels.mem_ofList, List.mem_append,
    Labels.mem_singleton, List.mem_singleton, or_assoc]

/-- Where an expression ends inside parentheses, they may be closed. -/
theorem expected_deepen (hs : s.Accepting) :
    expression.expected s ∪ .singleton (ascii ")") = L.expected s.deepen := by
  obtain ⟨p, depth⟩ := s
  obtain ⟨hp : p.isEnded = true, rfl : depth = 0⟩ := hs
  refine Labels.ext fun x => ?_
  simp only [expected, Standing.deepen, hp, if_true, followLabels, Labels.mem_union, Labels.mem_ofList,
    List.mem_append, Labels.mem_singleton, List.mem_singleton, or_assoc]

theorem expected_deepen_of_not_accepting (hs : ¬ s.Accepting) : expression.expected s = L.expected s.deepen := by
  obtain ⟨p, depth⟩ := s
  cases depth with
  | succ depth => rfl
  | zero =>
    have hp : p.isEnded = false := by simpa [Standing.Accepting] using hs
    simp [expected, Standing.deepen, hp]

/-! ## Completion -/

theorem depth_le_of_step (h : L.step s c = some t) : t.depth ≤ s.depth + 1 := by
  rcases hp : s.phase.extend c with _ | p
  · by_cases hs : s.phase.isEnded
    · rw [step_of_isEnded hp hs] at h
      cases hd : s.depth with
      | zero =>
        simp only [hd, follow] at h
        split at h <;> cases h
        exact Nat.zero_le _
      | succ depth =>
        simp only [hd, follow] at h
        split at h
        · cases h
          show depth ≤ depth + 1 + 1
          omega
        · split at h <;> cases h
          exact Nat.le_succ _
    · rw [step_of_operand hp hs] at h
      split at h <;> cases h
      exact Nat.le_refl _
  · rw [step_of_extend hp] at h
    cases h
    exact Nat.le_succ _

/-- No more parentheses are open than bytes were read. -/
theorem depth_le_of_advance (h : L.advance s u = some t) : t.depth ≤ s.depth + u.length := by
  induction u generalizing s with
  | nil =>
    cases h
    exact Nat.le_refl _
  | cons c u ih =>
    rw [advance_cons, Option.bind_eq_some_iff] at h
    obtain ⟨s', hs', hu⟩ := h
    have hstep := depth_le_of_step hs'
    have hrest := ih hu
    rw [List.length_cons]
    omega

/-- An operand, if it is missing, and the closing parentheses complete what was read. -/
def completion (s : Standing) : Bytes :=
  (if s.phase.isEnded then [] else ascii "1") ++ List.replicate s.depth 41

theorem advance_parentheses (hs : s.phase.isEnded) :
    ∃ t, expression.advance s (.replicate s.depth 41) = some t ∧ t.Accepting := by
  obtain ⟨p, depth⟩ := s
  induction depth generalizing p with
  | zero => exact ⟨_, rfl, hs, rfl⟩
  | succ depth ih =>
    obtain ⟨t, ht, hacc⟩ := ih .complete rfl
    have hp : p.extend 41 = none := by
      cases p with
      | operand signed => simp [Phase.isEnded] at hs
      | _ => decide
    refine ⟨t, ?_, hacc⟩
    rw [List.replicate_succ, advance_cons, step_of_isEnded hp hs]
    exact ht

/-- Every standing leads on to a whole expression. -/
theorem advance_completion (s : Standing) : ∃ t, expression.advance s (completion s) = some t ∧ t.Accepting := by
  by_cases hs : s.phase.isEnded
  · rw [completion, if_pos hs]
    exact advance_parentheses hs
  · obtain ⟨p, depth⟩ := s
    have hdigit : expression.advance ⟨p, depth⟩ (ascii "1") = some ⟨.whole, depth⟩ := by
      cases p with
      | operand signed => cases signed <;> rfl
      | _ => exact absurd rfl hs
    rw [completion, if_neg hs, advance_append hdigit]
    exact advance_parentheses (s := ⟨.whole, depth⟩) rfl

end Level

end Furthest.Calculator
