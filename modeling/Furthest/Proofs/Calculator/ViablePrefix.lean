import Furthest.Proofs.Calculator.Language

/-!
# Errors of the calculator

The index of an error ends the longest prefix of the input that some accepted input begins with. Reading gets stuck
there: what was read leads on to a whole expression (`Level.advance_completion`), and no input that has one byte more
of the rejected one can be read any further.

Main statement: `error_index_longest_viable_prefix`.
-/

namespace Furthest.Calculator

open Furthest.Parser

variable {σ ν : Type} {L : Level} {s t t' : Standing} {text u u' w rest rest' : Bytes} {c : UInt8}

/-- How far a text is read is determined. -/
theorem Reads.unique (h : Reads L s text u rest t) (h' : Reads L s text u' rest' t') :
    u = u' ∧ rest = rest' ∧ t = t' := by
  have hle := h'.length_le h.eq_append (by simp [h.advance])
  have hge := h.length_le h'.eq_append (by simp [h'.advance])
  obtain ⟨rfl, rfl⟩ := List.append_inj (h.eq_append.symm.trans h'.eq_append) (Nat.le_antisymm hle hge)
  exact ⟨rfl, rfl, Option.some.inj (h.advance.symm.trans h'.advance)⟩

/-- A text that is read to its end. -/
theorem Reads.of_advance (h : L.advance s u = some t) : Reads L s u u [] t :=
  ⟨(List.append_nil u).symm, h, nofun⟩

/-- Reading gets stuck at a byte whatever comes after it. -/
theorem Reads.replace (h : Reads L s text u (c :: rest) t) (ys : Bytes) : Reads L s (u ++ c :: ys) u (c :: ys) t :=
  ⟨rfl, h.advance, fun _ hx => h.stuck _ hx⟩

/-- A whole sentence is accepted. -/
theorem accepts_of_advance (A : Arithmetic ν) (hx : Countable u)
    (h : Level.expression.advance ⟨.operand false, 0⟩ u = some t) (ht : t.Accepting) :
    ∃ v, ((calculator A).parse u : Run σ (Except ParseError ν)).Ends (.ok v) := by
  obtain ⟨u', rest, t', hr, hends⟩ := parse_calculator (σ := σ) A hx
  obtain ⟨rfl, rfl, rfl⟩ := (Reads.of_advance h).unique hr
  rcases hends with ⟨-, -, v, -, hends⟩ | ⟨hn, -⟩
  · exact ⟨v, hends⟩
  · exact absurd ⟨rfl, ht⟩ hn

/-- Where an operand is missing, one more digit can be counted. -/
theorem countP_digits_lt (hlen : u.length < unbounded) (h : L.advance ⟨.operand false, 0⟩ u = some t)
    (ht : ¬ t.phase.isEnded) : u.countP ItemClass.digit.accepts + 1 < unbounded := by
  by_cases hu : u = []
  · subst hu
    decide
  · have hle : u.countP ItemClass.digit.accepts ≤ u.length := List.countP_le_length
    have hne : u.countP ItemClass.digit.accepts ≠ u.length := fun heq => by
      rw [Level.advance_digits (List.countP_eq_length.1 heq) hu] at h
      cases h
      exact ht rfl
    omega

theorem countP_completion {q : UInt8 → Bool} (hq : q 41 = false) :
    (Level.completion t).countP q = if t.phase.isEnded then 0 else (ascii "1").countP q := by
  rw [Level.completion, List.countP_append, List.countP_replicate, hq, if_neg Bool.false_ne_true]
  split <;> rfl

/-- The completed text is not too long for any repetition. -/
theorem countable_completion (hlen : u.length < unbounded) (h : L.advance ⟨.operand false, 0⟩ u = some t) :
    Countable (u ++ Level.completion t) := by
  have hblanks : u.countP ItemClass.blank.accepts ≤ u.length := List.countP_le_length
  have hdigits : u.countP ItemClass.digit.accepts ≤ u.length := List.countP_le_length
  have hoperators : u.countP (· ∈ Level.expression.operators) ≤ u.length := List.countP_le_length
  constructor <;> rw [List.countP_append, countP_completion (by decide)] <;> split
  · omega
  · have hone : (ascii "1").countP ItemClass.blank.accepts = 0 := by decide
    omega
  · omega
  · next ht =>
    have hone : (ascii "1").countP ItemClass.digit.accepts = 1 := by decide
    rw [hone]
    exact countP_digits_lt hlen h ht
  · omega
  · have hone : (ascii "1").countP (· ∈ Level.expression.operators) = 0 := by decide
    omega

theorem length_completion_le (h : L.advance ⟨.operand false, 0⟩ u = some t) :
    (Level.completion t).length ≤ u.length + 1 := by
  have hdepth := Level.depth_le_of_advance h
  simp only [Level.completion, List.length_append, List.length_replicate, Nat.zero_add] at hdepth ⊢
  have hone : (if t.phase.isEnded then [] else ascii "1").length ≤ 1 := by split <;> decide
  omega

/-- An error points at the end of the longest prefix of the input that an accepted input begins with. Inputs are
shorter than the greatest size. -/
theorem error_index_longest_viable_prefix (A : Arithmetic ν) (s : Bytes) (hs : s.length < unbounded) (env : Env σ)
    (e : ParseError) (he : ((calculator A).parse s).outcome env = .ok (.error e)) :
    e.index ≤ s.length ∧
      (∃ w v, w.length ≤ e.index + 1 ∧
        ((calculator A).parse (s.take e.index ++ w) : Run σ (Except ParseError ν)).Ends (.ok v)) ∧
      (e.index < s.length → ∀ w, (s.take (e.index + 1) ++ w).length < unbounded → ∀ (env : Env σ) v,
        ((calculator A).parse (s.take (e.index + 1) ++ w)).outcome env ≠ .ok (.ok v)) := by
  obtain ⟨u, rest, t, hr, ⟨-, -, v, -, hends⟩ | ⟨-, hends⟩⟩ := parse_calculator (σ := σ) A (countable_of_length hs)
  · cases hends.eq_of_outcome he
  have hindex : e.index = u.length := by
    rw [Except.error.inj (hends.eq_of_outcome he)]
    rfl
  have hlen : s.length = u.length + rest.length := by rw [hr.eq_append, List.length_append]
  rw [hindex]
  refine ⟨by omega, ?_, fun hlt w hw env v hv => ?_⟩
  · have hu : s.take u.length = u := by rw [hr.eq_append, List.take_left]
    obtain ⟨t', ht', haccepting⟩ := Level.advance_completion t
    have hall : Level.expression.advance ⟨.operand false, 0⟩ (u ++ Level.completion t) = some t' := by
      rw [Level.advance_append hr.advance, ht']
    obtain ⟨v, hv⟩ := accepts_of_advance A (countable_completion (by omega) hr.advance) hall haccepting
    rw [hu]
    exact ⟨Level.completion t, v, length_completion_le hr.advance, hv⟩
  · cases rest with
    | nil =>
      rw [List.length_nil] at hlen
      omega
    | cons c rest =>
      have htake : s.take (u.length + 1) ++ w = u ++ c :: w := by
        rw [hr.eq_append, List.take_append, List.take_of_length_le (Nat.le_succ _)]
        simp
      rw [htake] at hw hv
      obtain ⟨u', rest', t', hr', hends'⟩ := parse_calculator (σ := σ) A (countable_of_length hw)
      obtain ⟨-, rfl, -⟩ := (hr.replace w).unique hr'
      rcases hends' with ⟨hnil, -⟩ | ⟨-, hends'⟩
      · cases hnil
      · cases hends'.eq_of_outcome hv

/-- A parenthesis that closes nothing, where an operand is missing. -/
theorem error_index_longest_viable_prefix_of_missing_operand :
    let A : Arithmetic Unit := ⟨fun _ => (), fun _ _ => (), fun _ _ => (), fun _ _ => (), fun _ _ => (), id,
      fun _ _ => ()⟩
    let s : Bytes := ascii "2*)"
    let e : ParseError := ⟨.ofList [ascii "a space", ascii "a number", ascii "(", ascii "-"], 2, ascii "0:2"⟩
    let env : Env Unit := ⟨.ofLevel .off, ()⟩
    s.length < unbounded ∧ ((calculator A).parse s).outcome env = .ok (.error e) ∧ 2 < s.length ∧
      (∃ w v, w.length ≤ 3 ∧ ((calculator A).parse (ascii "2*" ++ w)).outcome env = .ok (.ok v)) ∧
      ∀ w, (ascii "2*)" ++ w).length < unbounded → ∀ v,
        ((calculator A).parse (ascii "2*)" ++ w)).outcome env ≠ .ok (.ok v) := by
  intro A s e env
  have hs : s.length < unbounded := by decide
  have he : ((calculator A).parse s).outcome env = .ok (.error e) := by decide
  have hlt : 2 < s.length := by decide
  obtain ⟨-, ⟨w, v, hw, hv⟩, hstuck⟩ := error_index_longest_viable_prefix A s hs env e he
  exact ⟨hs, he, hlt, ⟨w, v, hw, hv env⟩, fun w hw v => hstuck hlt w hw env v⟩

end Furthest.Calculator
