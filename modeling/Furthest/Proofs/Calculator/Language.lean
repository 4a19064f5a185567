import Furthest.Proofs.Calculator.Completeness

/-!
# The language of the calculator

The calculator accepts the sentences that the grammar derives, with the values that it derives for them, and no
other input. What it reads of an input decides how it ends (`parse_calculator`): a whole sentence is accepted, and
anything else is rejected where reading got stuck.

Main statement: `parse_iff_derives`.
-/

namespace Furthest.Calculator

open Furthest.Parser

variable {σ ν : Type} {A : Arithmetic ν} {s u rest : Bytes} {t : Standing} {v : ν}

/-- What may come next, the end of the input included. -/
def outlook (t : Standing) : Labels :=
  if t.Accepting then .singleton endLabel ∪ Level.expression.expected t else Level.expression.expected t

/-- What is read of an input and how the calculator ends for it. -/
theorem parse_calculator (A : Arithmetic ν) (hx : Countable s) :
    ∃ u rest t, Reads .expression ⟨.operand false, 0⟩ s u rest t ∧
      ((rest = [] ∧ t.Accepting ∧ ∃ v, Derives A Padded .expression s v ∧
          ((calculator A).parse s : Run σ (Except ParseError ν)).Ends (.ok v)) ∨
        (¬ (rest = [] ∧ t.Accepting) ∧ ((calculator A).parse s : Run σ (Except ParseError ν)).Ends
          (.error (.ofRecord s (.raised u.length (outlook t)))))) := by
  have length_eq {u rest : Bytes} {t : Standing} (hr : Reads .expression ⟨.operand false, 0⟩ s u rest t) :
      s.length = u.length + rest.length := by
    rw [hr.eq_append, List.length_append]
  cases calculator_settles (σ := σ) (A := A) hx with
  | @complete u rest t v hr ht hd hp =>
    rw [List.drop_zero] at hr
    refine ⟨u, rest, t, hr, ?_⟩
    rw [Nat.zero_add] at hp
    by_cases hrest : rest = []
    · subst hrest
      obtain rfl : s = u := by rw [hr.eq_append, List.append_nil]
      exact .inl ⟨rfl, ht, v, hd, hp.parse rfl⟩
    · have hpos := List.length_pos_iff.2 hrest
      have hlen := length_eq hr
      have hparse := hp.parse_rest (by omega)
      rw [Record.raised_merge_self] at hparse
      rw [outlook, if_pos ht]
      exact .inr ⟨fun h => hrest h.1, hparse⟩
  | @refused u rest t hr ht hp =>
    rw [List.drop_zero] at hr
    rw [Nat.zero_add] at hp
    refine ⟨u, rest, t, hr, .inr ⟨fun h => ht h.2, ?_⟩⟩
    rw [outlook, if_neg ht]
    exact hp.parse
  | @short u rest t v n c hr ht hp hi hn hc hop =>
    rw [List.drop_zero] at hr
    rw [Nat.zero_add] at hp hn
    have hlen := length_eq hr
    have hparse := hp.parse_rest (by omega)
    rw [Record.raised_merge_of_lt hn] at hparse
    refine ⟨u, rest, t, hr, .inr ⟨fun h => ht h.2, ?_⟩⟩
    rw [outlook, if_neg ht]
    exact hparse

/-- The calculator matches a sentence to its end. -/
theorem Derives.matches_calculator (h : Derives A Padded .expression s v) (hs : s.length < unbounded) :
    ∃ f, (calculator A : Parser σ UInt8 ν).Matches s 0 v s.length f := by
  obtain ⟨b, w, hb, rfl, hw⟩ := h.trailed
  have hdrop : (b ++ w).drop b.length = w ++ [] := by simp
  have hlen : b.length + w.length = (b ++ w).length := List.length_append.symm
  have hfound := hw.findable (σ := σ) hs _ _ hdrop nofun
  rw [hlen] at hfound
  obtain ⟨f, hf⟩ := hfound.matches_expression hs (.factor A _ _) (Nat.le_refl _) (by rw [List.drop_length]; nofun)
  have hrest : (b ++ w).drop (b ++ w).length = [] ++ [] := List.drop_length
  have htoken := matches_token (countable_of_length hs) (i := 0) rfl hb (by simpa using hw.unspaced [])
    (by rw [Nat.zero_add]; exact hf) hrest nofun nofun
  exact ⟨_, htoken⟩

/-- The values that the calculator computes are those that the grammar derives, and what has none is rejected. An
input is shorter than the greatest size, which is `unbounded` as well. -/
theorem parse_iff_derives (A : Arithmetic ν) (s : Bytes) (hs : s.length < unbounded) (env : Env σ) :
    (∀ v, ((calculator A).parse s).outcome env = .ok (.ok v) ↔ Derives A Padded .expression s v) ∧
      ((∀ v, ¬ Derives A Padded .expression s v) →
        ∃ e, ((calculator A).parse s).outcome env = .ok (.error e)) := by
  obtain ⟨u, rest, t, -, h⟩ := parse_calculator (σ := σ) A (countable_of_length hs)
  refine ⟨fun v => ⟨fun hv => ?_, fun hd => ?_⟩, fun hnone => ?_⟩
  · rcases h with ⟨-, -, w, hw, hends⟩ | ⟨-, hends⟩
    · obtain rfl : v = w := Except.ok.inj (hends.eq_of_outcome hv)
      exact hw
    · cases hends.eq_of_outcome hv
  · obtain ⟨f, hf⟩ := hd.matches_calculator (σ := σ) hs
    exact hf.parse rfl env
  · rcases h with ⟨-, -, w, hw, -⟩ | ⟨-, hends⟩
    · exact absurd hw (hnone w)
    · exact ⟨_, hends env⟩

/-- A sign applies to a whole power. -/
theorem parse_iff_derives_of_sign_before_power :
    let A : Arithmetic Int := ⟨fun d => Decimal.ofDigits d, (· + ·), (· - ·), (· * ·), (· / ·), (- ·),
      fun x y => Int.pow x y.toNat⟩
    let s : Bytes := ascii "-2 ^2"
    s.length < unbounded ∧ Derives A Padded .expression s (-4) ∧
      ((calculator A).parse s).outcome ⟨.ofLevel .off, ()⟩ = .ok (.ok (-4)) := by
  intro A s
  have hs : s.length < unbounded := by decide
  have two : IsNumeral (ascii "2") := .whole (by decide) (by decide)
  have base : Derives A Padded .primary (ascii "2 ") 2 := .number two ⟨[], ascii " ", nofun, by decide, rfl⟩
  have exponent : Derives A Padded .factor (ascii "2") 2 :=
    .single rfl (.single rfl (.number two ⟨[], [], nofun, nofun, rfl⟩))
  have power : Derives A Padded .power (ascii "2 ^2") 4 :=
    .pow (t := ascii "^") base ⟨[], [], nofun, nofun, rfl⟩ exponent
  have sentence : Derives A Padded .expression s (-4) :=
    .single rfl (.single rfl (.neg (t := ascii "-") ⟨[], [], nofun, nofun, rfl⟩ power))
  exact ⟨hs, sentence, ((parse_iff_derives A s hs ⟨.ofLevel .off, ()⟩).1 (-4)).2 sentence⟩

end Furthest.Calculator
