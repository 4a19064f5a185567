import Furthest.Proofs.Calculator.Standing
import Furthest.Proofs.Outcomes

/-!
# Tokens of expressions

What the parsers of a single byte and of a number do, with the blanks around them, for an input in which no
repetition comes to its greatest count (`Countable`). A record that has seen the end of the last token is the one
that `Level.expected` has for the standing there.

Main statements: `matches_token_satisfy`, `fails_token_satisfy`, `matches_token_number` and `fails_token_number`.
-/

namespace Furthest.Calculator

open Furthest.Parser

variable {σ ν α : Type}

/-- No repetition in an expression comes to its greatest count. -/
structure Countable (xs : Bytes) : Prop where
  blanks : xs.countP ItemClass.blank.accepts < unbounded
  digits : xs.countP ItemClass.digit.accepts < unbounded
  operators : xs.countP (· ∈ Level.expression.operators) < unbounded

theorem countable_of_length {xs : Bytes} (h : xs.length < unbounded) : Countable xs :=
  ⟨Nat.lt_of_le_of_lt List.countP_le_length h, Nat.lt_of_le_of_lt List.countP_le_length h,
    Nat.lt_of_le_of_lt List.countP_le_length h⟩

theorem length_le_countP {xs u rest : Bytes} {i : Nat} {q : UInt8 → Bool} (h : xs.drop i = u ++ rest)
    (hu : ∀ c ∈ u, q c) : u.length ≤ xs.countP q := by
  rw [← List.countP_eq_length.2 hu]
  have hsub : u.Sublist (xs.drop i) := h ▸ List.sublist_append_left u rest
  exact (hsub.trans (List.drop_sublist i xs)).countP_le

theorem add_length_append (i : Nat) (u w : Bytes) : i + u.length + w.length = i + (u ++ w).length := by
  rw [List.length_append, Nat.add_assoc]

/-- The input does not begin with a blank. -/
def Unspaced (rest : Bytes) : Prop := ∀ c ∈ rest.head?, ¬ ItemClass.blank.accepts c

variable {xs b b' d w f ys rest : Bytes} {i n : Nat}

theorem exists_blanks (ys : Bytes) : ∃ b rest, ys = b ++ rest ∧ Blanks b ∧ Unspaced rest :=
  exists_run ItemClass.blank ys

theorem not_accepts_symbol {c : UInt8} (h : rest.head? ≠ some c) :
    ∀ x ∈ rest.head?, ¬ (ItemClass.symbol c).accepts x := fun x hx hcls => by
  obtain rfl : x = c := by simpa [ItemClass.symbol, ItemClass.only] using hcls
  exact h hx

/-! ## Blanks around a parser -/

section Token

variable {p : Parser σ UInt8 α} {v : α} {m : Nat} {r : Record} (hx : Countable xs)
include hx

theorem matches_blanks (h : xs.drop i = b ++ rest) (hb : Blanks b) (hrest : Unspaced rest) :
    (space.many : Parser σ UInt8 Bytes).Matches xs i b (i + b.length)
      (.raised (i + b.length) (.singleton (ascii "a space"))) :=
  matches_many h hb hrest (Nat.lt_of_le_of_lt (length_le_countP h hb) hx.blanks)

theorem matches_no_blanks (h : Unspaced (xs.drop i)) :
    (space.many : Parser σ UInt8 Bytes).Matches xs i [] i (.raised i (.singleton (ascii "a space"))) :=
  matches_blanks (b := []) hx rfl nofun h

theorem matches_token (h : xs.drop i = b ++ ys) (hb : Blanks b) (hys : Unspaced ys)
    (hp : p.Matches xs (i + b.length) v m r) (h' : xs.drop m = b' ++ rest) (hb' : Blanks b')
    (hrest : Unspaced rest) :
    (token p).Matches xs i v (m + b'.length)
      ((Record.raised (m + b'.length) (.singleton (ascii "a space"))).merge
        (r.merge (.raised (i + b.length) (.singleton (ascii "a space"))))) :=
  ((matches_blanks hx h hb hys).andThen hp).skip (matches_blanks hx h' hb' hrest)

theorem fails_token (h : xs.drop i = b ++ ys) (hb : Blanks b) (hys : Unspaced ys)
    (hp : p.Fails xs (i + b.length) r) :
    (token p).Fails xs i (r.merge (.raised (i + b.length) (.singleton (ascii "a space")))) :=
  ((matches_blanks hx h hb hys).andThen_fails hp).skip _

/-- A single byte with the blanks around it. -/
theorem matches_token_satisfy {c : ItemClass UInt8} {x : UInt8} (h : xs.drop i = b ++ x :: b' ++ rest)
    (hb : Blanks b) (hc : c.accepts x) (hblank : ¬ ItemClass.blank.accepts x) (hb' : Blanks b')
    (hrest : Unspaced rest) :
    (token (satisfy c) : Parser σ UInt8 UInt8).Matches xs i x (i + (b ++ x :: b').length)
      (.raised (i + (b ++ x :: b').length) (.singleton (ascii "a space"))) := by
  rw [List.append_assoc] at h
  have hx₁ : xs.drop (i + b.length) = x :: (b' ++ rest) := drop_add_length h
  have hx₂ : xs.drop (i + b.length + [x].length) = b' ++ rest := drop_add_length hx₁
  have hunspaced : Unspaced (x :: (b' ++ rest)) := fun y hy => by
    cases hy
    exact hblank
  have htoken := matches_token hx h hb hunspaced (matches_satisfy (σ := σ) hx₁ hc) hx₂ hb' hrest
  have hlen : i + b.length + 1 + b'.length = i + (b ++ x :: b').length := by
    simp only [List.length_append, List.length_cons]
    omega
  rwa [Record.empty_merge (Record.proper_of_isEngaged rfl), Record.raised_merge_of_gt (by omega), hlen] at htoken

theorem fails_token_satisfy {c : ItemClass UInt8} (h : xs.drop i = b ++ rest) (hb : Blanks b)
    (hrest : Unspaced rest) (hc : ∀ x ∈ rest.head?, ¬ c.accepts x) :
    (token (satisfy c) : Parser σ UInt8 UInt8).Fails xs i
      (.raised (i + b.length) (.singleton c.label ∪ .singleton (ascii "a space"))) := by
  have hfails : (satisfy c : Parser σ UInt8 UInt8).Fails xs (i + b.length) _ :=
    fails_satisfy (by rw [drop_add_length h]; exact hc)
  have htoken := fails_token hx h hb hrest hfails
  rwa [Record.raised_merge_self] at htoken

end Token

/-! ## Numbers -/

/-- Where a reader of a number is after it. -/
def numeralPhase (d : Bytes) : Phase := if 46 ∈ d then .fraction else .whole

/-- A number does not go on after it. -/
def NumeralEnds (d rest : Bytes) : Prop := ∀ c ∈ rest.head?, ¬ ItemClass.digit.accepts c ∧ (46 ∉ d → c ≠ 46)

theorem point_not_mem (hw : Digits w) : 46 ∉ w := fun h => by
  have := hw 46 h
  revert this
  decide

theorem numeralPhase_isEnded (d : Bytes) : (numeralPhase d).isEnded := by
  unfold numeralPhase
  split <;> rfl

theorem advance_numeral {L : Level} {signed : Bool} {depth : Nat} (hd : IsNumeral d) :
    L.advance ⟨.operand signed, depth⟩ d = some ⟨numeralPhase d, depth⟩ := by
  cases hd with
  | whole hne hw => rw [Level.advance_digits hw hne, numeralPhase, if_neg (point_not_mem hw)]
  | @fraction w f hne hw hf =>
    have hpoint : L.advance ⟨.whole, depth⟩ (ascii ".") = some ⟨.fraction, depth⟩ := rfl
    rw [List.append_assoc, Level.advance_append (Level.advance_digits hw hne), Level.advance_append hpoint,
      Level.advance_fraction hf, numeralPhase, if_pos (by simp [ascii])]

theorem extend_numeralPhase {c : UInt8} (hblank : ¬ ItemClass.blank.accepts c)
    (hends : ¬ ItemClass.digit.accepts c ∧ (46 ∉ d → c ≠ 46)) : (numeralPhase d).extend c = none := by
  by_cases h : 46 ∈ d
  · simp [numeralPhase, h, Phase.extend, hblank, hends.1]
  · simp [numeralPhase, h, Phase.extend, hblank, hends.1, hends.2 h]

theorem IsNumeral.ne_nil (hd : IsNumeral d) : d ≠ [] := by
  cases hd with
  | whole hne hw => exact hne
  | fraction hne hw hf => simp [hne]

/-- A number begins with a digit. -/
theorem IsNumeral.head_digit (hd : IsNumeral d) {c : UInt8} (hc : c ∈ (d ++ ys).head?) :
    ItemClass.digit.accepts c := by
  have head : ∀ {w : Bytes}, w ≠ [] → Digits w → ∀ ys, c ∈ (w ++ ys).head? → ItemClass.digit.accepts c := by
    intro w hne hw ys hc
    obtain ⟨x, w, rfl⟩ := List.exists_cons_of_ne_nil hne
    cases hc
    exact hw c List.mem_cons_self
  cases hd with
  | whole hne hw => exact head hne hw ys hc
  | @fraction w f hne hw hf =>
    rw [List.append_assoc, List.append_assoc] at hc
    exact head hne hw _ hc

/-- A text that begins with a digit begins with a number. -/
theorem exists_numeral {c : UInt8} (hc : ItemClass.digit.accepts c) (ys : Bytes) :
    ∃ d rest, c :: ys = d ++ rest ∧ IsNumeral d ∧ NumeralEnds d rest := by
  obtain ⟨w, rest, h, hw, hrest⟩ := exists_run ItemClass.digit (c :: ys)
  have hne : w ≠ [] := by
    rintro rfl
    rw [List.nil_append] at h
    exact hrest c (by rw [← h]; rfl) hc
  by_cases hpoint : rest.head? = some 46
  · obtain ⟨ys', rfl⟩ := List.head?_eq_some_iff.1 hpoint
    obtain ⟨f, rest', rfl, hf, hrest'⟩ := exists_run ItemClass.digit ys'
    exact ⟨w ++ ascii "." ++ f, rest', by rw [h]; simp [ascii], .fraction hne hw hf,
      fun x hx => ⟨hrest' x hx, fun h46 => absurd (by simp [ascii]) h46⟩⟩
  · refine ⟨w, rest, h, .whole hne hw, fun x hx => ⟨hrest x hx, fun _ => ?_⟩⟩
    rintro rfl
    exact hpoint hx

section Number

variable {A : Arithmetic ν} (hx : Countable xs)
include hx

theorem matches_digits (h : xs.drop i = w ++ rest) (hw : Digits w)
    (hrest : ∀ c ∈ rest.head?, ¬ ItemClass.digit.accepts c) :
    (digit.many : Parser σ UInt8 Bytes).Matches xs i w (i + w.length)
      (.raised (i + w.length) (.singleton (ascii "a digit"))) :=
  matches_many h hw hrest (Nat.lt_of_le_of_lt (length_le_countP h hw) hx.digits)

omit hx in
theorem le_length_of_drop (h : xs.drop i = w ++ rest) (hne : w ≠ []) : i + w.length ≤ xs.length := by
  have hlen := congrArg List.length h
  have hpos := List.length_pos_iff.2 hne
  simp only [List.length_drop, List.length_append] at hlen
  omega

theorem matches_numeral (hd : IsNumeral d) (h : xs.drop i = d ++ rest) (hrest : NumeralEnds d rest) :
    ∃ l, (numeral : Parser σ UInt8 Bytes).Matches xs i d (i + d.length) (.raised (i + d.length) l) ∧
      .singleton (ascii "a space") ∪ l = Level.primary.expected ⟨numeralPhase d, 0⟩ := by
  cases hd with
  | whole hne hw =>
    have hpoint := point_not_mem hw
    have hdigits := matches_oneOrMore (σ := σ) h hw hne (fun c hc => (hrest c hc).1)
      (Nat.lt_of_le_of_lt (length_le_countP h hw) hx.digits)
    have hstr : (str (ascii ".") : Parser σ UInt8 Bytes).Fails xs (i + d.length)
        (.raised (i + d.length) (.singleton (ascii "."))) := by
      refine fails_str (fun hprefix => ?_) (le_length_of_drop h hne)
      rw [drop_add_length h] at hprefix
      obtain ⟨ys, rfl⟩ := hprefix
      exact (hrest 46 rfl).2 hpoint rfl
    have hfraction := ((hstr.pair digit.many).map fun (v, w) => v ++ w).optional.map (·.getD [])
    have hnumeral : (numeral : Parser σ UInt8 Bytes).Matches xs i (d ++ []) (i + d.length) _ :=
      hdigits.combine₂ (· ++ ·) hfraction
    rw [Record.raised_merge_self, List.append_nil] at hnumeral
    refine ⟨_, hnumeral, ?_⟩
    rw [numeralPhase, if_neg hpoint]
    decide
  | @fraction w f hne hw hf =>
    rw [List.append_assoc, List.append_assoc] at h
    have hstop : ∀ c ∈ (ascii "." ++ (f ++ rest)).head?, ¬ ItemClass.digit.accepts c := by
      intro c hc
      cases hc
      decide
    have hdigits := matches_oneOrMore (σ := σ) h hw hne hstop
      (Nat.lt_of_le_of_lt (length_le_countP h hw) hx.digits)
    have hdrop := drop_add_length h
    have hstr := matches_str (σ := σ) hdrop (le_length_of_drop h hne)
    have hmany := matches_digits (σ := σ) hx (drop_add_length hdrop) hf fun c hc => (hrest c hc).1
    have hfraction := (hstr.combine₂ (· ++ ·) hmany).optional.map (·.getD [])
    have hnumeral : (numeral : Parser σ UInt8 Bytes).Matches xs i (w ++ (ascii "." ++ f)) _ _ :=
      hdigits.combine₂ (· ++ ·) hfraction
    have hpoint : (ascii ".").length = 1 := rfl
    have hlen : i + w.length + (ascii ".").length + f.length = i + (w ++ (ascii "." ++ f)).length := by
      simp only [List.length_append]
      omega
    rw [Record.merge_empty, Record.raised_merge_of_gt (by omega), hlen] at hnumeral
    rw [List.append_assoc]
    refine ⟨_, hnumeral, ?_⟩
    rw [numeralPhase, if_pos (by simp [ascii])]
    decide

theorem matches_number (hd : IsNumeral d) (h : xs.drop i = d ++ rest) (hrest : NumeralEnds d rest) :
    ∃ l, (number A : Parser σ UInt8 ν).Matches xs i (A.ofNumeral d) (i + d.length) (.raised (i + d.length) l) ∧
      .singleton (ascii "a space") ∪ l = Level.primary.expected ⟨numeralPhase d, 0⟩ := by
  obtain ⟨l, hm, hl⟩ := matches_numeral (σ := σ) hx hd h hrest
  exact ⟨l, ((hm.map _).desc _).traced _, hl⟩

omit hx in
theorem fails_number (h : ∀ c ∈ (xs.drop i).head?, ¬ ItemClass.digit.accepts c) :
    (number A : Parser σ UInt8 ν).Fails xs i (.raised i (.singleton (ascii "a number"))) :=
  (((((fails_oneOrMore h).pair _).map _).map _).desc _).traced _

/-- A number with the blanks around it. -/
theorem matches_token_number (hd : IsNumeral d) (h : xs.drop i = b ++ d ++ b' ++ rest) (hb : Blanks b)
    (hb' : Blanks b') (hrest : Unspaced rest) (hends : NumeralEnds d (b' ++ rest)) :
    (token (number A) : Parser σ UInt8 ν).Matches xs i (A.ofNumeral d) (i + (b ++ d ++ b').length)
      (.raised (i + (b ++ d ++ b').length)
        (Level.primary.expected (if b' = [] then ⟨numeralPhase d, 0⟩ else ⟨.complete, 0⟩))) := by
  rw [List.append_assoc, List.append_assoc] at h
  have hx₁ : xs.drop (i + b.length) = d ++ (b' ++ rest) := drop_add_length h
  have hunspaced : Unspaced (d ++ (b' ++ rest)) := fun c hc => by
    simp [Level.not_blank_of_digit (hd.head_digit hc)]
  obtain ⟨l, hm, hl⟩ := matches_number (σ := σ) (A := A) hx hd hx₁ hends
  have htoken := matches_token hx h hb hunspaced hm (drop_add_length hx₁) hb' hrest
  have hpos : 0 < d.length := List.length_pos_iff.2 hd.ne_nil
  have hlen : i + b.length + d.length + b'.length = i + (b ++ d ++ b').length := by
    simp only [List.length_append]
    omega
  rw [Record.raised_merge_of_gt (by omega)] at htoken
  by_cases hempty : b' = []
  · subst hempty
    rw [if_pos rfl, ← hl]
    rwa [hlen, ← Nat.add_zero (i + b.length + d.length), ← List.length_nil, hlen, Record.raised_merge_self] at htoken
  · have hlt := List.length_pos_iff.2 hempty
    rw [Record.raised_merge_of_gt (by omega), hlen] at htoken
    rw [if_neg hempty]
    exact htoken

theorem fails_token_number (h : xs.drop i = b ++ rest) (hb : Blanks b) (hrest : Unspaced rest)
    (hd : ∀ c ∈ rest.head?, ¬ ItemClass.digit.accepts c) :
    (token (number A) : Parser σ UInt8 ν).Fails xs i
      (.raised (i + b.length) (.singleton (ascii "a number") ∪ .singleton (ascii "a space"))) := by
  have hfails : (number A : Parser σ UInt8 ν).Fails xs (i + b.length) _ :=
    fails_number (by rw [drop_add_length h]; exact hd)
  have htoken := fails_token hx h hb hrest hfails
  rwa [Record.raised_merge_self] at htoken

end Number

end Furthest.Calculator
