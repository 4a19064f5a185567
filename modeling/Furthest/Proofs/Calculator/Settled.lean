import Furthest.Proofs.Calculator.Tokens

/-!
# How far the rules get

A rule that is invoked before an operand reads as far as its level allows, and `Settles` in one of three ways: it
matches all that is read, if that is a whole sentence; or it fails; or it matches what comes before an operator that
it had to give back. The failures that it has seen lie where reading got stuck, in all three cases, and name what
could have come next there.

Main statements: `primaryOf_settles`, `powerOf_settles` and `factorOf_settles`, each of a rule over factors that
settle further on in the input.
-/

namespace Furthest.Calculator

open Furthest.Parser

variable {σ ν : Type}

/-- A text is read until no further byte can be read. -/
structure Reads (L : Level) (s : Standing) (text u rest : Bytes) (t : Standing) : Prop where
  eq_append : text = u ++ rest
  advance : L.advance s u = some t
  stuck : ∀ c ∈ rest.head?, L.step t c = none

/-- An invocation at a cursor has seen the failure where reading got stuck, and ends accordingly. -/
inductive Settles (p : Parser σ UInt8 ν) (L : Level) (signed : Bool) (derives : Bytes → ν → Prop) (xs : Bytes)
    (i : Nat) : Prop where
  | complete {u rest : Bytes} {t : Standing} {v : ν} (hr : Reads L ⟨.operand signed, 0⟩ (xs.drop i) u rest t)
    (ht : t.Accepting) (hd : derives u v) (hp : p.Matches xs i v (i + u.length) (.raised (i + u.length) (L.expected t)))
  | refused {u rest : Bytes} {t : Standing} (hr : Reads L ⟨.operand signed, 0⟩ (xs.drop i) u rest t)
    (ht : ¬ t.Accepting) (hp : p.Fails xs i (.raised (i + u.length) (L.expected t)))
  /-- The operator after what is matched belongs to the level, but no operand follows it. -/
  | short {u rest : Bytes} {t : Standing} {v : ν} {n : Nat} {c : UInt8}
    (hr : Reads L ⟨.operand signed, 0⟩ (xs.drop i) u rest t) (ht : ¬ t.Accepting)
    (hp : p.Matches xs i v n (.raised (i + u.length) (L.expected t))) (hi : i ≤ n) (hn : n < i + u.length)
    (hc : xs[n]? = some c) (hop : c ∈ L.operators)

variable {L L' : Level} {signed : Bool} {text u w rest xs b ys : Bytes} {s t : Standing} {i k n : Nat} {c : UInt8}
  {p : Parser σ UInt8 ν} {derives : Bytes → ν → Prop}

namespace Reads

theorem unspaced (h : Reads L s text u rest t) : Unspaced rest := fun c hc hblank =>
  L.step_blank t hblank (h.stuck c hc)

/-- What is not a whole sentence yet is read alike at all levels. -/
theorem of_not_accepting (h : Reads L s text u rest t) (hL : L.operators ⊆ L'.operators)
    (ht : ¬ t.Accepting) : Reads L' s text u rest t :=
  ⟨h.eq_append, Level.advance_mono hL h.advance, fun c hc => by rw [Level.step_congr L' L ht, h.stuck c hc]⟩

/-- A whole sentence may end at another level where none of its operators follows. -/
theorem of_accepting (h : Reads L s text u rest t) (hL : L.operators ⊆ L'.operators) (ht : t.Accepting)
    (hrest : ∀ c ∈ rest.head?, c ∉ L'.operators) : Reads L' s text u rest t :=
  ⟨h.eq_append, Level.advance_mono hL h.advance, fun c hc => by
    rw [Level.step_accepting ht (Level.extend_of_step_eq_none (h.stuck c hc)), if_neg (hrest c hc)]⟩

/-- Reading goes on after a first part. -/
theorem after {s' : Standing} (h : Reads L s' ys u rest t) (hw : L.advance s w = some s') :
    Reads L s (w ++ ys) (w ++ u) rest t :=
  ⟨by rw [h.eq_append, List.append_assoc], by rw [Level.advance_append hw, h.advance], h.stuck⟩

/-- Reading goes on in the input after a first part of what is left. -/
theorem after_drop {s' : Standing} (h : Reads L s' (xs.drop (i + w.length)) u rest t) (hdrop : xs.drop i = w ++ ys)
    (hw : L.advance s w = some s') : Reads L s (xs.drop i) (w ++ u) rest t := by
  rw [drop_add_length hdrop] at h
  rw [hdrop]
  exact h.after hw

/-- Everything that can be read is read. -/
theorem length_le (h : Reads L s text u rest t) (hw : text = w ++ ys)
    (ha : L.advance s w ≠ none) : w.length ≤ u.length := by
  rcases List.append_eq_append_iff.1 (h.eq_append.symm.trans hw) with ⟨v, hv, hrest⟩ | ⟨v, hv, hrest⟩
  · cases v with
    | nil => simp [hv]
    | cons c v =>
      rw [hv, Level.advance_append h.advance, Level.advance_cons, h.stuck c (by rw [hrest]; rfl)] at ha
      exact absurd rfl ha
  · simp [hv]

end Reads

/-! ## Records -/

/-- A failure that has seen what may come next has seen a missing blank there, or before. -/
theorem expected_merge_space (h : n ≤ k) :
    (Record.raised k (L.expected t)).merge (.raised n (.singleton (ascii "a space"))) = .raised k (L.expected t) := by
  rcases Nat.lt_or_eq_of_le h with h | rfl
  · exact Record.raised_merge_of_gt h
  · rw [Record.raised_merge_self]
    refine congrArg _ (Labels.ext fun x => ?_)
    rw [Labels.mem_union, Labels.mem_singleton, or_iff_left_iff_imp]
    rintro rfl
    exact L.space_mem_expected t

theorem space_merge_expected (h : n ≤ k) :
    (Record.raised n (.singleton (ascii "a space"))).merge (.raised k (L.expected t)) = .raised k (L.expected t) := by
  rw [Record.merge_comm (Record.proper_of_isEngaged rfl) (Record.proper_of_isEngaged rfl), expected_merge_space h]

/-- A token that is missing where something else may come next as well. -/
theorem token_merge_expected {label : Bytes} :
    (Record.raised k (.singleton label ∪ .singleton (ascii "a space"))).merge (.raised k (L.expected t)) =
      .raised k (L.expected t ∪ .singleton label) := by
  rw [Record.raised_merge_self]
  refine congrArg _ (Labels.ext fun x => ?_)
  have hspace := L.space_mem_expected t
  simp only [Labels.mem_union, Labels.mem_singleton]
  constructor
  · rintro ((h | rfl) | h)
    · exact .inr h
    · exact .inl hspace
    · exact .inl h
  · rintro (h | h)
    · exact .inr h
    · exact .inl (.inl h)

/-! ## Tokens after an operand -/

theorem not_blank_of_operator (hc : c ∈ Level.expression.operators) : ItemClass.blank.accepts c = false := by
  have hc' : c = 94 ∨ c = 42 ∨ c = 47 ∨ c = 43 ∨ c = 45 := by simpa [Level.operators, ascii] using hc
  rcases hc' with rfl | rfl | rfl | rfl | rfl <;> decide

/-- A token is missing at once where neither it nor a blank follows. -/
theorem fails_token_at {q : ItemClass UInt8} (hx : Countable xs) (hb : Unspaced (xs.drop k))
    (hc : ∀ c ∈ (xs.drop k).head?, ¬ q.accepts c) :
    (token (satisfy q) : Parser σ UInt8 UInt8).Fails xs k
      (.raised k (.singleton q.label ∪ .singleton (ascii "a space"))) :=
  fails_token_satisfy (b := []) hx rfl nofun hb hc

theorem unspaced_of_operator (h : xs[k]? = some c) (hc : c ∈ Level.expression.operators) :
    Unspaced (xs.drop k) := fun x hx => by
  rw [List.head?_drop, h] at hx
  cases hx
  simp [not_blank_of_operator hc]

namespace Settles

theorem congr {q : Parser σ UInt8 ν} (h : Settles p L signed derives xs i) (hq : q xs i = p xs i) :
    Settles q L signed derives xs i := by
  cases h with
  | complete hr ht hd hp => exact .complete hr ht hd (by rwa [Matches, hq])
  | refused hr ht hp => exact .refused hr ht (by rwa [Fails, hq])
  | short hr ht hp hi hn hc hop => exact .short hr ht (by rwa [Matches, hq]) hi hn hc hop

theorem traced (h : Settles p L signed derives xs i) (name : Bytes) :
    Settles (p.traced name) L signed derives xs i := by
  cases h with
  | complete hr ht hd hp => exact .complete hr ht hd (hp.traced name)
  | refused hr ht hp => exact .refused hr ht (hp.traced name)
  | short hr ht hp hi hn hc hop => exact .short hr ht (hp.traced name) hi hn hc hop

/-- After a first part that is read, a rule goes on as the rule does that comes after it. -/
theorem after {q : Parser σ UInt8 ν} {signed' : Bool} {derives' : Bytes → ν → Prop} {g : ν → ν}
    (h : Settles p L signed' derives xs (i + w.length)) (hdrop : xs.drop i = w ++ ys)
    (hw : L.advance ⟨.operand signed, 0⟩ w = some ⟨.operand signed', 0⟩)
    (hd : ∀ {u v}, derives u v → derives' (w ++ u) (g v))
    (hmatches : ∀ {v n k t}, i + w.length ≤ k → p.Matches xs (i + w.length) v n (.raised k (L.expected t)) →
      q.Matches xs i (g v) n (.raised k (L.expected t)))
    (hfails : ∀ {k t}, i + w.length ≤ k → p.Fails xs (i + w.length) (.raised k (L.expected t)) →
      q.Fails xs i (.raised k (L.expected t))) : Settles q L signed derives' xs i := by
  cases h with
  | complete hr ht hderives hp =>
    have hall := hmatches (Nat.le_add_right ..) hp
    rw [add_length_append] at hall
    exact .complete (hr.after_drop hdrop hw) ht (hd hderives) hall
  | refused hr ht hp =>
    have hall := hfails (Nat.le_add_right ..) hp
    rw [add_length_append] at hall
    exact .refused (hr.after_drop hdrop hw) ht hall
  | short hr ht hp hi hn hc hop =>
    have hall := hmatches (Nat.le_add_right ..) hp
    rw [add_length_append] at hall hn
    exact .short (hr.after_drop hdrop hw) ht hall (by omega) hn hc hop

end Settles

/-! ## Primaries -/

variable {A : Arithmetic ν} (hx : Countable xs)
include hx

theorem exists_number (signed : Bool) (h : xs.drop i = b ++ c :: ys) (hb : Blanks b)
    (hc : ItemClass.digit.accepts c) :
    ∃ u rest t v, Reads .primary ⟨.operand signed, 0⟩ (xs.drop i) u rest t ∧ t.Accepting ∧
      Derives A Padded .primary u v ∧ (token (number A) : Parser σ UInt8 ν).Matches xs i v (i + u.length)
        (.raised (i + u.length) (Level.primary.expected t)) := by
  obtain ⟨d, rest, hd, hnumeral, hends⟩ := exists_numeral hc ys
  obtain ⟨b', rest, rfl, hb', hrest⟩ := exists_blanks rest
  have hdrop : xs.drop i = b ++ d ++ b' ++ rest := by simp only [h, hd, List.append_assoc]
  have hacc : (if b' = [] then ⟨numeralPhase d, 0⟩ else ⟨.complete, 0⟩ : Standing).Accepting := by
    split
    · exact ⟨numeralPhase_isEnded d, rfl⟩
    · exact ⟨rfl, rfl⟩
  refine ⟨b ++ d ++ b', rest, _, A.ofNumeral d, ⟨hdrop, ?_, fun x hx => ?_⟩, hacc,
    .number hnumeral ⟨b, b', hb, hb', rfl⟩, matches_token_number hx hnumeral hdrop hb hb' hrest hends⟩
  · rw [List.append_assoc, Level.advance_append (Level.advance_blanks hb),
      Level.advance_append (advance_numeral hnumeral),
      Level.advance_blanks_of_isEnded (numeralPhase_isEnded d) hb']
  · refine (Level.step_accepting hacc ?_).trans (if_neg List.not_mem_nil)
    have hblank := hrest x hx
    split
    · next hempty =>
      subst hempty
      exact extend_numeralPhase hblank (hends x hx)
    · simp [Phase.extend, hblank]

/-- A single byte is read with all blanks around it. -/
theorem exists_token {q : ItemClass UInt8} (h : xs.drop i = b ++ c :: ys) (hb : Blanks b) (hc : q.accepts c)
    (hblank : ¬ ItemClass.blank.accepts c) :
    ∃ o rest b', xs.drop i = o ++ rest ∧ o = b ++ c :: b' ∧ Blanks b' ∧ Unspaced rest ∧
      (token (satisfy q) : Parser σ UInt8 UInt8).Matches xs i c (i + o.length)
        (.raised (i + o.length) (.singleton (ascii "a space"))) := by
  obtain ⟨b', rest, rfl, hb', hrest⟩ := exists_blanks ys
  have hdrop : xs.drop i = b ++ c :: b' ++ rest := by rw [h, List.append_assoc, List.cons_append]
  exact ⟨_, rest, b', hdrop, rfl, hb', hrest, matches_token_satisfy hx hdrop hb hc hblank hb' hrest⟩

omit hx in
/-- What is read of an expression is read inside parentheses. -/
theorem Reads.inside {o : Bytes} {s' : Standing} (h : Reads .expression s' rest u ys t)
    (hclose : t.Accepting → ys.head? ≠ some 41) (ho : L.advance s o = some s'.deepen) :
    Reads L s (o ++ rest) (o ++ u) ys t.deepen := by
  refine ⟨by rw [h.eq_append, List.append_assoc], ?_, fun c hc => ?_⟩
  · rw [Level.advance_append ho]
    exact Level.advance_deepen h.advance
  · refine Level.step_deepen_eq_none (h.stuck c hc) fun ht => ?_
    rintro rfl
    exact hclose ht hc

omit hx in
/-- What is read of an expression, and the parenthesis that closes it. -/
theorem Reads.closed {o cl : Bytes} {s' : Standing} (h : Reads .expression s' rest u (cl ++ ys) t)
    (ht : t.Accepting) (ho : Level.primary.advance s o = some s'.deepen) (hcl : cl = 41 :: b) (hb : Blanks b)
    (hys : Unspaced ys) : Reads .primary s (o ++ rest) (o ++ u ++ cl) ys ⟨.complete, 0⟩ := by
  refine ⟨by simp only [h.eq_append, List.append_assoc], ?_, fun c hc => ?_⟩
  · have hu : Level.primary.advance s'.deepen u = some t.deepen := Level.advance_deepen h.advance
    rw [List.append_assoc, Level.advance_append ho, Level.advance_append hu, hcl]
    exact Level.advance_close ht hb
  · exact (Level.step_accepting ⟨rfl, rfl⟩ (by simp [Phase.extend, hys c hc])).trans (if_neg List.not_mem_nil)

/-- What a parenthesis opens settles as the expression inside it does. -/
theorem settles_parentheses {e : Parser σ UInt8 ν} (h : xs.drop i = b ++ 40 :: ys) (hb : Blanks b)
    (he : ∀ j, i < j → j ≤ xs.length → Settles e .expression false (Derives A Padded .expression) xs j) :
    Settles (((token (symbol 40)).andThen e).skip (token (symbol 41))) .primary signed
      (Derives A Padded .primary) xs i := by
  obtain ⟨o, rest, b', hdrop, ho, hb', -, hopen⟩ :=
    exists_token (σ := σ) (q := .symbol 40) hx h hb (by decide) (by decide)
  have hadvance : Level.primary.advance ⟨.operand signed, 0⟩ o = some ⟨.operand false, 1⟩ := by
    rw [ho]
    exact Level.advance_open hb hb'
  have hne : o ≠ [] := by simp [ho]
  have hpos := List.length_pos_iff.2 hne
  have hm := drop_add_length hdrop
  have hdeep (t : Standing) : ¬ t.deepen.Accepting := fun h => Nat.succ_ne_zero _ h.2
  cases he (i + o.length) (by omega) (le_length_of_drop hdrop hne) with
  | @complete u rest' t v hr ht hd hp =>
    have hk := drop_add_length hr.eq_append
    have hboth := hopen.andThen hp
    rw [expected_merge_space (Nat.le_add_right ..)] at hboth
    rw [hm] at hr
    by_cases hclose : rest'.head? = some 41
    · obtain ⟨ys, rfl⟩ := List.head?_eq_some_iff.1 hclose
      obtain ⟨cl, rest', b'', hcl, rfl, hb'', hrest', htoken⟩ :=
        exists_token (σ := σ) (q := .symbol 41) (b := []) hx hk nofun (by decide) (by decide)
      have hall := hboth.skip htoken
      rw [Record.raised_merge_of_gt (by simp)] at hall
      rw [add_length_append i, add_length_append i] at hall
      rw [show 41 :: ys = _ from hk.symm.trans hcl] at hr
      have hread := hr.closed ht hadvance rfl hb'' hrest'
      rw [← hdrop] at hread
      exact .complete hread ⟨rfl, rfl⟩
        (.parentheses ⟨b, b', hb, hb', by simp [ho, ascii]⟩ hd ⟨[], b'', nofun, hb'', by simp [ascii]⟩) hall
    · have hfails := fails_token_at (σ := σ) (q := .symbol 41) hx (by rw [hk]; exact hr.unspaced)
        (not_accepts_symbol (by rw [hk]; exact hclose))
      have hall := hboth.skip_fails hfails
      rw [token_merge_expected] at hall
      refine .refused (by rw [hdrop]; exact hr.inside (fun _ => hclose) hadvance) (hdeep t) ?_
      rw [← Level.expected_deepen ht, List.length_append, ← Nat.add_assoc]
      exact hall
  | @refused u rest' t hr ht hp =>
    have hall := (hopen.andThen_fails hp).skip (token (symbol 41))
    rw [expected_merge_space (Nat.le_add_right ..)] at hall
    rw [hm] at hr
    refine .refused (by rw [hdrop]; exact hr.inside (fun h => absurd h ht) hadvance) (hdeep t) ?_
    rw [← Level.expected_deepen_of_not_accepting ht, List.length_append, ← Nat.add_assoc]
    exact hall
  | @short u rest' t v n c hr ht hp hi hn hc hop =>
    have hfails := fails_token_at (σ := σ) (q := .symbol 41) hx (unspaced_of_operator hc hop)
      (not_accepts_symbol fun hhead => by
        rw [List.head?_drop, hc] at hhead
        cases hhead
        revert hop
        decide)
    have hall := (hopen.andThen hp).skip_fails hfails
    rw [expected_merge_space (Nat.le_add_right ..), Record.raised_merge_of_lt hn] at hall
    rw [hm] at hr
    refine .refused (by rw [hdrop]; exact hr.inside (fun h => absurd h ht) hadvance) (hdeep t) ?_
    rw [← Level.expected_deepen_of_not_accepting ht, List.length_append, ← Nat.add_assoc]
    exact hall

omit hx in
/-- An alternative that goes on after the failure of another one. -/
theorem Settles.orElse {q : Parser σ UInt8 ν} {l : Labels} (h : Settles q L signed derives xs i)
    (hp : p.Fails xs i (.raised k l))
    (hk : ∀ u rest t, Reads L ⟨.operand signed, 0⟩ (xs.drop i) u rest t → k < i + u.length) :
    Settles (p.orElse q) L signed derives xs i := by
  cases h with
  | complete hr ht hd hq =>
    have hall := hp.orElse hq
    rw [Record.raised_merge_of_gt (hk _ _ _ hr)] at hall
    exact .complete hr ht hd hall
  | refused hr ht hq =>
    have hall := hp.orElse_fails hq
    rw [Record.raised_merge_of_gt (hk _ _ _ hr)] at hall
    exact .refused hr ht hall
  | short hr ht hq hi hn hc hop =>
    have hall := hp.orElse hq
    rw [Record.raised_merge_of_gt (hk _ _ _ hr)] at hall
    exact .short hr ht hall hi hn hc hop

/-- A primary over expressions that settle further on. -/
theorem primaryOf_settles {factor : Parser σ UInt8 ν} (he : ∀ j, i < j → j ≤ xs.length →
      Settles (expressionOf A factor) .expression false (Derives A Padded .expression) xs j) :
    Settles (primaryOf A factor) .primary true (Derives A Padded .primary) xs i := by
  refine .traced ?_ _
  obtain ⟨b, ys, hdrop, hb, hys⟩ := exists_blanks (xs.drop i)
  by_cases hdigit : ∀ c ∈ ys.head?, ¬ ItemClass.digit.accepts c
  · have hnumber := fails_token_number (σ := σ) (A := A) hx hdrop hb hys hdigit
    by_cases hopen : ys.head? = some 40
    · obtain ⟨ys, rfl⟩ := List.head?_eq_some_iff.1 hopen
      refine (settles_parentheses hx hdrop hb he).orElse hnumber fun u rest t hr => ?_
      have hle := hr.length_le (show xs.drop i = b ++ [40] ++ ys by simp [hdrop])
        (by rw [Level.advance_open (w := []) hb nofun]; simp)
      simp only [List.length_append, List.length_singleton] at hle
      omega
    · have hsymbol := fails_token_satisfy (σ := σ) (c := .symbol 40) hx hdrop hb hys (not_accepts_symbol hopen)
      have hall := hnumber.orElse_fails ((hsymbol.andThen (expressionOf A factor)).skip (token (symbol 41)))
      have hlabels : Labels.singleton (ascii "(") ∪ .singleton (ascii "a space") ∪
          (.singleton (ascii "a number") ∪ .singleton (ascii "a space")) =
            Level.primary.expected ⟨.operand true, 0⟩ := by decide
      rw [Record.raised_merge_self, show (ItemClass.symbol 40).label = ascii "(" from rfl, hlabels] at hall
      refine .refused ⟨hdrop, Level.advance_blanks hb, fun c hc => ?_⟩ (Standing.not_accepting_operand _ _) hall
      have hc40 : c ≠ 40 := fun h => hopen (h ▸ hc)
      simp [Level.step, Phase.extend, Phase.isEnded, hys c hc, hdigit c hc, hc40]
  · simp only [not_forall, not_not] at hdigit
    obtain ⟨c, hc, hdigit⟩ := hdigit
    obtain ⟨ys, rfl⟩ := List.head?_eq_some_iff.1 hc
    obtain ⟨u, rest, t, v, hr, ht, hd, hp⟩ := exists_number (σ := σ) (A := A) hx true hdrop hb hdigit
    exact .complete hr ht hd (hp.orElse _)

/-! ## Powers and factors -/

section Power

variable {factor : Parser σ UInt8 ν} {v : ν} (ht : t.Accepting) (hd : Derives A Padded .primary u v)
  (hp : (primaryOf A factor).Matches xs i v (i + u.length) (.raised (i + u.length) (Level.primary.expected t)))
include ht hd hp

/-- A power whose primary no `^` follows. -/
theorem settles_base (hr : Reads .primary ⟨.operand true, 0⟩ (xs.drop i) u rest t) (hop : rest.head? ≠ some 94) :
    Settles (combine₂ A.raised (primaryOf A factor) ((token (symbol 94)).andThen factor).optional) .power true
      (Derives A Padded .power) xs i := by
  have hk := drop_add_length hr.eq_append
  have hend : ∀ c ∈ rest.head?, c ∉ Level.power.operators := fun c hc hmem => by
    obtain rfl : c = 94 := by simpa [Level.operators, ascii] using hmem
    exact hop hc
  have hfails := fails_token_at (σ := σ) (q := .symbol 94) hx (by rw [hk]; exact hr.unspaced)
    (not_accepts_symbol (by rw [hk]; exact hop))
  have hboth := hp.combine₂ A.raised (hfails.andThen factor).optional
  have hlabels : Level.power.labels = Level.primary.labels ++ [(ItemClass.symbol 94).label] := rfl
  rw [token_merge_expected, Level.expected_union ht hlabels] at hboth
  exact .complete (hr.of_accepting (List.nil_subset _) ht hend) ht (.single rfl hd) hboth

/-- A power with an exponent. Where no factor follows the `^`, the primary alone is matched. -/
theorem settles_exponent (hr : Reads .primary ⟨.operand true, 0⟩ (xs.drop i) u (94 :: ys) t)
    (hf : ∀ j, i < j → j ≤ xs.length → Settles factor .power false (Derives A Padded .factor) xs j) :
    Settles (combine₂ A.raised (primaryOf A factor) ((token (symbol 94)).andThen factor).optional) .power true
      (Derives A Padded .power) xs i := by
  have hk := drop_add_length hr.eq_append
  obtain ⟨o, rest, b', hdrop, ho, hb', -, htoken⟩ :=
    exists_token (σ := σ) (q := .symbol 94) (b := []) hx hk nofun (by decide) (by decide)
  have hne : o ≠ [] := by simp [ho]
  have hpos := List.length_pos_iff.2 hne
  have hlen : (u ++ o).length = u.length + o.length := List.length_append
  have hadvance : Level.power.advance ⟨.operand true, 0⟩ (u ++ o) = some ⟨.operand false, 0⟩ := by
    rw [Level.advance_append (Level.advance_mono (List.nil_subset _) hr.advance), ho]
    exact Level.advance_operator ht (by decide) hb'
  have hall : xs.drop i = u ++ o ++ rest := by
    rw [hr.eq_append, List.append_assoc, ← hdrop, hk]
  rw [add_length_append] at htoken
  cases hf (i + (u ++ o).length) (by omega) (le_length_of_drop hall (by simp [hne])) with
  | complete hr' ht' hd' hp' =>
    have hboth := hp.combine₂ A.raised (htoken.andThen hp').optional
    rw [expected_merge_space (Nat.le_add_right ..), Record.raised_merge_of_gt (by omega), add_length_append] at hboth
    exact .complete (hr'.after_drop hall hadvance) ht' (.pow hd ⟨[], b', nofun, hb', by simp [ho, ascii]⟩ hd') hboth
  | refused hr' ht' hp' =>
    have hboth := hp.combine₂ A.raised (htoken.andThen_fails hp').optional
    rw [expected_merge_space (Nat.le_add_right ..), Record.raised_merge_of_gt (by omega), add_length_append] at hboth
    refine .short (c := 94) (hr'.after_drop hall hadvance) ht' hboth (Nat.le_add_right ..) ?_ ?_ (by decide)
    · rw [List.length_append]
      omega
    · rw [getElem?_of_drop hk, List.head?_cons]
  | short hr' ht' hp' hi hn hc hop =>
    have hboth := hp.combine₂ A.raised (htoken.andThen hp').optional
    rw [expected_merge_space (Nat.le_add_right ..), Record.raised_merge_of_gt (by omega), add_length_append] at hboth
    rw [add_length_append] at hn
    exact .short (hr'.after_drop hall hadvance) ht' hboth (by omega) hn hc hop

end Power

/-- A power over expressions and factors that settle further on. -/
theorem powerOf_settles {factor : Parser σ UInt8 ν} (he : ∀ j, i < j → j ≤ xs.length →
      Settles (expressionOf A factor) .expression false (Derives A Padded .expression) xs j)
    (hf : ∀ j, i < j → j ≤ xs.length → Settles factor .power false (Derives A Padded .factor) xs j) :
    Settles (powerOf A factor) .power true (Derives A Padded .power) xs i := by
  refine .traced ?_ _
  cases primaryOf_settles hx he with
  | refused hr ht hp =>
    have hall := hp.combine₂ A.raised ((token (symbol 94)).andThen factor).optional
    rw [Level.expected_congr .primary .power ht] at hall
    exact .refused (hr.of_not_accepting (List.nil_subset _) ht) ht hall
  | short hr ht hp hi hn hc hop => exact absurd hop List.not_mem_nil
  | @complete u rest t v hr ht hd hp =>
    by_cases hop : rest.head? = some 94
    · obtain ⟨ys, rfl⟩ := List.head?_eq_some_iff.1 hop
      exact settles_exponent hx ht hd hp hr hf
    · exact settles_base hx ht hd hp hr hop

omit hx in
theorem blanks_of_length_le (h : b ++ ys = u ++ rest) (hb : Blanks b) (hle : u.length ≤ b.length) : Blanks u := by
  obtain ⟨w, rfl⟩ := List.prefix_of_prefix_length_le ⟨rest, h.symm⟩ ⟨ys, rfl⟩ hle
  exact fun c hc => hb c (List.mem_append_left w hc)

omit hx in
theorem length_le_of_blanks (h : b ++ ys = u ++ rest) (hu : Blanks u) (hys : Unspaced ys) :
    u.length ≤ b.length := by
  rcases List.append_eq_append_iff.1 h with ⟨v, rfl, rfl⟩ | ⟨v, rfl, -⟩
  · cases v with
    | nil => simp
    | cons c v => exact absurd (hu c (by simp)) (hys c rfl)
  · simp

omit hx in
/-- A byte of what was read. -/
theorem mem_of_getElem? (h : xs.drop i = u ++ rest) (hi : i ≤ n) (hn : n < i + u.length) (hc : xs[n]? = some c) :
    c ∈ u := by
  have hget : (u ++ rest)[n - i]? = some c := by rw [← h, List.getElem?_drop, Nat.add_sub_cancel' hi, hc]
  rw [List.getElem?_append_left (by omega)] at hget
  exact List.mem_of_getElem? hget

/-- A factor that begins with no sign. -/
theorem settles_unsigned {power : Parser σ UInt8 ν} (hdrop : xs.drop i = b ++ ys) (hb : Blanks b)
    (hys : Unspaced ys) (hsign : ys.head? ≠ some 45) (hp : Settles power .power true (Derives A Padded .power) xs i) :
    Settles (combine₂ A.signed (token (symbol 45)).optional power) .power false (Derives A Padded .factor) xs i := by
  have hfails := fails_token_satisfy (σ := σ) (c := .symbol 45) hx hdrop hb hys (not_accepts_symbol hsign)
  -- a text that is not all blank is read beyond the blanks, where the sign was tried
  have beyond {u rest : Bytes} (h : xs.drop i = u ++ rest) (hu : ¬ Blanks u) : b.length < u.length :=
    Nat.lt_of_not_le fun hle => hu (blanks_of_length_le (hdrop.symm.trans h) hb hle)
  cases hp with
  | @complete u rest t v hr ht hd hp =>
    rcases Level.advance_unsigned hr.advance with ⟨-, rfl⟩ | ⟨hu, ha⟩
    · exact absurd ht (Standing.not_accepting_operand _ _)
    have hboth := hfails.optional.combine₂ A.signed hp
    have hlt := beyond hr.eq_append hu
    rw [Record.raised_merge_of_gt (by omega)] at hboth
    exact .complete ⟨hr.eq_append, ha, hr.stuck⟩ ht (.single rfl hd) hboth
  | @refused u rest t hr ht hp =>
    have hboth := hfails.optional.combine₂_fails A.signed hp
    rcases Level.advance_unsigned hr.advance with ⟨hu, rfl⟩ | ⟨hu, ha⟩
    · have hle := hr.length_le hdrop (by simp [Level.advance_blanks hb])
      have heq := hdrop.symm.trans hr.eq_append
      obtain ⟨rfl, rfl⟩ := List.append_inj heq (Nat.le_antisymm hle (length_le_of_blanks heq hu hys))
      have hlabels : Level.power.expected ⟨.operand true, 0⟩ ∪
          (.singleton (ascii "-") ∪ .singleton (ascii "a space")) = Level.power.expected ⟨.operand false, 0⟩ := by
        decide
      rw [Record.raised_merge_self, show (ItemClass.symbol 45).label = ascii "-" from rfl, hlabels] at hboth
      refine .refused ⟨hdrop, Level.advance_blanks hb, fun c hc => ?_⟩ (Standing.not_accepting_operand _ _) hboth
      have hc45 : c ≠ 45 := fun h => hsign (h ▸ hc)
      simpa [Level.step, Phase.extend, Phase.isEnded, hys c hc, hc45] using hr.stuck c hc
    · have hlt := beyond hr.eq_append hu
      rw [Record.raised_merge_of_gt (by omega)] at hboth
      exact .refused ⟨hr.eq_append, ha, hr.stuck⟩ ht hboth
  | @short u rest t v n c hr ht hp hi hn hc hop =>
    have hu : ¬ Blanks u := fun hu => by
      have hblank := hu c (mem_of_getElem? hr.eq_append hi hn hc)
      simp [not_blank_of_operator (Level.operators_subset _ hop)] at hblank
    rcases Level.advance_unsigned hr.advance with ⟨hblanks, -⟩ | ⟨-, ha⟩
    · exact absurd hblanks hu
    have hboth := hfails.optional.combine₂ A.signed hp
    have hlt := beyond hr.eq_append hu
    rw [Record.raised_merge_of_gt (by omega)] at hboth
    exact .short ⟨hr.eq_append, ha, hr.stuck⟩ ht hboth hi hn hc hop

/-- A factor that begins with a sign. -/
theorem settles_signed {power : Parser σ UInt8 ν} (h : xs.drop i = b ++ 45 :: ys) (hb : Blanks b)
    (hp : ∀ j, i ≤ j → j ≤ xs.length → Settles power .power true (Derives A Padded .power) xs j) :
    Settles (combine₂ A.signed (token (symbol 45)).optional power) .power false (Derives A Padded .factor) xs i := by
  obtain ⟨o, rest, b', hdrop, ho, hb', -, htoken⟩ :=
    exists_token (σ := σ) (q := .symbol 45) hx h hb (by decide) (by decide)
  have hne : o ≠ [] := by simp [ho]
  have hadvance : Level.power.advance ⟨.operand false, 0⟩ o = some ⟨.operand true, 0⟩ := by
    rw [ho]
    exact Level.advance_sign hb hb'
  have hpower := hp (i + o.length) (Nat.le_add_right ..) (le_length_of_drop hdrop hne)
  refine hpower.after hdrop hadvance (.neg ⟨b, b', hb, hb', by simp [ho, ascii]⟩) (fun hk hp => ?_) fun hk hp => ?_
  · have hboth := htoken.optional.combine₂ A.signed hp
    rwa [expected_merge_space hk] at hboth
  · have hboth := htoken.optional.combine₂_fails A.signed hp
    rwa [expected_merge_space hk] at hboth

/-- A factor over powers that settle from here on. -/
theorem factorOf_settles {factor : Parser σ UInt8 ν} (hi : i ≤ xs.length) (hp : ∀ j, i ≤ j → j ≤ xs.length →
      Settles (powerOf A factor) .power true (Derives A Padded .power) xs j) :
    Settles (factorOf A factor) .power false (Derives A Padded .factor) xs i := by
  refine .traced ?_ _
  obtain ⟨b, ys, hdrop, hb, hys⟩ := exists_blanks (xs.drop i)
  by_cases hsign : ys.head? = some 45
  · obtain ⟨ys, rfl⟩ := List.head?_eq_some_iff.1 hsign
    exact settles_signed hx hdrop hb hp
  · exact settles_unsigned hx hdrop hb hys hsign (hp i (Nat.le_refl i) hi)

end Furthest.Calculator
