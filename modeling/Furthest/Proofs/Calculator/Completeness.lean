import Furthest.Proofs.Calculator.Chains

/-!
# Derived sentences are matched

A sentence whose tokens have blanks after them only is matched by the rule that it is derived from, with its value,
wherever no more of it can follow (`Follows`). The proof is by induction on the derivation, with a lemma about
`Findable` texts for each of its constructors. Operations are derived from the left, while a repetition runs them one
after the other: `Chained` has a first operand and the operations after it as a repetition goes through them, and is
extended on the right.

Main statement: `Derives.findable`.
-/

namespace Furthest.Calculator

open Furthest.Parser

variable {σ ν : Type} {xs u w ys rest : Bytes} {i j k m n : Nat} {c : UInt8}

/-- After an operand of a level comes a closing parenthesis, an operator of a higher level or nothing. -/
def Follows (L : Level) (rest : Bytes) : Prop :=
  ∀ c ∈ rest.head?, c = 41 ∨ (c ∈ Level.expression.operators ∧ c ∉ L.operators)

namespace Follows

variable {L L' : Level}

theorem mono (h : Follows L' rest) (hL : L.operators ⊆ L'.operators) : Follows L rest := fun c hc =>
  (h c hc).imp_right fun ⟨hop, hn⟩ => ⟨hop, fun hmem => hn (hL hmem)⟩

/-- What follows goes on no operand. -/
theorem extend_eq_none (h : Follows L rest) {p : Phase} (hp : p.isEnded) : ∀ c ∈ rest.head?, p.extend c = none :=
  fun c hc => by
    rcases h c hc with rfl | ⟨hop, -⟩
    · cases p with
      | operand signed => simp [Phase.isEnded] at hp
      | _ => decide
    · exact Level.extend_of_mem_operators hp hop

theorem unspaced (h : Follows L rest) : Unspaced rest := fun c hc hblank => by
  have hnone := h.extend_eq_none (p := .complete) rfl c hc
  simp [Phase.extend, hblank] at hnone

theorem head_ne (h : Follows L rest) (hc : c ∈ L.operators) : rest.head? ≠ some c := fun hhead => by
  rcases h c hhead with rfl | ⟨-, hn⟩
  · exact absurd (L.operators_subset hc) (by decide)
  · exact hn hc

end Follows

/-- A number does not go on in what follows it. -/
theorem Follows.numeralEnds {L : Level} {b : Bytes} (h : Follows L rest) (hb : Blanks b) (d : Bytes) :
    NumeralEnds d (b ++ rest) := by
  intro c hc
  cases b with
  | nil =>
    rcases h c hc with rfl | ⟨hop, -⟩
    · exact ⟨by decide, fun _ => by decide⟩
    · have hc' : c = 94 ∨ c = 42 ∨ c = 47 ∨ c = 43 ∨ c = 45 := by simpa [Level.operators, ascii] using hop
      rcases hc' with rfl | rfl | rfl | rfl | rfl <;> exact ⟨by decide, fun _ => by decide⟩
  | cons x b =>
    obtain rfl : x = c := by simpa using hc
    have hblank := hb x List.mem_cons_self
    refine ⟨fun hdigit => ?_, fun _ => ?_⟩
    · rw [Level.not_blank_of_digit hdigit] at hblank
      cases hblank
    · rintro rfl
      revert hblank
      decide

/-! ## Where sentences start -/

/-- A sentence starts with a digit, an opening parenthesis or, if it may have one, a sign. -/
theorem Derives.starts {A : Arithmetic ν} {n : Nonterminal} {x : ν} (h : Derives A Trailed n u x) :
    ∃ c u', u = c :: u' ∧ (ItemClass.digit.accepts c ∨ c = 40 ∨ (c = 45 ∧ n ≠ .power ∧ n ≠ .primary)) := by
  induction h with
  | @number d t hd ht =>
    obtain ⟨b, -, rfl⟩ := ht
    obtain ⟨c, d, rfl⟩ := List.exists_cons_of_ne_nil hd.ne_nil
    exact ⟨c, d ++ b, rfl, .inl (hd.head_digit (show c ∈ (c :: d ++ []).head? from rfl))⟩
  | parentheses ho _ _ =>
    obtain ⟨b, -, rfl⟩ := ho
    exact ⟨40, _, rfl, .inr (.inl rfl)⟩
  | @single n m _ _ hm _ ih =>
    obtain ⟨c, u', rfl, h⟩ := ih
    refine ⟨c, u', rfl, h.imp_right (.imp_right fun ⟨hc, hn⟩ => ⟨hc, ?_⟩)⟩
    cases n <;> cases hm <;> simp_all
  | pow _ _ _ ih =>
    obtain ⟨c, u', rfl, h⟩ := ih
    exact ⟨c, _, rfl, h.imp_right (.imp_right fun ⟨_, _, hn⟩ => absurd rfl hn)⟩
  | neg ht _ =>
    obtain ⟨b, -, rfl⟩ := ht
    exact ⟨45, _, rfl, .inr (.inr ⟨rfl, nofun, nofun⟩)⟩
  | operation _ _ _ _ _ ih =>
    obtain ⟨c, u', rfl, h⟩ := ih
    exact ⟨c, _, rfl, h⟩

theorem Derives.ne_nil {A : Arithmetic ν} {n : Nonterminal} {x : ν} (h : Derives A Trailed n u x) : u ≠ [] := by
  obtain ⟨c, u', rfl, -⟩ := h.starts
  exact List.cons_ne_nil c u'

theorem Derives.unspaced {A : Arithmetic ν} {n : Nonterminal} {x : ν} (h : Derives A Trailed n u x) (ys : Bytes) :
    Unspaced (u ++ ys) := by
  obtain ⟨c, u', rfl, hc⟩ := h.starts
  intro c' hc'
  cases hc'
  rcases hc with hc | rfl | ⟨rfl, -⟩
  · simp [Level.not_blank_of_digit hc]
  · decide
  · decide

theorem Derives.head_ne_sign {A : Arithmetic ν} {x : ν} (h : Derives A Trailed .power u x) (ys : Bytes) :
    (u ++ ys).head? ≠ some 45 := by
  obtain ⟨c, u', rfl, hc⟩ := h.starts
  rintro ⟨⟩
  rcases hc with hc | hc | ⟨-, hn, -⟩
  · revert hc
    decide
  · revert hc
    decide
  · exact hn rfl

/-! ## Repetitions of operations -/

/-- A repetition goes through some values, whatever comes after them. -/
def Loops {α : Type} (q : Parser σ UInt8 α) (xs : Bytes) (k : Nat) (vs : List α) (n : Nat) : Prop :=
  ∀ r, ∃ r', ∀ remaining ws m g,
    (q.timesFrom true xs remaining 0 n r').Ends (.success ws m g) →
      (q.timesFrom true xs (vs.length + remaining) 0 k r).Ends (.success (vs ++ ws) m g)

theorem Loops.nil {α : Type} {q : Parser σ UInt8 α} : Loops q xs k [] k := fun r =>
  ⟨r, fun remaining ws m g h => by simpa using h⟩

theorem Loops.concat {α : Type} {q : Parser σ UInt8 α} {vs : List α} {v : α} {f : Record}
    (h : Loops q xs k vs m) (hq : q.Matches xs m v n f) (hn : n ≠ m) : Loops q xs k (vs ++ [v]) n := fun r => by
  obtain ⟨r', hr'⟩ := h r
  refine ⟨f.merge r', fun remaining ws m' g hrest => ?_⟩
  have hone := hr' (remaining + 1) (v :: ws) m' g (hq.timesFrom hn hrest)
  rwa [List.length_append, List.length_singleton, Nat.add_assoc, Nat.add_comm 1, List.append_assoc,
    List.singleton_append]

/-- A first operand and operations after it, with the value that they have from the left. -/
def Chained (A : Arithmetic ν) (ops : Bytes) (p : Parser σ UInt8 ν) (xs : Bytes) (i : Nat) (x : ν) (n : Nat) :
    Prop :=
  ∃ v m f vs, p.Matches xs i v m f ∧ Loops (opPair ops p) xs m vs n ∧ m + vs.length ≤ n ∧ x = A.chain v vs

section Chained

variable {A : Arithmetic ν} {ops : Bytes} {p : Parser σ UInt8 ν} {x y : ν} {f : Record}

theorem Chained.single (hp : p.Matches xs i x n f) : Chained A ops p xs i x n :=
  ⟨x, n, f, [], hp, .nil, Nat.le_refl n, rfl⟩

theorem Chained.concat (h : Chained A ops p xs i x m) (hq : (opPair ops p).Matches xs m (c, y) n f) (hn : m < n) :
    Chained A ops p xs i (A.apply c x y) n := by
  obtain ⟨v, k, g, vs, hp, hloop, hle, rfl⟩ := h
  refine ⟨v, k, g, vs ++ [(c, y)], hp, hloop.concat hq (by omega), ?_, ?_⟩
  · rw [List.length_append, List.length_singleton]
    omega
  · rw [Arithmetic.chain, Arithmetic.chain, List.foldl_append]
    rfl

/-- A chain is matched where no more operations follow. -/
theorem Chained.matches_chainOf (h : Chained A ops p xs i x n) (hn : n < unbounded)
    (hq : (opPair ops p).Fails xs n f) : ∃ g, (chainOf A ops p).Matches xs i x n g := by
  obtain ⟨v, k, g, vs, hp, hloop, hle, rfl⟩ := h
  obtain ⟨r, hr⟩ := hloop ∅
  obtain ⟨remaining, hremaining⟩ : ∃ remaining, unbounded = vs.length + (remaining + 1) :=
    ⟨unbounded - vs.length - 1, by omega⟩
  have hmany := hr (remaining + 1) [] n _ hq.timesFrom
  rw [← hremaining, List.append_nil] at hmany
  exact ⟨_, hp.combine₂ A.chain hmany⟩

theorem Chained.matches_of_follows {L : Level} (h : Chained A ops p xs i x n) (hdrop : xs.drop n = rest)
    (hrest : Follows L rest) (hops : ops ⊆ L.operators) (hn : n ≤ xs.length) (hlen : xs.length < unbounded) :
    ∃ g, (chainOf A ops p).Matches xs i x n g := by
  subst hdrop
  refine h.matches_chainOf (by omega) (fails_opPair (countable_of_length hlen) hrest.unspaced fun c hc hmem => ?_)
  exact hrest.head_ne (hops hmem) hc

end Chained

/-! ## Derivations -/

/-- From a cursor on, factors nest as deeply as there are bytes left for. -/
def Adequate (A : Arithmetic ν) (p : Parser σ UInt8 ν) (xs : Bytes) (i : Nat) : Prop :=
  ∀ j, i ≤ j → j ≤ xs.length → ∃ depth, xs.length - j < depth ∧ p xs j = factorWithin A depth xs j

namespace Adequate

variable {A : Arithmetic ν} {p : Parser σ UInt8 ν} {depth : Nat}

theorem factor (A : Arithmetic ν) (xs : Bytes) (i : Nat) : Adequate A (factor A : Parser σ UInt8 ν) xs i :=
  fun j _ _ => ⟨xs.length - j + 1, Nat.lt_succ_self _, rfl⟩

theorem mono (h : Adequate A p xs i) (hij : i ≤ j) : Adequate A p xs j := fun k hk => h k (Nat.le_trans hij hk)

theorem factorWithin (h : xs.length - i < depth + 1) :
    Adequate A (Calculator.factorWithin A depth : Parser σ UInt8 ν) xs (i + 1) :=
  fun j hj hle => ⟨depth, by omega, rfl⟩

end Adequate

namespace Nonterminal

/-- The level whose operators cannot follow a sentence. A chain may go on with operators of its own. -/
def bound : Nonterminal → Level
  | expression => .term
  | term | factor | power => .power
  | primary => .primary

/-- The operators of a chain. -/
def operators : Nonterminal → Bytes
  | expression => ascii "+-"
  | term => ascii "*/"
  | _ => []

theorem bound_subset_of_operand {n m : Nonterminal} (h : n.operand = some m) :
    m.bound.operators ⊆ n.bound.operators := by
  cases n <;> cases h <;> decide

theorem operators_subset (n : Nonterminal) : n.operators ⊆ Level.expression.operators := by
  cases n <;> decide

theorem not_mem_bound {n : Nonterminal} (hc : c ∈ n.operators) : c ∉ n.bound.operators := by
  cases n with
  | expression =>
    obtain rfl | rfl : c = 43 ∨ c = 45 := by simpa [operators, ascii] using hc
    · decide
    · decide
  | term =>
    obtain rfl | rfl : c = 42 ∨ c = 47 := by simpa [operators, ascii] using hc
    · decide
    · decide
  | _ => exact absurd hc List.not_mem_nil

theorem Operation.exists_apply {A : Arithmetic ν} {n : Nonterminal} {token : Bytes} {f : ν → ν → ν}
    (h : n.Operation A token f) : ∃ c ∈ n.operators, token = [c] ∧ f = A.apply c := by
  cases h with
  | add => exact ⟨43, by decide, rfl, rfl⟩
  | sub => exact ⟨45, by decide, rfl, rfl⟩
  | mul => exact ⟨42, by decide, rfl, rfl⟩
  | div => exact ⟨47, by decide, rfl, rfl⟩

theorem follows_operators {n : Nonterminal} (hc : c ∈ n.operators) : Follows n.bound (c :: rest) := by
  rintro _ ⟨⟩
  exact .inr ⟨n.operators_subset hc, not_mem_bound hc⟩

end Nonterminal

/-- The rule of a nonterminal matches up to a cursor. A chain matches operations up to there. -/
def Found (σ : Type) (A : Arithmetic ν) (xs : Bytes) (i : Nat) (x : ν) (n : Nat) : Nonterminal → Prop
  | .expression => ∀ p : Parser σ UInt8 ν, Adequate A p xs i → Chained A (ascii "+-") (termOf A p) xs i x n
  | .term => ∀ p : Parser σ UInt8 ν, Adequate A p xs i → Chained A (ascii "*/") p xs i x n
  | .factor => ∀ p : Parser σ UInt8 ν, Adequate A p xs i → ∃ f, p.Matches xs i x n f
  | .power => ∀ p : Parser σ UInt8 ν, Adequate A p xs (i + 1) → ∃ f, (powerOf A p).Matches xs i x n f
  | .primary => ∀ p : Parser σ UInt8 ν, Adequate A p xs (i + 1) → ∃ f, (primaryOf A p).Matches xs i x n f

section Found

variable {A : Arithmetic ν} {p : Parser σ UInt8 ν} {b : Bytes} {x y : ν} {f : Record} (hlen : xs.length < unbounded)

theorem Adequate.matches_factor (hp : Adequate A p xs i) (hi : i ≤ xs.length)
    (h : ∀ q : Parser σ UInt8 ν, Adequate A q xs (i + 1) → ∃ f, (factorOf A q).Matches xs i x n f) :
    ∃ f, p.Matches xs i x n f := by
  obtain ⟨depth, hdepth, heq⟩ := hp i (Nat.le_refl i) hi
  obtain ⟨depth, rfl⟩ := Nat.exists_eq_succ_of_ne_zero (Nat.ne_of_gt (Nat.zero_lt_of_lt hdepth))
  obtain ⟨f, hf⟩ := h _ (.factorWithin hdepth)
  refine ⟨f, ?_⟩
  rw [Matches, heq]
  exact hf

include hlen

theorem Found.matches_term (h : Found σ A xs i x n .term) (hp : Adequate A p xs i) (hn : n ≤ xs.length)
    (hrest : Follows .term (xs.drop n)) : ∃ f, (termOf A p).Matches xs i x n f := by
  obtain ⟨f, hf⟩ := (h p hp).matches_of_follows rfl hrest (by decide) hn hlen
  exact ⟨f, hf.traced _⟩

theorem Found.matches_expression (h : Found σ A xs i x n .expression) (hp : Adequate A p xs i) (hn : n ≤ xs.length)
    (hrest : Follows .expression (xs.drop n)) : ∃ f, (expressionOf A p).Matches xs i x n f := by
  obtain ⟨f, hf⟩ := (h p hp).matches_of_follows rfl hrest (by decide) hn hlen
  exact ⟨f, hf.traced _⟩

/-- A token where the input does not begin with a blank. -/
theorem matches_token_here {q : ItemClass UInt8} (h : xs.drop i = c :: b ++ rest) (hc : q.accepts c)
    (hblank : ¬ ItemClass.blank.accepts c) (hb : Blanks b) (hrest : Unspaced rest) :
    (token (satisfy q) : Parser σ UInt8 UInt8).Matches xs i c (i + (c :: b).length)
      (.raised (i + (c :: b).length) (.singleton (ascii "a space"))) :=
  matches_token_satisfy (b := []) (countable_of_length hlen) h nofun hc hblank hb hrest

omit hlen in
/-- A token with blanks after it, as it stands in the input. -/
theorem Trailed.exists_cons (c : UInt8) {t : Bytes} (h : Trailed [c] t) : ∃ b, Blanks b ∧ t = c :: b := h

/-- The rule of a nonterminal matches a text wherever it stands in the input. -/
def Findable (σ : Type) (A : Arithmetic ν) (xs : Bytes) (n : Nonterminal) (u : Bytes) (x : ν) : Prop :=
  ∀ i rest, xs.drop i = u ++ rest → Follows n.bound rest → Found σ A xs i x (i + u.length) n

namespace Findable

variable {d o t cl : Bytes}

theorem number (hd : IsNumeral d) (ht : Trailed d t) : Findable σ A xs .primary t (A.ofNumeral d) := by
  obtain ⟨b, hb, rfl⟩ := ht
  intro i rest hdrop hrest p _
  have hnumber := matches_token_number (σ := σ) (A := A) (b := []) (countable_of_length hlen) hd hdrop nofun hb
    hrest.unspaced (hrest.numeralEnds hb _)
  exact ⟨_, (hnumber.orElse _).traced _⟩

theorem parentheses (ho : Trailed (ascii "(") o) (hu : Derives A Trailed .expression u x)
    (hfound : Findable σ A xs .expression u x) (hc : Trailed (ascii ")") cl) :
    Findable σ A xs .primary (o ++ u ++ cl) x := by
  obtain ⟨b, hb, rfl⟩ := Trailed.exists_cons 40 ho
  obtain ⟨b', hb', rfl⟩ := Trailed.exists_cons 41 hc
  intro i rest hdrop hrest p hp
  have hstart : xs.drop i = 40 :: b ++ (u ++ (41 :: b' ++ rest)) := by simp [hdrop]
  have hm := drop_add_length hstart
  have hk := drop_add_length hm
  have hfollows : Follows .expression (41 :: b' ++ rest) := by
    rintro _ ⟨⟩
    exact .inl rfl
  have hnumber := fails_token_number (σ := σ) (A := A) (b := []) (countable_of_length hlen) hstart nofun
    (by rintro _ ⟨⟩; decide) (by rintro _ ⟨⟩; decide)
  have hopen := matches_token_here (σ := σ) (q := .symbol 40) hlen hstart (by decide) (by decide) hb (hu.unspaced _)
  obtain ⟨f, hf⟩ := (hfound _ _ hm (hfollows.mono (by decide))).matches_expression hlen (hp.mono (by simp))
    (le_length_of_drop hm hu.ne_nil) (by rw [hk]; exact hfollows)
  have hclose := matches_token_here (σ := σ) (q := .symbol 41) hlen hk (by decide) (by decide) hb' hrest.unspaced
  have hall := (hnumber.orElse ((hopen.andThen hf).skip hclose)).traced (ascii "primary")
  rw [add_length_append i, add_length_append i] at hall
  exact ⟨_, hall⟩

theorem pow (hu : Findable σ A xs .primary u x) (ht : Trailed (ascii "^") t)
    (hw : Derives A Trailed .factor w y) (hfound : Findable σ A xs .factor w y) :
    Findable σ A xs .power (u ++ t ++ w) (A.pow x y) := by
  obtain ⟨b, hb, rfl⟩ := Trailed.exists_cons 94 ht
  intro i rest hdrop hrest p hp
  have hstart : xs.drop i = u ++ (94 :: b ++ (w ++ rest)) := by simp [hdrop]
  have hm := drop_add_length hstart
  have hk := drop_add_length hm
  have hfollows : Follows .primary (94 :: b ++ (w ++ rest)) := by
    rintro _ ⟨⟩
    exact .inr ⟨by decide, List.not_mem_nil⟩
  obtain ⟨f, hf⟩ := hu _ _ hstart hfollows p hp
  have hcaret := matches_token_here (σ := σ) (q := .symbol 94) hlen hm (by decide) (by decide) hb (hw.unspaced _)
  obtain ⟨g, hg⟩ := hfound _ _ hk hrest p (hp.mono (by simp; omega))
  have hall := (hf.combine₂ A.raised (hcaret.andThen hg).optional).traced (ascii "power")
  rw [add_length_append i, add_length_append i] at hall
  exact ⟨_, hall⟩

/-- A power without an exponent. -/
theorem base (hfound : Findable σ A xs .primary u x) : Findable σ A xs .power u x := by
  intro i rest hdrop hrest p hp
  have hk := drop_add_length hdrop
  obtain ⟨f, hf⟩ := hfound _ _ hdrop (hrest.mono (by decide)) p hp
  have hcaret := fails_token_at (σ := σ) (q := .symbol 94) (countable_of_length hlen)
    (by rw [hk]; exact hrest.unspaced) (not_accepts_symbol (by rw [hk]; exact hrest.head_ne (by decide)))
  exact ⟨_, (hf.combine₂ A.raised (hcaret.andThen p).optional).traced _⟩

theorem neg (ht : Trailed (ascii "-") t) (hu : Derives A Trailed .power u x)
    (hfound : Findable σ A xs .power u x) : Findable σ A xs .factor (t ++ u) (A.neg x) := by
  obtain ⟨b, hb, rfl⟩ := Trailed.exists_cons 45 ht
  intro i rest hdrop hrest p hp
  have hstart : xs.drop i = 45 :: b ++ (u ++ rest) := by simp [hdrop]
  have hm := drop_add_length hstart
  have hle := le_length_of_drop hstart (List.cons_ne_nil _ _)
  refine hp.matches_factor (by omega) fun q hq => ?_
  have hsign := matches_token_here (σ := σ) (q := .symbol 45) hlen hstart (by decide) (by decide) hb (hu.unspaced _)
  obtain ⟨f, hf⟩ := hfound _ _ hm hrest q (hq.mono (by simp))
  have hall := (hsign.optional.combine₂ A.signed hf).traced (ascii "factor")
  rw [add_length_append] at hall
  exact ⟨_, hall⟩

/-- A factor without a sign. -/
theorem unsigned (hu : Derives A Trailed .power u x) (hfound : Findable σ A xs .power u x) :
    Findable σ A xs .factor u x := by
  intro i rest hdrop hrest p hp
  have hle := le_length_of_drop hdrop hu.ne_nil
  refine hp.matches_factor (by omega) fun q hq => ?_
  obtain ⟨f, hf⟩ := hfound _ _ hdrop hrest q hq
  have hsign := fails_token_at (σ := σ) (q := .symbol 45) (k := i) (countable_of_length hlen)
    (by rw [hdrop]; exact hu.unspaced _) (not_accepts_symbol (by rw [hdrop]; exact hu.head_ne_sign rest))
  exact ⟨_, (hsign.optional.combine₂ A.signed hf).traced _⟩

/-- What alone is a sentence of a nonterminal. -/
theorem single {n m : Nonterminal} (hm : n.operand = some m) (hu : Derives A Trailed m u x)
    (hfound : Findable σ A xs m u x) : Findable σ A xs n u x := by
  cases n with
  | expression =>
    cases hm
    intro i rest hdrop hrest p hp
    obtain ⟨f, hf⟩ := (hfound _ _ hdrop (hrest.mono (by decide))).matches_term hlen hp
      (le_length_of_drop hdrop hu.ne_nil) (by rw [drop_add_length hdrop]; exact hrest)
    exact .single hf
  | term =>
    cases hm
    intro i rest hdrop hrest p hp
    obtain ⟨f, hf⟩ := hfound _ _ hdrop hrest p hp
    exact .single hf
  | factor =>
    cases hm
    exact unsigned hlen hu hfound
  | power =>
    cases hm
    exact base hlen hfound
  | primary => cases hm

/-- One more operation of a chain. -/
theorem operation {n m : Nonterminal} {token : Bytes} {f : ν → ν → ν} (hm : n.operand = some m)
    (hf : n.Operation A token f) (hu : Findable σ A xs n u x) (ht : Trailed token t)
    (hw : Derives A Trailed m w y) (hfound : Findable σ A xs m w y) :
    Findable σ A xs n (u ++ t ++ w) (f x y) := by
  obtain ⟨c, hc, rfl, rfl⟩ := hf.exists_apply
  obtain ⟨b, hb, rfl⟩ := Trailed.exists_cons c ht
  intro i rest hdrop hrest
  have hstart : xs.drop i = u ++ (c :: b ++ (w ++ rest)) := by simp [hdrop]
  have hcursor := drop_add_length hstart
  have hk := drop_add_length hcursor
  have hleft := hu _ _ hstart (Nonterminal.follows_operators hc)
  have hright := hfound _ _ hk (hrest.mono (Nonterminal.bound_subset_of_operand hm))
  have htoken := matches_token_here (σ := σ) (q := .oneOf n.operators) hlen hcursor
    (by simpa [ItemClass.oneOf] using hc) (by simp [not_blank_of_operator (n.operators_subset hc)]) hb
    (hw.unspaced _)
  have hle := le_length_of_drop hk hw.ne_nil
  have hafter := drop_add_length hk
  rw [← add_length_append, ← add_length_append]
  cases n with
  | expression =>
    cases hm
    intro p hp
    obtain ⟨f, hf⟩ := hright.matches_term hlen (hp.mono (by omega)) hle (by rw [hafter]; exact hrest)
    exact (hleft p hp).concat (htoken.pair hf) (by simp; omega)
  | term =>
    cases hm
    intro p hp
    obtain ⟨f, hf⟩ := hright p (hp.mono (by omega))
    exact (hleft p hp).concat (htoken.pair hf) (by simp; omega)
  | _ => exact absurd hc List.not_mem_nil

end Findable

/-- The rule of a nonterminal matches a sentence that is derived from it, with its value. -/
theorem Derives.findable {n : Nonterminal} (h : Derives A Trailed n u x) : Findable σ A xs n u x := by
  induction h with
  | number hd ht => exact .number hlen hd ht
  | parentheses ho hu hc ih => exact .parentheses hlen ho hu ih hc
  | single hm hu ih => exact .single hlen hm hu ih
  | pow hu ht hw ihu ihw => exact .pow hlen ihu ht hw ihw
  | neg ht hu ih => exact .neg hlen ht hu ih
  | operation hm hf hu ht hw ihu ihw => exact .operation hlen hm hf ihu ht hw ihw

end Found

end Furthest.Calculator
