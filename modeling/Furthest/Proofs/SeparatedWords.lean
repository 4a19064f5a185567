import Furthest.Proofs.Readings

/-!
# Words between separators

Words of a class of bytes are joined to a text with a separator between any two of them, and a separated repetition of
words takes the text apart again. The separator begins with a byte outside the class. So a word ends exactly where a
separator begins, although later bytes of the separator may be of the class; and after any part of the text that reads
like a separator, even across the bounds of words, another byte follows (`exists_after_separator`).

Any text is that of some words and a rest at which words end (`exists_joined`). What the parsers read is the words
(`ReadsWords.sepBy_takes`); they are those of the text if there is no rest.

Main statement: `words_parse_iff_joins`.
-/

namespace Furthest

variable {σ α β : Type}

/-! ## Texts of words -/

namespace ItemClass

/-- A word of a class: one byte or more, all of the class. -/
structure IsWord (c : ItemClass UInt8) (w : Bytes) : Prop where
  ne_nil : w ≠ []
  accepts {b : UInt8} (h : b ∈ w) : c.accepts b

/-- A text is that of words of a class, with a separator between any two of them. -/
structure Joins (c : ItemClass UInt8) (sep text : Bytes) (ws : List Bytes) : Prop where
  words {w : Bytes} (h : w ∈ ws) : c.IsWord w
  text : text = sep.intercalate ws

theorem isWord_iff {c : ItemClass UInt8} {w : Bytes} : c.IsWord w ↔ w ≠ [] ∧ w.all c.accepts :=
  ⟨fun h => ⟨h.ne_nil, List.all_eq_true.2 fun _ => h.accepts⟩, fun h => ⟨h.1, List.all_eq_true.1 h.2 _⟩⟩

instance (c : ItemClass UInt8) (w : Bytes) : Decidable (c.IsWord w) := decidable_of_iff _ isWord_iff.symm

instance (c : ItemClass UInt8) (sep text : Bytes) (ws : List Bytes) : Decidable (c.Joins sep text ws) :=
  decidable_of_iff ((∀ w ∈ ws, c.IsWord w) ∧ text = sep.intercalate ws)
    ⟨fun h => ⟨h.1 _, h.2⟩, fun h => ⟨fun _ => h.words, h.text⟩⟩

/-- The text does not begin with a byte of the class. -/
def Bars (c : ItemClass UInt8) (text : Bytes) : Prop := ∀ b ∈ text.head?, ¬c.accepts b

/-- Words end before a rest: it does not go on with a byte of the class nor, after a word, with another word behind a
separator. -/
structure WordsEnd (c : ItemClass UInt8) (sep : Bytes) (ws : List Bytes) (rest : Bytes) : Prop where
  words {w : Bytes} (h : w ∈ ws) : c.IsWord w
  bars : c.Bars rest
  stops (h : ws ≠ []) {t : Bytes} (ht : rest = sep ++ t) : c.Bars t

end ItemClass

/-- Words with a separator before each of them. -/
def separated (sep : Bytes) (ws : List Bytes) : Bytes := ws.flatMap (sep ++ ·)

@[simp] theorem separated_nil (sep : Bytes) : separated sep [] = [] := rfl

@[simp] theorem separated_cons (sep w : Bytes) (ws : List Bytes) :
    separated sep (w :: ws) = sep ++ (w ++ separated sep ws) := by
  simp [separated]

theorem intercalate_cons_eq (sep w : Bytes) (ws : List Bytes) :
    sep.intercalate (w :: ws) = w ++ separated sep ws := by
  induction ws generalizing w with
  | nil => simp
  | cons w' ws ih => rw [List.intercalate_cons_cons, ih, separated_cons, List.append_assoc]

/-- Of two beginnings of one text, the longer one begins with the other. -/
theorem exists_of_append_eq {s s' t t' : Bytes} (h : s ++ t = s' ++ t') (hle : s.length ≤ s'.length) :
    ∃ u, s' = s ++ u ∧ t = u ++ t' := by
  obtain ⟨u, rfl⟩ := List.prefix_of_prefix_length_le ⟨t, h⟩ (List.prefix_append s' t') hle
  exact ⟨u, rfl, List.append_cancel_left (h.trans (List.append_assoc ..))⟩

section Text

variable {c : ItemClass UInt8} {b : UInt8} {sep text w t u v rest : Bytes} {ws : List Bytes}

theorem ItemClass.IsWord.not_mem (hw : c.IsWord w) (hb : ¬c.accepts b) : b ∉ w := fun h => hb (hw.accepts h)

/-- A text that begins with a word begins with a byte of the class. -/
theorem ItemClass.IsWord.exists_head (hw : c.IsWord w) (t : Bytes) : ∃ x ∈ (w ++ t).head?, c.accepts x := by
  obtain ⟨x, w', rfl⟩ := List.exists_cons_of_ne_nil hw.ne_nil
  exact ⟨x, rfl, hw.accepts List.mem_cons_self⟩

/-! ### What follows a separator -/

section After

variable (hb : ¬c.accepts b)
include hb

theorem ItemClass.IsWord.exists_head_ne (hw : c.IsWord w) (t : Bytes) : ∃ x ∈ (w ++ t).head?, x ≠ b := by
  obtain ⟨x, hx, hc⟩ := hw.exists_head t
  exact ⟨x, hx, fun h => hb (h ▸ hc)⟩

/-- A text with `b` in it that begins like a word has the word before that `b`. -/
theorem ItemClass.IsWord.exists_split (hw : c.IsWord w) (ht : b ∈ t) {r : Bytes} (h : w ++ r = t ++ v) :
    ∃ t', t = w ++ t' ∧ r = t' ++ v ∧ b ∈ t' := by
  rcases List.append_eq_append_iff.1 h with ⟨t', rfl, hr⟩ | ⟨t', rfl, -⟩
  · exact ⟨t', rfl, hr, (List.mem_append.1 ht).resolve_left (hw.not_mem hb)⟩
  · exact absurd (List.mem_append_left t' ht) (hw.not_mem hb)

/-- A text like a separator that begins within a separator and goes on in the word after it is followed by another byte
than `b`. -/
theorem exists_after_overlap {s : Bytes} (hsep : sep = u ++ s) (hu : b ∈ u) (hw : c.IsWord w)
    (h : s ++ (w ++ separated sep ws) = sep ++ v) : ∃ x ∈ v.head?, x ≠ b := by
  have hupos := List.length_pos_of_mem hu
  have hcount := congrArg (List.count b) hsep
  have hlength := congrArg List.length hsep
  rw [List.count_append] at hcount
  rw [List.length_append] at hlength
  -- The end `t` of the text has as many `b` as the beginning `u` of the separator, and is as long.
  obtain ⟨t, hst, hword⟩ := exists_of_append_eq h (by omega)
  have hcount' := congrArg (List.count b) hst
  have hlength' := congrArg List.length hst
  rw [List.count_append] at hcount'
  rw [List.length_append] at hlength'
  have ht : b ∈ t := List.count_pos_iff.1 (by have := List.count_pos_iff.2 hu; omega)
  -- Without the word at its beginning it still has as many, but is shorter. So another separator follows.
  obtain ⟨t, rfl, hrest, ht⟩ := hw.exists_split hb ht hword
  have hw₀ : w.count b = 0 := List.count_eq_zero.2 (hw.not_mem hb)
  have hwpos := List.length_pos_iff.2 hw.ne_nil
  rw [List.count_append] at hcount'
  rw [List.length_append] at hlength'
  cases ws with
  | nil => exact absurd (List.append_eq_nil_iff.1 hrest.symm).1 (List.ne_nil_of_mem ht)
  | cons w' ws =>
    rw [separated_cons] at hrest
    obtain ⟨s', hst', hv⟩ := exists_of_append_eq hrest.symm (by omega)
    -- What `u` has more than `t` has no `b`, and the text is followed by it.
    obtain ⟨u', rfl, hs'⟩ := exists_of_append_eq (hst'.symm.trans hsep) (by omega)
    have hu' : u' ≠ [] := by
      rintro rfl
      rw [List.append_nil] at hlength
      omega
    obtain ⟨x, u', rfl⟩ := List.exists_cons_of_ne_nil hu'
    refine ⟨x, by rw [hv, hs']; rfl, ?_⟩
    rintro rfl
    rw [List.count_append, List.count_cons_self] at hcount
    omega

/-- In the text of some words, every text like a separator is followed by another byte than `b`, with which separators
begin. -/
theorem exists_after_separator (hsep : b ∈ sep.head?) (hw : ∀ w' ∈ w :: ws, c.IsWord w')
    (h : w ++ separated sep ws = u ++ (sep ++ v)) : ∃ x ∈ v.head?, x ≠ b := by
  obtain ⟨tail, htail⟩ := List.head?_eq_some_iff.1 hsep
  have hmem : b ∈ sep := htail ▸ List.mem_cons_self
  induction ws generalizing w u with
  | nil =>
    rw [separated_nil, List.append_nil] at h
    exact absurd (h ▸ by simp [hmem]) ((hw w List.mem_cons_self).not_mem hb)
  | cons w' ws ih =>
    obtain ⟨hword, hw⟩ := List.forall_mem_cons.1 hw
    have hword' := hw w' List.mem_cons_self
    -- A text like a separator begins at one, within one, after one, or within the word.
    have at_separator (hat : sep ++ v = sep ++ (w' ++ separated sep ws)) : ∃ x ∈ v.head?, x ≠ b := by
      rw [List.append_cancel_left hat]
      exact hword'.exists_head_ne hb _
    rw [separated_cons] at h
    rcases List.append_eq_append_iff.1 h with ⟨u', -, hlater⟩ | ⟨u', rfl, hwithin⟩
    · rcases List.append_eq_append_iff.1 hlater with ⟨u'', -, hafter⟩ | ⟨s, hs, hoverlap⟩
      · exact ih hw hafter
      · cases u' with
        | nil => exact at_separator hlater.symm
        | cons x u' =>
          rw [htail] at hs
          obtain rfl : b = x := (List.cons.inj hs).1
          exact exists_after_overlap hb (htail.trans hs) List.mem_cons_self hword' hoverlap.symm
    · cases u' with
      | nil => exact at_separator hwithin
      | cons x u' =>
        rw [htail] at hwithin
        obtain rfl : b = x := (List.cons.inj hwithin).1
        exact absurd (by simp) (hword.not_mem hb)

/-- No text of words begins or ends with a separator, or has two of them one after the other. -/
theorem ItemClass.Joins.not_misplaced (hsep : b ∈ sep.head?) (h : c.Joins sep text ws) :
    ¬(sep <+: text ∨ sep ++ sep <:+: text ∨ sep <:+ text) := by
  obtain ⟨tail, rfl⟩ := List.head?_eq_some_iff.1 hsep
  obtain ⟨hw, htext⟩ := h
  cases ws with
  | nil =>
    rw [List.intercalate_nil] at htext
    subst htext
    simp
  | cons w ws =>
    rw [intercalate_cons_eq] at htext
    have after {u v : Bytes} (huv : u ++ (b :: tail) ++ v = text) : ∃ x ∈ v.head?, x ≠ b := by
      rw [List.append_assoc] at huv
      exact exists_after_separator hb hsep (fun _ => hw) (htext.symm.trans huv.symm)
    rintro (⟨v, hv⟩ | ⟨u, v, huv⟩ | ⟨u, hu⟩)
    · obtain ⟨x, hx, hne⟩ := (hw List.mem_cons_self).exists_head_ne hb (separated (b :: tail) ws)
      rw [← htext, ← hv] at hx
      exact hne (Option.some.inj hx).symm
    · rw [← List.append_assoc, List.append_assoc] at huv
      obtain ⟨x, hx, hne⟩ := after huv
      exact hne (Option.some.inj hx).symm
    · obtain ⟨x, hx, -⟩ := after ((List.append_nil _).trans hu)
      cases hx

end After

/-! ### Words and a rest -/

/-- A text begins with a word, or with none. -/
theorem exists_word (h : ¬c.Bars text) : ∃ w rest, text = w ++ rest ∧ c.IsWord w ∧ c.Bars rest := by
  obtain ⟨w, rest, rfl, hw, hrest⟩ := Parser.exists_run c text
  refine ⟨w, rest, rfl, ⟨?_, hw _⟩, hrest⟩
  rintro rfl
  exact h hrest

/-- Before words that follow separators, a word ends. -/
theorem bars_separated (hsep : c.Bars sep) (hne : sep ≠ []) (ws : List Bytes) (hrest : c.Bars rest) :
    c.Bars (separated sep ws ++ rest) := by
  cases ws with
  | nil => exact hrest
  | cons w ws =>
    obtain ⟨x, tail, rfl⟩ := List.exists_cons_of_ne_nil hne
    exact hsep

/-- Where no word begins, a text is that of some words after separators and a rest where there are no more. -/
theorem exists_separated (hne : sep ≠ []) (h : c.Bars text) :
    ∃ ws rest, (∀ w ∈ ws, c.IsWord w) ∧ text = separated sep ws ++ rest ∧ c.Bars rest ∧
      ∀ t, rest = sep ++ t → c.Bars t := by
  induction hn : text.length using Nat.strong_induction_on generalizing text with
  | _ n ih =>
    by_cases hmore : ∃ t, text = sep ++ t ∧ ¬c.Bars t
    · obtain ⟨t, rfl, ht⟩ := hmore
      obtain ⟨w, t, rfl, hw, ht⟩ := exists_word ht
      have hpos := List.length_pos_iff.2 hne
      rw [List.length_append, List.length_append] at hn
      obtain ⟨ws, rest, hws, rfl, hends⟩ := ih t.length (by omega) ht rfl
      refine ⟨w :: ws, rest, List.forall_mem_cons.2 ⟨hw, hws⟩, ?_, hends⟩
      rw [separated_cons, List.append_assoc, List.append_assoc]
    · exact ⟨[], text, nofun, rfl, h, fun t ht => by_contra fun hbars => hmore ⟨t, ht, hbars⟩⟩

/-- Every text begins with some words, and they end. -/
theorem exists_joined (c : ItemClass UInt8) (hne : sep ≠ []) (text : Bytes) :
    ∃ ws rest, text = sep.intercalate ws ++ rest ∧ c.WordsEnd sep ws rest := by
  by_cases h : c.Bars text
  · exact ⟨[], text, rfl, nofun, h, fun h => absurd rfl h⟩
  · obtain ⟨w, t, rfl, hw, ht⟩ := exists_word h
    obtain ⟨ws, rest, hws, rfl, hrest, hends⟩ := exists_separated hne ht
    refine ⟨w :: ws, rest, ?_, fun hmem => List.forall_mem_cons.2 ⟨hw, hws⟩ _ hmem, hrest, fun _ => hends _⟩
    rw [intercalate_cons_eq, List.append_assoc]

/-- A text is joined from words that end where it does. -/
theorem ItemClass.joins_iff (hne : sep ≠ []) :
    c.Joins sep text ws ↔ text = sep.intercalate ws ∧ c.WordsEnd sep ws [] :=
  ⟨fun h => ⟨h.text, h.words, nofun, fun _ _ ht => absurd (List.append_eq_nil_iff.1 ht.symm).1 hne⟩,
    fun h => ⟨h.2.words, h.1⟩⟩

end Text

/-! ## Parsers of words -/

namespace Parser

/-- The parser reads a word up to where it ends, and fails where no word begins. -/
structure ReadsWords (p : Parser σ UInt8 α) (c : ItemClass UInt8) (xs : Bytes) (value : Bytes → α) : Prop where
  reads {i : Nat} {w rest : Bytes} (h : xs.drop i = w ++ rest) (hw : c.IsWord w) (hrest : c.Bars rest) :
    ∃ f, p.Matches xs i (value w) (i + w.length) f
  fails {i : Nat} (h : c.Bars (xs.drop i)) : ∃ f, p.Fails xs i f

/-- The parser reads a literal, and fails where the input does not go on with it. -/
structure ReadsLiteral (q : Parser σ UInt8 β) (literal xs : Bytes) : Prop where
  reads {i : Nat} {rest : Bytes} (hi : i ≤ xs.length) (h : xs.drop i = literal ++ rest) :
    ∃ v f, q.Matches xs i v (i + literal.length) f
  fails {i : Nat} (hi : i ≤ xs.length) (h : ¬literal <+: xs.drop i) : ∃ f, q.Fails xs i f

theorem readsLiteral_str (literal xs : Bytes) : (str literal : Parser σ UInt8 Bytes).ReadsLiteral literal xs where
  reads hi h := ⟨_, _, matches_str h hi⟩
  fails hi h := ⟨_, fails_str h hi⟩

theorem ReadsLiteral.map {q : Parser σ UInt8 β} {literal xs : Bytes} (hq : q.ReadsLiteral literal xs) {γ : Type}
    (value : β → γ) : (q.map value).ReadsLiteral literal xs where
  reads hi h := by
    obtain ⟨v, f, hm⟩ := hq.reads hi h
    exact ⟨_, _, hm.map value⟩
  fails hi h := by
    obtain ⟨f, hf⟩ := hq.fails hi h
    exact ⟨_, hf.map value⟩

section

variable {p : Parser σ UInt8 α} {q : Parser σ UInt8 β} {c : ItemClass UInt8} {sep xs rest : Bytes} {ws : List Bytes}
variable {value : Bytes → α} {i : Nat} (hp : p.ReadsWords c xs value) (hq : q.ReadsLiteral sep xs)
include hp hq

/-- Words after separators are read one by one. -/
theorem ReadsWords.reads_separated (hsep : c.Bars sep) (hne : sep ≠ []) (hi : i ≤ xs.length)
    (h : xs.drop i = separated sep ws ++ rest) (hw : ∀ w ∈ ws, c.IsWord w) (hrest : c.Bars rest) (r : Record) :
    ∃ g, (q.andThen p).Reads xs i r (ws.map value) (i + (separated sep ws).length) g := by
  induction ws generalizing i r with
  | nil => exact ⟨r, .nil i r⟩
  | cons w ws ih =>
    obtain ⟨hword, hw⟩ := List.forall_mem_cons.1 hw
    rw [separated_cons, List.append_assoc, List.append_assoc] at h
    have hword_at := drop_add_length h
    have hrest_at := drop_add_length hword_at
    have hlen := congrArg List.length h
    rw [List.length_drop, List.length_append, List.length_append] at hlen
    obtain ⟨v, f, hseparator⟩ := hq.reads hi h
    obtain ⟨g, hmatch⟩ := hp.reads hword_at hword (bars_separated hsep hne ws hrest)
    have hpos := List.length_pos_iff.2 hword.ne_nil
    obtain ⟨g', hreads⟩ := ih (by omega) hrest_at hw ((g.merge f).merge r)
    rw [separated_cons, List.length_append, List.length_append, ← Nat.add_assoc, ← Nat.add_assoc]
    exact ⟨g', .cons (hseparator.andThen hmatch) (by omega) hreads⟩

/-- Where no word follows a separator, the two fail. -/
theorem ReadsWords.fails_separated (hi : i ≤ xs.length) (h : ∀ t, xs.drop i = sep ++ t → c.Bars t) :
    ∃ f, (q.andThen p).Fails xs i f := by
  by_cases hsep : sep <+: xs.drop i
  · obtain ⟨t, ht⟩ := hsep
    obtain ⟨v, f, hseparator⟩ := hq.reads hi ht.symm
    have hbars : c.Bars (xs.drop (i + sep.length)) := by
      rw [drop_add_length ht.symm]
      exact h t ht.symm
    obtain ⟨g, hfails⟩ := hp.fails hbars
    exact ⟨_, hseparator.andThen_fails hfails⟩
  · obtain ⟨f, hfails⟩ := hq.fails hi hsep
    exact ⟨f, hfails.andThen p⟩

/-- A separated repetition takes the words with which the input begins. -/
theorem ReadsWords.sepBy_takes (hsep : c.Bars sep) (hne : sep ≠ []) (hxs : xs.length < unbounded) :
    (p.sepBy q .any).Takes xs sep.intercalate (c.WordsEnd sep) (·.map value) := fun ws rest h hends => by
  cases ws with
  | nil =>
    have hbars : c.Bars (xs.drop 0) := by
      rw [h]
      exact hends.bars
    obtain ⟨f, hfails⟩ := hp.fails hbars
    exact ⟨f, hfails.sepBy q⟩
  | cons w ws =>
    obtain ⟨hword, hw⟩ := List.forall_mem_cons.1 fun _ => hends.words
    rw [intercalate_cons_eq] at h ⊢
    rw [List.append_assoc] at h
    have hlen := congrArg List.length h
    rw [List.length_append, List.length_append] at hlen
    obtain ⟨f, hmatch⟩ := hp.reads (i := 0) h hword (bars_separated hsep hne ws hends.bars)
    have hafter : xs.drop (0 + w.length) = separated sep ws ++ rest := drop_add_length h
    obtain ⟨g, hreads⟩ := hp.reads_separated hq hsep hne (by omega) hafter hw hends.bars ∅
    have hrest_at := drop_add_length hafter
    obtain ⟨s, hfails⟩ := hp.fails_separated hq (i := 0 + w.length + (separated sep ws).length) (by omega)
      fun t ht => hends.stops (List.cons_ne_nil w ws) (hrest_at.symm.trans ht)
    have hcount := hreads.add_length_le
    rw [List.length_append, ← Nat.zero_add w.length]
    exact ⟨_, hreads.sepBy hmatch hfails (by omega)⟩

end

/-! ## Words of a class -/

variable {c : ItemClass UInt8} {sep xs : Bytes}

/-- A word of a class. The list of its bytes is the text of it. -/
def word (c : ItemClass UInt8) : Parser σ UInt8 Bytes := (satisfy c).oneOrMore

/-- Words of a class with a separator between any two of them. -/
def words (c : ItemClass UInt8) (sep : Bytes) : Parser σ UInt8 (List Bytes) := (word c).sepBy (str sep) .any

/-- A part of the input has no more bytes than may be repeated. -/
theorem length_lt_unbounded {w rest : Bytes} {i : Nat} (hxs : xs.length < unbounded) (h : xs.drop i = w ++ rest) :
    w.length < unbounded := by
  have hlen := congrArg List.length h
  rw [List.length_drop, List.length_append] at hlen
  omega

theorem readsWords_word (hxs : xs.length < unbounded) : (word c : Parser σ UInt8 Bytes).ReadsWords c xs id where
  reads h hw hrest :=
    ⟨_, matches_oneOrMore h (fun _ => hw.accepts) hw.ne_nil hrest (length_lt_unbounded hxs h)⟩
  fails h := ⟨_, fails_oneOrMore h⟩

end Parser

namespace Grammar

/-- The description of a word of a class, whose characters are joined to a text. -/
def word (c : ItemClass UInt8) : Grammar .bytes := .concat (.timesOf (.one c) 1 unbounded)

/-- The description of words of a class with a separator between any two of them. -/
def words (c : ItemClass UInt8) (sep : Bytes) : Grammar .bytes :=
  .sepBy (.word c) (.leaf (.str sep)) (Bounds.of .sepBy 0 unbounded)

variable {c : ItemClass UInt8} {sep xs : Bytes}

theorem build_words (c : ItemClass UInt8) (sep : Bytes) : (words c sep).build = pure (words c sep) := rfl

theorem readsWords_word (enter : Grammar .bytes → Meaning .bytes) (hxs : xs.length < unbounded) :
    (parserBy enter (word c)).ReadsWords c xs .string where
  reads {i w rest} h hw hrest := by
    have hreads := (Parser.reads_satisfy (σ := Store .bytes) h fun _ => hw.accepts).map Value.char
    have hends : c.Bars (xs.drop (i + w.length)) := by
      rw [Parser.drop_add_length h]
      exact hrest
    have hne : w.map Value.char ≠ [] := by simp [hw.ne_nil]
    have hcount : (w.map Value.char).length < unbounded := by
      rw [List.length_map]
      exact Parser.length_lt_unbounded hxs h
    have hrun := hreads.oneOrMore ((Parser.fails_satisfy hends).map _) hne hcount
    exact ⟨_, (hrun.map Value.list).tryMap (Value.joined_chars w)⟩
  fails h := ⟨_, (((Parser.fails_satisfy h).map Value.char).oneOrMore.map Value.list).tryMap Value.joined⟩

end Grammar

/-! ## Decoding -/

section Decode

variable {c : ItemClass UInt8} {sep xs : Bytes}

theorem Parser.words_decodes (hsep : c.Bars sep) (hne : sep ≠ []) (hxs : xs.length < unbounded) :
    ((words c sep).parse xs : Run σ (Except ParseError (List Bytes))).Decodes (c.Joins sep xs) id := by
  have htakes := (readsWords_word (σ := σ) hxs).sepBy_takes (readsLiteral_str sep xs) hsep hne hxs
  simp only [List.map_id] at htakes
  exact htakes.decodes (exists_joined c hne xs) fun _ => ItemClass.joins_iff hne

theorem Grammar.words_decodes (hsep : c.Bars sep) (hne : sep ≠ []) (hxs : xs.length < unbounded) :
    (Session.parse (.words c sep) xs).Decodes (c.Joins sep xs) fun ws => .list (ws.map .string) := by
  obtain ⟨limit, hparser⟩ := exists_parser_eq (words c sep)
  have htakes := ((readsWords_word (parserWithin (limit + 1)) hxs).sepBy_takes
    ((Parser.readsLiteral_str sep xs).map Value.string) hsep hne hxs).map Value.list
  rw [Session.parse, build_words, pure_bind, hparser]
  exact htakes.decodes (exists_joined c hne xs) fun _ => ItemClass.joins_iff hne

end Decode

/-! ## Main statement -/

/-- If a separator begins with a byte outside a class, words of the class with the separator between any two of them are
parsed from exactly the texts that they make, the empty text making none. All other inputs are rejected, among them those
with a separator at the beginning, at the end or right after another one. The described parser yields the words as a
list of texts. -/
theorem words_parse_iff_joins {c : ItemClass UInt8} {sep xs : Bytes} (hsep : ∃ b ∈ sep.head?, ¬c.accepts b)
    (hxs : xs.length < unbounded) (env : Env σ) (env' : Env (Store .bytes)) :
    let parsed := ((Parser.words c sep).parse xs).outcome env
    let described := (Session.parse (.words c sep) xs).outcome env'
    (∀ ws, parsed = .ok (.ok ws) ↔ c.Joins sep xs ws) ∧
      (∀ v, described = .ok (.ok v) ↔ ∃ ws, c.Joins sep xs ws ∧ v = .list (ws.map .string)) ∧
      ((∀ ws, ¬c.Joins sep xs ws) ∨ (sep <+: xs ∨ sep ++ sep <:+: xs ∨ sep <:+ xs) →
        (∃ e, parsed = .ok (.error e)) ∧ ∃ e, described = .ok (.error e)) := by
  intro parsed described
  obtain ⟨b, hb, hnot⟩ := hsep
  obtain ⟨tail, rfl⟩ := List.head?_eq_some_iff.1 hb
  have hbars : c.Bars (b :: tail) := fun x hx => Option.some.inj hx ▸ hnot
  have hparse := Parser.words_decodes (σ := σ) hbars (List.cons_ne_nil b tail) hxs
  have hdescribed := Grammar.words_decodes hbars (List.cons_ne_nil b tail) hxs
  refine ⟨fun ws => hparse.eq_ok_iff_encoded env, fun v => hdescribed.eq_ok_iff env', fun hrejected => ?_⟩
  have hnone : ∀ ws, ¬c.Joins (b :: tail) xs ws :=
    hrejected.elim id fun hplace ws hjoins => hjoins.not_misplaced hnot hb hplace
  exact ⟨hparse.exists_error env hnone, hdescribed.exists_error env' hnone⟩

/-- The later byte of the separator is a letter. It ends no word and begins the word after it. A separator at the end is
no part of the list. -/
theorem words_parse_iff_joins_of_letter_in_separator :
    let sep := ascii ",a"
    let env : Env Unit := ⟨.ofLevel .off, ()⟩
    let parse := fun text : Bytes => ((Parser.words .lower sep).parse text).outcome env
    (∃ b ∈ sep.head?, ¬ItemClass.lower.accepts b) ∧
      parse (ascii "ba,aab") = .ok (.ok [ascii "ba", ascii "ab"]) ∧
      (Session.parse (.words .lower sep) (ascii "ba,aab")).outcome (Session.initial [] .off) =
        .ok (.ok (.list [.string (ascii "ba"), .string (ascii "ab")])) ∧
      ∃ e, parse (ascii "ba,a") = .ok (.error e) := by
  intro sep env parse
  have hsep : ∃ b ∈ sep.head?, ¬ItemClass.lower.accepts b := ⟨44, rfl, by decide⟩
  have hwhole : (ascii "ba,aab").length < unbounded := by decide
  have htrailing : (ascii "ba,a").length < unbounded := by decide
  have hjoins : ItemClass.lower.Joins sep (ascii "ba,aab") [ascii "ba", ascii "ab"] := by decide
  obtain ⟨hparsed, hdescribed, -⟩ := words_parse_iff_joins hsep hwhole env (Session.initial [] .off)
  obtain ⟨-, -, hrejected⟩ := words_parse_iff_joins hsep htrailing env (Session.initial [] .off)
  refine ⟨hsep, (hparsed _).2 hjoins, (hdescribed _).2 ⟨_, hjoins, rfl⟩, (hrejected (.inr ?_)).1⟩
  exact .inr (.inr ⟨ascii "ba", rfl⟩)

end Furthest
