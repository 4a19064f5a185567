import Mathlib.Data.List.Basic
import Furthest.Expectation

/-!
# Expectations can be read back

The text of an expectation is read from its start. Between quotes a backslash is read together with the letter after it,
so a quote that is come upon otherwise closes the label, whatever the label holds (`Bytes.readLabel_escaped`). Labels go
on as long as a comma and a blank follow (`Labels.readList_renderList`), so a reader knows where the text ends unless
just these come after it (`Labels.read_render`).

Main statement: `expectation_text_readable`.
-/

namespace Furthest

namespace Bytes

variable {b letter : UInt8} {label rest text : Bytes}

/-! ## Labels between quotes -/

/-- The byte that a letter stands for after a backslash. -/
def unescapeLetter : UInt8 → Option UInt8
  | 110 => some 10
  | 114 => some 13
  | 116 => some 9
  | 92 => some 92
  | 39 => some 39
  | _ => none

theorem unescapeLetter_of_escapeLetter (h : escapeLetter b = some letter) : unescapeLetter letter = some b := by
  unfold escapeLetter at h
  split at h <;> cases h <;> rfl

/-- A byte that stands for itself is neither the quote nor the backslash. -/
theorem ne_of_escapeLetter_eq_none (h : escapeLetter b = none) : b ≠ quote ∧ b ≠ backslash := by
  refine ⟨?_, ?_⟩ <;> rintro rfl <;> cases h

/-- Reads what follows an opening quote: the label up to the closing quote, and the rest. -/
def readLabel : Bytes → Option (Bytes × Bytes)
  | [] => none
  | b :: text =>
    if b = quote then some ([], text)
    else if b = backslash then
      match text with
      | [] => none
      | letter :: text => do
        let b ← unescapeLetter letter
        (readLabel text).map (Prod.map (b :: ·) id)
    else (readLabel text).map (Prod.map (b :: ·) id)

theorem readLabel_quote (rest : Bytes) : readLabel (quote :: rest) = some ([], rest) := by
  cases rest <;> rfl

theorem readLabel_backslash (h : unescapeLetter letter = some b) :
    readLabel (backslash :: letter :: text) = (readLabel text).map (Prod.map (b :: ·) id) := by
  have hne : backslash ≠ quote := by decide
  simp [readLabel, hne, h]

theorem readLabel_cons (h : b ≠ quote ∧ b ≠ backslash) :
    readLabel (b :: text) = (readLabel text).map (Prod.map (b :: ·) id) := by
  cases text <;> simp [readLabel, h]

/-- A label is read back, whatever follows its closing quote. -/
theorem readLabel_escaped (label rest : Bytes) :
    readLabel (label.flatMap escapeByte ++ quote :: rest) = some (label, rest) := by
  induction label with
  | nil => exact readLabel_quote rest
  | cons b label ih =>
    rw [List.flatMap_cons, List.append_assoc, escapeByte]
    split
    · next letter h =>
      simp only [List.cons_append, List.nil_append]
      rw [readLabel_backslash (unescapeLetter_of_escapeLetter h), ih]
      rfl
    · next h =>
      simp only [List.cons_append, List.nil_append]
      rw [readLabel_cons (ne_of_escapeLetter_eq_none h), ih]
      rfl

theorem length_of_readLabel (h : readLabel text = some (label, rest)) : rest.length < text.length := by
  induction text using readLabel.induct generalizing label rest with
  | case1 => cases h
  | case2 text =>
    rw [readLabel_quote] at h
    cases h
    exact Nat.lt_succ_self _
  | case3 => cases h
  | case4 letter text hne ih =>
    simp only [readLabel, hne, if_true, if_false, Option.bind_eq_bind, Option.bind_eq_some_iff,
      Option.map_eq_some_iff] at h
    obtain ⟨b, -, ⟨label', rest'⟩, hread, hrest⟩ := h
    cases hrest
    exact Nat.lt_succ_of_lt (Nat.lt_succ_of_lt (ih hread))
  | case5 b text hquote hbackslash ih =>
    rw [readLabel_cons ⟨hquote, hbackslash⟩, Option.map_eq_some_iff] at h
    obtain ⟨⟨label', rest'⟩, hread, hrest⟩ := h
    cases hrest
    exact Nat.lt_succ_of_lt (ih hread)

/-- Reads a label between quotes: the label, and the rest. -/
def readQuoted : Bytes → Option (Bytes × Bytes)
  | [] => none
  | b :: text => if b = quote then readLabel text else none

theorem readQuoted_quoted (label rest : Bytes) : readQuoted (label.quoted ++ rest) = some (label, rest) := by
  rw [quoted, List.cons_append, List.cons_append, List.append_assoc, readQuoted, if_pos rfl]
  exact readLabel_escaped label rest

theorem length_of_readQuoted (h : readQuoted text = some (label, rest)) : rest.length < text.length := by
  cases text with
  | nil => cases h
  | cons b text =>
    rw [readQuoted] at h
    split at h
    · exact Nat.lt_succ_of_lt (length_of_readLabel h)
    · cases h

/-! ## Beginnings -/

theorem isPrefixOf?_eq_none {before text : Bytes} (h : ¬before <+: text) : before.isPrefixOf? text = none := by
  refine Option.eq_none_iff_forall_ne_some.2 fun more hmore => h ⟨more, ?_⟩
  exact List.isPrefixOf?_eq_some_iff_append_eq.1 hmore

theorem isPrefixOf?_append (before more : Bytes) : before.isPrefixOf? (before ++ more) = some more :=
  List.isPrefixOf?_eq_some_iff_append_eq.2 rfl

/-- No text begins with a text that has another first byte. -/
theorem not_prefix_of_ne {c : UInt8} {before text : Bytes} (h : b ≠ c) : ¬b :: before <+: c :: text := fun hbegins =>
  h (List.cons_prefix_cons.1 hbegins).1

end Bytes

namespace Labels

/-! ## Sets of labels -/

/-- Reads quoted labels, as long as a comma and a blank come after each: the labels, and the rest. -/
def readList (text : Bytes) : Option (List Bytes × Bytes) :=
  match _hread : text.readQuoted with
  | none => none
  | some (label, rest) =>
    match _hcomma : (ascii ", ").isPrefixOf? rest with
    | none => some ([label], rest)
    | some more => (readList more).map (Prod.map (label :: ·) id)
termination_by text.length
decreasing_by
  have hrest := Bytes.length_of_readQuoted _hread
  have hmore := congrArg List.length (List.isPrefixOf?_eq_some_iff_append_eq.1 _hcomma)
  rw [List.length_append] at hmore
  omega

/-- Reads the text of an expectation: the set, and the rest. -/
def read (text : Bytes) : Option (Labels × Bytes) :=
  match (ascii "one of ").isPrefixOf? text with
  | none => text.readQuoted.map (Prod.map singleton id)
  | some text =>
    if [Bytes.quote] <+: text then (readList text).map (Prod.map ofList id)
    else some (∅, text)

theorem ofList_toList (s : Labels) : ofList s.toList = s :=
  ext fun _ => mem_ofList

variable {rest : Bytes}

theorem readList_last (h : ¬ascii ", " <+: rest) (label : Bytes) :
    readList (label.quoted ++ rest) = some ([label], rest) := by
  rw [readList]
  split
  · next hread => cases hread.symm.trans (Bytes.readQuoted_quoted label rest)
  · next hread =>
    cases hread.symm.trans (Bytes.readQuoted_quoted label rest)
    split
    · rfl
    · next hcomma => cases hcomma.symm.trans (Bytes.isPrefixOf?_eq_none h)

theorem readList_more (label more : Bytes) :
    readList (label.quoted ++ ascii ", " ++ more) = (readList more).map (Prod.map (label :: ·) id) := by
  rw [readList]
  split
  · next hread =>
    rw [List.append_assoc, Bytes.readQuoted_quoted] at hread
    cases hread
  · next hread =>
    rw [List.append_assoc, Bytes.readQuoted_quoted] at hread
    cases hread
    split
    · next hcomma => cases hcomma.symm.trans (Bytes.isPrefixOf?_append _ _)
    · next hcomma =>
      cases hcomma.symm.trans (Bytes.isPrefixOf?_append _ _)
      rfl

/-- Labels are read back up to where no comma and blank follow. -/
theorem readList_renderList (h : ¬ascii ", " <+: rest) (label : Bytes) (labels : List Bytes) :
    readList (renderList (label :: labels) ++ rest) = some (label :: labels, rest) := by
  induction labels generalizing label with
  | nil => exact readList_last h label
  | cons next labels ih =>
    rw [renderList, List.append_assoc, readList_more, ih]
    · rfl
    · exact nofun

/-- A list of labels begins with a quote. -/
theorem quote_prefix_renderList (label : Bytes) (labels : List Bytes) (rest : Bytes) :
    [Bytes.quote] <+: renderList (label :: labels) ++ rest := by
  cases labels <;> exact ⟨_, rfl⟩

theorem read_one_of (text : Bytes) : read (ascii "one of " ++ text) =
    if [Bytes.quote] <+: text then (readList text).map (Prod.map ofList id) else some (∅, text) := by
  rw [read, Bytes.isPrefixOf?_append]

theorem read_quoted (label rest : Bytes) : read (label.quoted ++ rest) = some (singleton label, rest) := by
  have hquote : ¬ascii "one of " <+: label.quoted ++ rest := Bytes.not_prefix_of_ne (by decide)
  rw [read, Bytes.isPrefixOf?_eq_none hquote]
  simp only [Bytes.readQuoted_quoted]
  rfl

/-- A set is read back up to where no comma and blank follow. -/
theorem read_render {s : Labels} (h : ¬ascii ", " <+: rest) (hempty : s = ∅ → ¬[Bytes.quote] <+: rest) :
    read (s.render ++ rest) = some (s, rest) := by
  have hs := ofList_toList s
  obtain ⟨labels, sorted⟩ := s
  rcases labels with _ | ⟨label, _ | ⟨next, labels⟩⟩
  · show read (ascii "one of " ++ [] ++ rest) = _
    rw [List.append_assoc, read_one_of, List.nil_append, if_neg (hempty rfl)]
    rfl
  · show read (label.quoted ++ rest) = _
    rw [read_quoted]
    exact congrArg (fun s => some (s, rest)) hs
  · show read (ascii "one of " ++ renderList (label :: next :: labels) ++ rest) = _
    rw [List.append_assoc, read_one_of, if_pos (quote_prefix_renderList ..), readList_renderList h]
    exact congrArg (fun s => some (s, rest)) hs

/-- The set whose text is given. -/
def ofText? (text : Bytes) : Option Labels :=
  match read text with
  | some (s, []) => some s
  | _ => none

theorem ofText?_render (s : Labels) : ofText? s.render = some s := by
  have hread : read (s.render ++ []) = some (s, []) := read_render nofun fun _ => nofun
  rw [List.append_nil] at hread
  rw [ofText?, hread]

theorem read_render_at (s : Labels) (place : Bytes) :
    read (s.render ++ ascii " at " ++ place) = some (s, ascii " at " ++ place) := by
  rw [List.append_assoc]
  have hcomma : ¬ascii ", " <+: ascii " at " ++ place := Bytes.not_prefix_of_ne (by decide)
  have hquote : ¬[Bytes.quote] <+: ascii " at " ++ place := Bytes.not_prefix_of_ne (by decide)
  exact read_render hcomma fun _ => hquote

/-- A text tells where the place after it starts. -/
theorem render_at_inj {s t : Labels} {place place' : Bytes} :
    s.render ++ ascii " at " ++ place = t.render ++ ascii " at " ++ place' ↔ s = t ∧ place = place' := by
  refine ⟨fun h => ?_, fun ⟨hs, hplace⟩ => by rw [hs, hplace]⟩
  have hread := read_render_at s place
  rw [h, read_render_at t place', Option.some.injEq, Prod.mk.injEq] at hread
  exact ⟨hread.1.symm, (List.append_cancel_left hread.2).symm⟩

end Labels

/-! ## Main statement -/

/-- Expectations are read back from their texts, so different sets of labels have different texts, whatever bytes the
labels hold. A text ends where no comma and blank follow, nor a quote after the text of the empty set; so it is cut off
from the place that follows it. -/
theorem expectation_text_readable :
    (∀ s : Labels, Labels.ofText? s.render = some s) ∧
    (∀ s t : Labels, s.render = t.render → s = t) ∧
    (∀ (s : Labels) (rest : Bytes), ¬ascii ", " <+: rest → (s = ∅ → ¬[Bytes.quote] <+: rest) →
      Labels.read (s.render ++ rest) = some (s, rest)) ∧
    (∀ (s : Labels) (place : Bytes),
      Labels.read (s.render ++ ascii " at " ++ place) = some (s, ascii " at " ++ place)) ∧
    ∀ (s t : Labels) (place place' : Bytes),
      s.render ++ ascii " at " ++ place = t.render ++ ascii " at " ++ place' → s = t ∧ place = place' := by
  refine ⟨Labels.ofText?_render, fun s t h => ?_, fun s rest => Labels.read_render, Labels.read_render_at,
    fun s t place place' => Labels.render_at_inj.1⟩
  have hread := Labels.ofText?_render s
  rw [h, Labels.ofText?_render t] at hread
  exact (Option.some.inj hread).symm

/-- A label that holds the text between two labels, and the set of those two labels. -/
theorem expectation_text_readable_of_quotes :
    let s := Labels.singleton (ascii "a', 'b")
    let t := Labels.ofList [ascii "a", ascii "b"]
    let t' := Labels.ofList [ascii "b", ascii "a", ascii "b"]
    let place := ascii "0:1"
    s.render = ascii "'a\\', \\'b'" ∧ t.render = ascii "one of 'a', 'b'" ∧ s ≠ t ∧
      Labels.ofText? s.render = some s ∧ Labels.ofText? t.render = some t ∧ (t.render = t'.render ∧ t = t') ∧
      ¬ascii ", " <+: ascii "; 'c'" ∧ Labels.read (t.render ++ ascii "; 'c'") = some (t, ascii "; 'c'") ∧
      t.render ++ ascii " at " ++ place = t'.render ++ ascii " at " ++ place ∧ t = t' := by
  intro s t t' place
  obtain ⟨reads, injective, ends, -, places⟩ := expectation_text_readable
  have hsame : t.render = t'.render := by decide
  have hcomma : ¬ascii ", " <+: ascii "; 'c'" := by decide
  have hnonempty : t ≠ ∅ := by decide
  have hplace : t.render ++ ascii " at " ++ place = t'.render ++ ascii " at " ++ place := by rw [hsame]
  exact ⟨by decide, by decide, by decide, reads s, reads t, ⟨hsame, injective t t' hsame⟩, hcomma,
    ends t _ hcomma fun h => absurd h hnonempty, hplace, (places t t' place place hplace).1⟩

end Furthest
