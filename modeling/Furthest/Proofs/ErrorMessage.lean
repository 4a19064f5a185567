import Mathlib.Data.List.TakeWhile
import Furthest.Grammar.Alphabet
import Furthest.Proofs.ExpectationText
import Furthest.Proofs.Positions

/-!
# Messages of errors

The text of an error tells its expectation and its place apart (`ParseError.text_append_inj`). The message is the text
up to its first zero byte. Between quotes a zero byte stands for itself, so a label that holds one ends the message
inside its quotes: the place is left out, and so are the labels after it. Without such a label the message is the whole
text, and no error that expects something else, or is at another place, has that message.

Main statement: `message_complete`.
-/

namespace Furthest

variable {σ α : Type}

/-! ## Zero bytes -/

theorem zero_not_mem_decimal (n : Nat) : 0 ∉ decimal n := not_mem_decimal (.inl (by decide)) n

namespace Bytes

variable {text more : Bytes}

theorem zero_mem_escapeByte {b : UInt8} : 0 ∈ escapeByte b ↔ b = 0 := by
  unfold escapeByte escapeLetter
  split <;> split at * <;> simp_all [backslash, eq_comm]

/-- Quoting neither brings in a zero byte nor takes one away. -/
theorem zero_mem_quoted {label : Bytes} : 0 ∈ label.quoted ↔ 0 ∈ label := by
  have hquote : (0 : UInt8) ≠ quote := by decide
  simp [quoted, hquote, zero_mem_escapeByte]

/-- A text is seen whole only without a zero byte. -/
theorem beforeZero_eq_self_iff : text.beforeZero = text ↔ 0 ∉ text := by
  rw [beforeZero, List.takeWhile_eq_self_iff]
  simp only [bne_iff_ne]
  exact ⟨fun h hzero => h 0 hzero rfl, fun h b hb hzero => h (hzero ▸ hb)⟩

theorem beforeZero_append_of_not_mem (h : 0 ∉ text) : (text ++ more).beforeZero = text ++ more.beforeZero := by
  have hself := beforeZero_eq_self_iff.2 h
  rw [beforeZero] at hself
  rw [beforeZero, List.takeWhile_append, hself, if_pos rfl, beforeZero]

/-- What follows a zero byte is not seen. -/
theorem beforeZero_append_of_mem (h : 0 ∈ text) : (text ++ more).beforeZero = text.beforeZero := by
  have hlen : (text.takeWhile (· != 0)).length ≠ text.length := fun hlen =>
    beforeZero_eq_self_iff.1 ((List.takeWhile_prefix _).eq_of_length hlen) h
  rw [beforeZero, List.takeWhile_append, if_neg hlen, beforeZero]

theorem beforeZero_append_exists (text : Bytes) : ∃ more, text.beforeZero ++ more = text :=
  List.takeWhile_prefix _

end Bytes

namespace Labels

theorem zero_mem_renderList {labels : List Bytes} : 0 ∈ renderList labels ↔ ∃ label ∈ labels, 0 ∈ label := by
  have hcomma : 0 ∉ ascii ", " := by decide
  induction labels using renderList.induct with
  | case1 => simp [renderList]
  | case2 label => simp [renderList, Bytes.zero_mem_quoted]
  | case3 label labels hne ih =>
    rw [renderList]
    · simp only [List.mem_append, Bytes.zero_mem_quoted, hcomma, or_false, ih, List.exists_mem_cons_iff]
    · exact hne

/-- The text of an expectation has a zero byte exactly if a label has. -/
theorem zero_mem_render {s : Labels} : 0 ∈ s.render ↔ ∃ label ∈ s, 0 ∈ label := by
  have hone : 0 ∉ ascii "one of " := by decide
  show _ ↔ ∃ label ∈ s.toList, 0 ∈ label
  rw [← zero_mem_renderList, render]
  split
  · next label hlabels => rw [hlabels, renderList]
  · next hlabels => rw [List.mem_append, or_iff_right hone]

end Labels

/-! ## Texts -/

namespace ParseError

variable {err err' : ParseError} {more : Bytes}

theorem text_of_empty (h : err.expected = ∅) : err.text = ascii "unexpected input" ++ ascii " at " ++ err.position :=
  if_pos h

theorem text_of_ne_empty (h : err.expected ≠ ∅) :
    err.text = ascii "expected " ++ (err.expected.render ++ ascii " at " ++ err.position) := by
  rw [text, if_neg h, List.append_assoc, List.append_assoc, List.append_assoc]

/-- Texts tell the expectations and the places apart. -/
theorem text_append_inj : err.text ++ more = err'.text ↔
    err.expected = err'.expected ∧ err.position ++ more = err'.position := by
  have hhead {text text' : Bytes} (h : ascii "unexpected input" ++ text = ascii "expected " ++ text') : False := by
    have hbytes := (List.cons.inj h).1
    revert hbytes
    decide
  by_cases hempty : err.expected = ∅ <;> by_cases hempty' : err'.expected = ∅
  · rw [text_of_empty hempty, text_of_empty hempty', List.append_assoc _ _ more, List.append_right_inj, hempty, hempty']
    simp only [true_and]
  · rw [text_of_empty hempty, text_of_ne_empty hempty', hempty]
    simp only [List.append_assoc]
    exact ⟨fun h => (hhead h).elim, fun h => absurd h.1.symm hempty'⟩
  · rw [text_of_ne_empty hempty, text_of_empty hempty', hempty']
    simp only [List.append_assoc]
    exact ⟨fun h => (hhead h.symm).elim, fun h => absurd h.1 hempty⟩
  · rw [text_of_ne_empty hempty, text_of_ne_empty hempty', List.append_assoc, List.append_right_inj,
      List.append_assoc _ _ more, Labels.render_at_inj]

/-- The text has a zero byte exactly if a label has, at a place without one. -/
theorem zero_mem_text (h : 0 ∉ err.position) : 0 ∈ err.text ↔ ∃ label ∈ err.expected, 0 ∈ label := by
  have hword : 0 ∉ ascii "unexpected input" ++ ascii " at " := by decide
  have hword' : 0 ∉ ascii "expected " := by decide
  have hat : 0 ∉ ascii " at " := by decide
  by_cases hempty : err.expected = ∅
  · rw [text_of_empty hempty, List.mem_append, hempty]
    simp [hword, h]
  · rw [text_of_ne_empty hempty]
    simp only [List.mem_append, hword', hat, h, or_false, false_or]
    exact Labels.zero_mem_render

/-- The message is the whole text exactly if no label has a zero byte, at a place without one. -/
theorem message_eq_text_iff (h : 0 ∉ err.position) : err.message = err.text ↔ ∀ label ∈ err.expected, 0 ∉ label := by
  rw [message, Bytes.beforeZero_eq_self_iff, zero_mem_text h]
  simp only [not_exists, not_and]

/-- The message ends inside the quotes of the first label that has a zero byte. -/
theorem message_of_zero_mem (h : ∃ label ∈ err.expected, 0 ∈ label) :
    err.message = ascii "expected " ++ err.expected.render.beforeZero := by
  obtain ⟨label, hlabel, hzero⟩ := h
  have hne : err.expected ≠ ∅ := fun hempty => Labels.not_mem_empty label (hempty ▸ hlabel)
  have hword : 0 ∉ ascii "expected " := by decide
  have hrender : 0 ∈ err.expected.render := Labels.zero_mem_render.2 ⟨label, hlabel, hzero⟩
  rw [message, text_of_ne_empty hne, Bytes.beforeZero_append_of_not_mem hword, List.append_assoc,
    Bytes.beforeZero_append_of_mem hrender]

/-- A message that is the whole text is had by no error that expects something else or is at another place. -/
theorem eq_of_message_eq (h : 0 ∉ err.position) (h' : 0 ∉ err'.position) (hwhole : err.message = err.text)
    (hmessage : err.message = err'.message) : err.expected = err'.expected ∧ err.position = err'.position := by
  obtain ⟨more, hmore⟩ := Bytes.beforeZero_append_exists err'.text
  have hbegins : err.text ++ more = err'.text := by rw [← hwhole, hmessage]; exact hmore
  have hexpected : err.expected = err'.expected := (text_append_inj.1 hbegins).1
  -- the labels are the same, so the other message is not cut off either
  have hwhole' : err'.message = err'.text :=
    (message_eq_text_iff h').2 (hexpected ▸ (message_eq_text_iff h).1 hwhole)
  have htext : err.text ++ [] = err'.text := by rw [List.append_nil, ← hwhole, hmessage, hwhole']
  have hposition := (text_append_inj.1 htext).2
  exact ⟨hexpected, by rwa [List.append_nil] at hposition⟩

end ParseError

/-! ## Main statement -/

/-- Places are written without zero bytes. -/
theorem Alphabet.zero_not_mem_describe (a : Alphabet) (xs : List a.Carrier) (i : Nat) : 0 ∉ Item.describe xs i := by
  cases a with
  | bytes =>
    have hcolon : 0 ∉ ascii ":" := by decide
    show 0 ∉ (LineColumn.locate xs i).render
    simp only [LineColumn.render, List.mem_append, zero_not_mem_decimal, hcolon, or_self, not_false_iff]
  | integers => exact zero_not_mem_decimal i
  | words => exact zero_not_mem_decimal i

/-- The text of an error tells what was expected, and where. The message is this text exactly if no label has a zero
byte; then every error with this message, of any parser and for any input, expects the same at the same place. With such
a label the message ends before its first zero byte, and tells no place. -/
theorem message_complete {a : Alphabet} (p : Parser σ a.Carrier α) {xs : List a.Carrier} {env : Env σ}
    {err : ParseError} (h : p.Refuses xs env err) :
    err.text =
      (if err.expected = ∅ then ascii "unexpected input" else ascii "expected " ++ err.expected.render) ++
        ascii " at " ++ err.position ∧
    err.position = Item.describe xs err.index ∧
    (err.message = err.text ↔ ∀ label ∈ err.expected, 0 ∉ label) ∧
    ((∃ label ∈ err.expected, 0 ∈ label) → err.message = ascii "expected " ++ err.expected.render.beforeZero) ∧
    ((∀ label ∈ err.expected, 0 ∉ label) →
      ∀ {τ β : Type} {b : Alphabet} (q : Parser τ b.Carrier β) (ys : List b.Carrier) (env' : Env τ) (err' : ParseError),
        q.Refuses ys env' err' → err.message = err'.message →
          err.expected = err'.expected ∧ err.position = err'.position) := by
  have hzero : 0 ∉ err.position := h.position_eq ▸ a.zero_not_mem_describe xs err.index
  have hwhole := ParseError.message_eq_text_iff hzero
  refine ⟨?_, h.position_eq, hwhole, ParseError.message_of_zero_mem, ?_⟩
  · by_cases hempty : err.expected = ∅
    · rw [if_pos hempty, ParseError.text_of_empty hempty]
    · rw [if_neg hempty, ParseError.text_of_ne_empty hempty, List.append_assoc, List.append_assoc, List.append_assoc]
  · intro hlabels τ β b q ys env' err' h'
    have hzero' : 0 ∉ err'.position := h'.position_eq ▸ b.zero_not_mem_describe ys err'.index
    exact ParseError.eq_of_message_eq hzero hzero' (hwhole.2 hlabels)

/-- A quote or a line feed is expected in either order, and a zero byte. -/
theorem message_complete_of_quote :
    let env : Env Unit := ⟨.ofLevel .off, ()⟩
    let symbol (b : UInt8) : Parser Unit Alphabet.bytes.Carrier UInt8 := .symbol b
    let p := (symbol 39).orElse (symbol 10)
    let q := (symbol 10).orElse (symbol 39)
    let err : ParseError := ⟨.ofList [[39], [10]], 0, ascii "0:0"⟩
    let err' : ParseError := ⟨.singleton [39] ∪ .singleton [10], 0, ascii "0:0"⟩
    let cut : ParseError := ⟨.singleton [0], 0, ascii "0:0"⟩
    p.Refuses (ascii "x") env err ∧ q.Refuses (ascii "yz") env err' ∧ (∀ label ∈ err.expected, 0 ∉ label) ∧
      err.message = err.text ∧ err.text = ascii "expected one of '\\n', '\\'' at 0:0" ∧
      (err.message = err'.message ∧ err.expected = err'.expected ∧ err.position = err'.position) ∧
      (symbol 0).Refuses (ascii "x") env cut ∧ (∃ label ∈ cut.expected, 0 ∈ label) ∧
      cut.message = ascii "expected " ++ cut.expected.render.beforeZero := by
  intro env symbol p q err err' cut
  have h : p.Refuses (ascii "x") env err := .inl (by decide)
  have h' : q.Refuses (ascii "yz") env err' := .inr (by decide)
  have hcut : (symbol 0).Refuses (ascii "x") env cut := .inl (by decide)
  have hlabels : ∀ label ∈ err.expected, 0 ∉ label := by
    show ∀ label ∈ err.expected.toList, 0 ∉ label
    decide
  have hzero : ∃ label ∈ cut.expected, 0 ∈ label := ⟨[0], Labels.mem_singleton.2 rfl, by decide⟩
  have hmessage : err.message = err'.message := by decide
  obtain ⟨-, -, whole, -, unique⟩ := message_complete p h
  obtain ⟨-, -, -, ends, -⟩ := message_complete (symbol 0) hcut
  exact ⟨h, h', hlabels, whole.2 hlabels, by decide, ⟨hmessage, unique hlabels q _ env err' h' hmessage⟩, hcut, hzero,
    ends hzero⟩

/-- A zero byte is expected, a literal that starts with one, and a zero byte at another place: the errors have the same
message, which breaks off at the zero byte. -/
theorem message_ends_at_zero_byte :
    let env : Env Unit := ⟨.ofLevel .off, ()⟩
    let err : ParseError := ⟨.singleton [0], 0, ascii "0:0"⟩
    let other : ParseError := ⟨.singleton [0, 97], 0, ascii "0:0"⟩
    let later : ParseError := ⟨.singleton [0], 1, ascii "0:1"⟩
    (Parser.symbol 0).Refuses (ascii "x") env err ∧ (Parser.str [0, 97]).Refuses (ascii "x") env other ∧
      ((Parser.symbol 120).andThen (.symbol 0)).Refuses (ascii "xy") env later ∧
      err.message = ascii "expected '" ∧ err.message ≠ err.text ∧
      (err.message = other.message ∧ err.expected ≠ other.expected) ∧
      err.message = later.message ∧ err.position ≠ later.position :=
  ⟨.inl (by decide), .inl (by decide), .inl (by decide), by decide, by decide, ⟨by decide, by decide⟩, by decide,
    by decide⟩

end Furthest
