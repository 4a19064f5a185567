import Mathlib.Data.List.Induction
import Mathlib.Data.Prod.Lex
import Mathlib.Order.Monotone.Basic
import Furthest.Proofs.CursorBounds

/-!
# Places determine indexes

A place is read off the part of a text before an index: its line feeds are counted, and the column is what comes after
the last of them (`lastLineStart_eq`). A reader goes the other way: `LineColumn.lineStart` finds where a line starts, by
going through the text, and a column is counted from there (`lineStart_locate`). Places grow with their indexes, in the
order in which a text is read (`strictMono_locate`), and the numbers of a place can be told from its text
(`render_injective`).

Main statement: `locate_exact`.
-/

namespace Furthest

variable {σ ι α : Type}

/-! ## Numerals -/

theorem toNat_of_mem_toDigits {n : Nat} {c : Char} (h : c ∈ Nat.toDigits 10 n) : 48 ≤ c.toNat ∧ c.toNat ≤ 57 := by
  have hdigit := Nat.isDigit_of_mem_toDigits (by decide) (by decide) h
  simp only [Char.isDigit, Bool.and_eq_true, decide_eq_true_eq] at hdigit
  have hge : 48 ≤ c.toNat := hdigit.1
  have hle : c.toNat ≤ 57 := hdigit.2
  exact ⟨hge, hle⟩

/-- The byte of a digit has the code of the digit. -/
theorem toNat_ofNat_of_mem_toDigits {n : Nat} {c : Char} (h : c ∈ Nat.toDigits 10 n) :
    (UInt8.ofNat c.toNat).toNat = c.toNat :=
  UInt8.toNat_ofNat_of_lt' (Nat.lt_of_le_of_lt (toNat_of_mem_toDigits h).2 (by decide))

/-- Numerals are written with digits. -/
theorem toNat_of_mem_decimal {n : Nat} {b : UInt8} (h : b ∈ decimal n) : 48 ≤ b.toNat ∧ b.toNat ≤ 57 := by
  obtain ⟨c, hc, rfl⟩ := List.mem_map.1 h
  rw [toNat_ofNat_of_mem_toDigits hc]
  exact toNat_of_mem_toDigits hc

theorem not_mem_decimal {b : UInt8} (h : b.toNat < 48 ∨ 57 < b.toNat) (n : Nat) : b ∉ decimal n := fun hb => by
  have hdigit := toNat_of_mem_decimal hb
  omega

/-- A number can be told from its numeral. -/
theorem decimal_injective : Function.Injective decimal := by
  have hread (n : Nat) : (decimal n).map (fun b => Char.ofNat b.toNat) = Nat.toDigits 10 n := by
    rw [decimal, List.map_map]
    refine (List.map_congr_left fun c hc => ?_).trans (List.map_id _)
    simp only [Function.comp_apply, toNat_ofNat_of_mem_toDigits hc, Char.ofNat_toNat, id]
  intro m n h
  calc
    m = Nat.ofDigitChars 10 (Nat.toDigits 10 m) 0 := Nat.ofDigitChars_ten_toDigits.symm
    _ = Nat.ofDigitChars 10 (Nat.toDigits 10 n) 0 := by rw [← hread, ← hread, h]
    _ = n := Nat.ofDigitChars_ten_toDigits

namespace LineColumn

variable {text : Bytes}

/-- The byte between line and column. -/
def colon : UInt8 := 58

theorem colon_not_mem_decimal (n : Nat) : colon ∉ decimal n := not_mem_decimal (.inr (by decide)) n

/-- The line ends at the colon. -/
theorem render_injective : Function.Injective render := by
  intro p q h
  simp only [render, List.append_assoc] at h
  have hcolon : decimal p.line ++ colon :: decimal p.column = decimal q.line ++ colon :: decimal q.column := h
  obtain ⟨hline, -, hcolumn⟩ :=
    (List.append_cons_inj_of_notMem (colon_not_mem_decimal _) (colon_not_mem_decimal _)).1 hcolon
  cases p
  cases q
  exact congrArg₂ mk (decimal_injective hline) (decimal_injective hcolumn)

/-! ## Lines -/

/-- A last line starts after a line feed that none follows, or at zero if there is none. -/
theorem lastLineStart_eq (text : Bytes) :
    Bytes.newline ∉ text ∧ lastLineStart text = 0 ∨
      ∃ before after, text = before ++ Bytes.newline :: after ∧ Bytes.newline ∉ after ∧
        lastLineStart text = before.length + 1 := by
  induction text using List.reverseRecOn with
  | nil => exact .inl ⟨List.not_mem_nil, rfl⟩
  | append_singleton text b ih =>
    by_cases hb : b = Bytes.newline
    · subst hb
      exact .inr ⟨text, [], rfl, List.not_mem_nil, lastLineStart_append_newline text⟩
    · rw [lastLineStart_append_of_ne hb]
      rcases ih with ⟨hnone, hstart⟩ | ⟨before, after, rfl, hnone, hstart⟩
      · exact .inl ⟨by simp [hnone, Ne.symm hb], hstart⟩
      · exact .inr ⟨before, after ++ [b], by simp, by simp [hnone, Ne.symm hb], hstart⟩

/-- A column is counted from the beginning, or from after the last line feed before the index. -/
theorem column_locate (text : Bytes) (i : Nat) :
    Bytes.newline ∉ text.take i ∧ (locate text i).column = i ∨
      ∃ p < i, text[p]? = some Bytes.newline ∧ Bytes.newline ∉ (text.take i).drop (p + 1) ∧
        (locate text i).column + (p + 1) = i := by
  rcases lastLineStart_eq (text.take i) with ⟨hnone, hstart⟩ | ⟨before, after, htake, hnone, hstart⟩
  · exact .inl ⟨hnone, by rw [locate, hstart, Nat.sub_zero]⟩
  · have hlen := congrArg List.length htake
    simp only [List.length_take, List.length_append, List.length_cons] at hlen
    have hlt : before.length < i := by omega
    refine .inr ⟨before.length, hlt, ?_, ?_, ?_⟩
    · rw [← List.getElem?_take_of_lt hlt, htake]
      simp
    · rw [htake]
      simpa using hnone
    · rw [locate, hstart]
      exact Nat.sub_add_cancel hlt

/-- Where a line of a text starts: at the beginning, or after as many line feeds as there are lines before it. -/
def lineStart : Bytes → Nat → Nat
  | _, 0 => 0
  | [], _ + 1 => 0
  | b :: text, line + 1 => if b = Bytes.newline then lineStart text line + 1 else lineStart text (line + 1) + 1

/-- After a line feed, a line starts. -/
theorem lineStart_count (before after : Bytes) :
    lineStart (before ++ Bytes.newline :: after) (before.count Bytes.newline + 1) = before.length + 1 := by
  induction before with
  | nil => simp [lineStart]
  | cons b before ih =>
    by_cases hb : b = Bytes.newline
    · simp [lineStart, hb, ih]
    · simp [lineStart, hb, ih]

/-- An index is the start of its line and the column, added. -/
theorem lineStart_locate (text : Bytes) (i : Nat) :
    lineStart text (locate text i).line + (locate text i).column = i := by
  induction i with
  | zero => simp only [locate_zero, lineStart]
  | succ i ih =>
    rcases Nat.lt_or_ge i text.length with h | h
    · rw [locate_succ h]
      split
      · next hb =>
        have htext : text.take i ++ Bytes.newline :: text.drop (i + 1) = text := by
          rw [← hb, List.getElem_cons_drop, List.take_append_drop]
        have hstart := lineStart_count (text.take i) (text.drop (i + 1))
        rw [htext, List.length_take_of_le (Nat.le_of_lt h)] at hstart
        exact hstart
      · rw [← Nat.add_assoc, ih]
    · rw [locate_succ_of_length_le h, ← Nat.add_assoc, ih]

/-- Further indexes have further places: on a later line, or on the same line in a later column. -/
theorem strictMono_locate (text : Bytes) :
    StrictMono fun i => toLex ((locate text i).line, (locate text i).column) := by
  refine strictMono_nat_of_lt_succ fun i => Prod.Lex.toLex_lt_toLex.2 ?_
  rcases Nat.lt_or_ge i text.length with h | h
  · rw [locate_succ h]
    split
    · exact .inl (Nat.lt_succ_self _)
    · exact .inr ⟨rfl, Nat.lt_succ_self _⟩
  · rw [locate_succ_of_length_le h]
    exact .inr ⟨rfl, Nat.lt_succ_self _⟩

end LineColumn

/-! ## Places of errors -/

/-- An entry point ends with an error. -/
def Parser.Refuses [Item ι] (p : Parser σ ι α) (xs : List ι) (env : Env σ) (err : ParseError) : Prop :=
  (p.parse xs).outcome env = .ok (.error err) ∨ (p.parsePartial xs).outcome env = .ok (.error err)

namespace Parser

theorem eq_ofRecord_of_wholeOf [Item ι] {xs : List ι} {o : Result α} {err : ParseError}
    (h : wholeOf xs o = .error err) : ∃ r, err = .ofRecord xs r := by
  cases o with
  | failure c r => exact ⟨r, (Except.error.inj h).symm⟩
  | success v n r =>
    simp only [wholeOf] at h
    split at h
    · cases h
    · exact ⟨_, (Except.error.inj h).symm⟩

theorem eq_ofRecord_of_partOf [Item ι] {xs : List ι} {o : Result α} {err : ParseError}
    (h : partOf xs o = .error err) : ∃ r, err = .ofRecord xs r := by
  cases o with
  | failure c r => exact ⟨r, (Except.error.inj h).symm⟩
  | success v n r => cases h

/-- The error of an entry point is made of a record. -/
theorem Refuses.eq_ofRecord [Item ι] {p : Parser σ ι α} {xs : List ι} {env : Env σ} {err : ParseError}
    (h : p.Refuses xs env err) : ∃ r, err = .ofRecord xs r := by
  rcases h with h | h
  · rw [parse_eq, Run.outcome_bind_pure] at h
    rcases ho : (p xs 0).outcome env with cause | o <;> rw [ho] at h
    · cases h
    · exact eq_ofRecord_of_wholeOf (Except.ok.inj h)
  · rw [parsePartial_eq, Run.outcome_bind_pure] at h
    rcases ho : (p xs 0).outcome env with cause | o <;> rw [ho] at h
    · cases h
    · exact eq_ofRecord_of_partOf (Except.ok.inj h)

/-- The error of an entry point tells the place of its index. -/
theorem Refuses.position_eq [Item ι] {p : Parser σ ι α} {xs : List ι} {env : Env σ} {err : ParseError}
    (h : p.Refuses xs env err) : err.position = Item.describe xs err.index := by
  obtain ⟨r, rfl⟩ := h.eq_ofRecord
  rfl

end Parser

/-! ## Main statement -/

open LineColumn in
/-- The place of an index is found by going through the text: it starts at line zero and column zero, a line feed starts
a line, any other byte ends a column, and past the end each index is one column further. A column is what is left of the
index after the last line feed before it, so nothing is taken from less. Places grow with their indexes; an index is the
start of its line and the column; and the places of two errors for one text are the same only if their indexes are. -/
theorem locate_exact (text : Bytes) :
    locate text 0 = ⟨0, 0⟩ ∧
    (∀ i, (h : i < text.length) → locate text (i + 1) =
      if text[i] = Bytes.newline then ⟨(locate text i).line + 1, 0⟩
      else ⟨(locate text i).line, (locate text i).column + 1⟩) ∧
    (∀ i, text.length ≤ i → locate text (i + 1) = ⟨(locate text i).line, (locate text i).column + 1⟩) ∧
    (∀ i, Bytes.newline ∉ text.take i ∧ (locate text i).column = i ∨
      ∃ p < i, text[p]? = some Bytes.newline ∧ Bytes.newline ∉ (text.take i).drop (p + 1) ∧
        (locate text i).column + (p + 1) = i) ∧
    (StrictMono fun i => toLex ((locate text i).line, (locate text i).column)) ∧
    (∀ i, lineStart text (locate text i).line + (locate text i).column = i) ∧
    ∀ {σ τ α β : Type} (p : Parser σ UInt8 α) (q : Parser τ UInt8 β) (env : Env σ) (env' : Env τ)
      (err err' : ParseError), p.Refuses text env err → q.Refuses text env' err' →
      err.position = (locate text err.index).render ∧
      (err.position = err'.position ↔ err.index = err'.index) := by
  refine ⟨locate_zero text, fun i h => locate_succ h, fun i h => locate_succ_of_length_le h, column_locate text,
    strictMono_locate text, lineStart_locate text, ?_⟩
  intro σ τ α β p q env env' err err' h h'
  have hposition : err.position = (locate text err.index).render := h.position_eq
  have hposition' : err'.position = (locate text err'.index).render := h'.position_eq
  refine ⟨hposition, fun heq => ?_, fun hindex => by rw [hposition, hposition', hindex]⟩
  rw [hposition, hposition'] at heq
  have hlocate := render_injective heq
  exact (strictMono_locate text).injective (by simp only [hlocate])

/-- Two line feeds in a row, and an error of each entry point after them. -/
theorem locate_exact_of_blank_line :
    let text : Bytes := ascii "a\n\nb"
    let env : Env Unit := ⟨.ofLevel .off, ()⟩
    let before : Parser Unit UInt8 Bytes := .str (ascii "a\n\n")
    let err : ParseError := ⟨.singleton (ascii "x"), 3, ascii "2:0"⟩
    let err' : ParseError := ⟨.singleton (ascii "a digit"), 3, ascii "2:0"⟩
    (before.andThen (.symbol 120)).Refuses text env err ∧ (before.andThen .digit).Refuses text env err' ∧
      LineColumn.locate text 2 = ⟨(LineColumn.locate text 1).line + 1, 0⟩ ∧
      LineColumn.locate text 5 = ⟨(LineColumn.locate text 4).line, (LineColumn.locate text 4).column + 1⟩ ∧
      err.position = err'.position ∧ err.index = err'.index := by
  intro text env before err err'
  have h : (before.andThen (.symbol 120)).Refuses text env err := .inl (by decide)
  have h' : (before.andThen .digit).Refuses text env err' := .inr (by decide)
  obtain ⟨-, step, beyond, -, -, -, places⟩ := locate_exact text
  obtain ⟨-, hiff⟩ := places _ _ env env err err' h h'
  exact ⟨h, h', step 1 (by decide), beyond 4 (by decide), rfl, hiff.1 rfl⟩

end Furthest
