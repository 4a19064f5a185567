import Furthest.Proofs.Readings

/-!
# Records behind their lengths

A record is a text of at most nine bytes behind its length, a single digit. The parser of a record is computed from the
digit that was read, and takes as many bytes, whatever they are: digits among them are no lengths. Any input is that of
some records and a rest in which no record begins: either there is no digit, or fewer bytes follow than it counts
(`exists_records`). A repetition reads the records (`ReadsRecords.many_matches`).

A record that is cut short is no part of the list, and so the repetition ends before it. But its failure, at the end of
the input, lies deeper than that of the end that was expected instead, and is the one that is reported.

Main statement: `many_lengthPrefixed_parse_iff_records`.
-/

namespace Furthest

variable {σ α β : Type}

/-! ## Texts of records -/

/-- A text behind its length. -/
def prefixed (w : Bytes) : Bytes := decimal w.length ++ w

/-- The digit of a number below ten. -/
def lengthDigit (n : Nat) : UInt8 := .ofNat (48 + n)

section Digit

variable {n : Nat} (hn : n ≤ 9)
include hn

theorem decimal_eq_lengthDigit : decimal n = [lengthDigit n] := by decide +revert

theorem accepts_lengthDigit : ItemClass.digit.accepts (lengthDigit n) := by decide +revert

theorem toNat_lengthDigit : (lengthDigit n).toNat - 48 = n := by decide +revert

theorem count?_lengthDigit : (Value.char (lengthDigit n)).count? = .ok n := by
  have hcount : Value.toCount (Value.digitCode (lengthDigit n)) = n := by decide +revert
  exact congrArg Except.ok hcount

end Digit

theorem exists_eq_lengthDigit {b : UInt8} (h : ItemClass.digit.accepts b) : ∃ n ≤ 9, b = lengthDigit n := by
  simp only [ItemClass.digit, Bool.and_eq_true, decide_eq_true_eq, UInt8.le_iff_toNat_le] at h
  have hfrom : 48 ≤ b.toNat := h.1
  have hto : b.toNat ≤ 57 := h.2
  refine ⟨b.toNat - 48, by omega, ?_⟩
  rw [lengthDigit, Nat.add_sub_cancel' hfrom, UInt8.ofNat_toNat]

/-- A text is that of records, each of which has a length of a single digit. -/
structure Records (text : Bytes) (ws : List Bytes) : Prop where
  short : ∀ w ∈ ws, w.length ≤ 9
  text : text = ws.flatMap prefixed

instance (text : Bytes) (ws : List Bytes) : Decidable (Records text ws) :=
  decidable_of_iff ((∀ w ∈ ws, w.length ≤ 9) ∧ text = ws.flatMap prefixed) ⟨fun h => ⟨h.1, h.2⟩, fun h => ⟨h.1, h.2⟩⟩

/-- A record is cut short: a digit is followed by fewer bytes than it counts. -/
structure CutShort (text : Bytes) (n : Nat) (cut : Bytes) : Prop where
  le_nine : n ≤ 9
  lt : cut.length < n
  text : text = decimal n ++ cut

/-- Records end before a rest: no digit follows, or a record that is cut short. -/
structure RecordsEnd (ws : List Bytes) (rest : Bytes) : Prop where
  short : ∀ w ∈ ws, w.length ≤ 9
  stops : (∀ b ∈ rest.head?, ¬ItemClass.digit.accepts b) ∨ ∃ n cut, CutShort rest n cut

theorem RecordsEnd.cons {w rest : Bytes} {ws : List Bytes} (hw : w.length ≤ 9) (h : RecordsEnd ws rest) :
    RecordsEnd (w :: ws) rest :=
  ⟨List.forall_mem_cons.2 ⟨hw, h.short⟩, h.stops⟩

/-- Every text begins with some records, and they end. -/
theorem exists_records (text : Bytes) : ∃ ws rest, text = ws.flatMap prefixed ++ rest ∧ RecordsEnd ws rest := by
  induction hlen : text.length using Nat.strong_induction_on generalizing text with
  | _ k ih =>
    by_cases hdigit : ∀ b ∈ text.head?, ¬ItemClass.digit.accepts b
    · exact ⟨[], text, rfl, nofun, .inl hdigit⟩
    push Not at hdigit
    obtain ⟨b, hb, hdigit⟩ := hdigit
    obtain ⟨t, rfl⟩ := List.head?_eq_some_iff.1 hb
    obtain ⟨n, hn, rfl⟩ := exists_eq_lengthDigit hdigit
    -- A record is cut short, or whole, and then the induction goes on after it.
    by_cases hcut : t.length < n
    · exact ⟨[], _, rfl, nofun, .inr ⟨n, t, hn, hcut, by rw [decimal_eq_lengthDigit hn]; rfl⟩⟩
    · have htake : (t.take n).length = n := by rw [List.length_take]; omega
      rw [List.length_cons] at hlen
      obtain ⟨ws, rest, hrest, hends⟩ := ih (t.drop n).length (by rw [List.length_drop]; omega) (t.drop n) rfl
      refine ⟨t.take n :: ws, rest, ?_, hends.cons (by omega)⟩
      rw [List.flatMap_cons, List.append_assoc, ← hrest, prefixed, htake, decimal_eq_lengthDigit hn]
      simp

theorem records_iff {text : Bytes} {ws : List Bytes} :
    Records text ws ↔ text = ws.flatMap prefixed ∧ RecordsEnd ws [] :=
  ⟨fun h => ⟨h.text, h.short, .inl nofun⟩, fun h => ⟨h.2.short, h.1⟩⟩

/-! ## Parsers of records -/

namespace Parser

/-- The failure of a record that is cut short. -/
def cutRecord (xs : Bytes) : Record := .raised xs.length (.singleton (ascii "any character"))

/-- The parser takes as many bytes as were counted, and fails at the end of the input if there are fewer. -/
structure ReadsCount (p : Parser σ UInt8 α) (n : Nat) (xs : Bytes) (value : Bytes → α) : Prop where
  reads {i : Nat} {w rest : Bytes} (h : xs.drop i = w ++ rest) (hw : w.length = n) : p.Matches xs i (value w) (i + n) ∅
  fails {i : Nat} (hi : i ≤ xs.length) (h : (xs.drop i).length < n) : p.Fails xs i (cutRecord xs)

/-- The parser reads a record, and fails where none begins or where it is cut short. -/
structure ReadsRecords (p : Parser σ UInt8 α) (xs : Bytes) (value : Bytes → α) : Prop where
  reads {i : Nat} {w rest : Bytes} (h : xs.drop i = prefixed w ++ rest) (hw : w.length ≤ 9) :
    p.Matches xs i (value w) (i + (prefixed w).length) ∅
  fails {i : Nat} (h : ∀ b ∈ (xs.drop i).head?, ¬ItemClass.digit.accepts b) : ∃ f, p.Fails xs i f
  fails_cut {i n : Nat} {cut : Bytes} (h : CutShort (xs.drop i) n cut) : p.Fails xs i (cutRecord xs)

section Count

variable {xs w rest : Bytes} {i n : Nat}

theorem reads_characters (h : xs.drop i = w ++ rest) :
    (character : Parser σ UInt8 UInt8).Reads xs i ∅ w (i + w.length) ∅ := reads_satisfy h fun _ _ => rfl

theorem fails_character_at_end (xs : Bytes) : (character : Parser σ UInt8 UInt8).Fails xs xs.length (cutRecord xs) :=
  fails_satisfy (c := .character) (by simp)

theorem readsCount_character (n : Nat) (xs : Bytes) :
    ((character : Parser σ UInt8 UInt8).times (.exactly n)).ReadsCount n xs id where
  reads h hw := hw ▸ (reads_characters h).times_exactly
  fails {i} hi h := by
    have hreads := reads_characters (σ := σ) (List.append_nil (xs.drop i)).symm
    rw [List.length_drop, Nat.add_sub_cancel' hi] at hreads
    exact hreads.times_exactly_fails (fails_character_at_end xs) h

theorem readsCount_characters (n : Nat) (xs : Bytes) :
    (((((character : Parser σ UInt8 UInt8).map Value.char).times (.exactly n)).map .list).tryMap Value.joined).ReadsCount
      n xs .string where
  reads {i w rest} h hw := by
    have hreads := ((reads_characters (σ := σ) h).map Value.char).times_exactly
    rw [List.length_map, hw] at hreads
    exact (hreads.map Value.list).tryMap (Value.joined_chars w)
  fails {i} hi h := by
    have hreads := (reads_characters (σ := σ) (List.append_nil (xs.drop i)).symm).map Value.char
    rw [List.length_drop, Nat.add_sub_cancel' hi] at hreads
    have hlen : ((xs.drop i).map Value.char).length < n := (List.length_map _).trans_lt h
    exact ((hreads.times_exactly_fails ((fails_character_at_end xs).map _) hlen).map Value.list).tryMap Value.joined

end Count

section Record

variable {xs rest : Bytes} {ws : List Bytes} {value : Bytes → α} {i n : Nat}

/-- The parser reads a digit, and fails where there is none. -/
structure ReadsDigit (q : Parser σ UInt8 β) (xs : Bytes) (digitValue : UInt8 → β) : Prop where
  reads {i : Nat} {b : UInt8} {rest : Bytes} (h : xs.drop i = b :: rest) (hb : ItemClass.digit.accepts b) :
    q.Matches xs i (digitValue b) (i + 1) ∅
  fails {i : Nat} (h : ∀ b ∈ (xs.drop i).head?, ¬ItemClass.digit.accepts b) : ∃ f, q.Fails xs i f

theorem readsDigit_digit (xs : Bytes) : (digit : Parser σ UInt8 UInt8).ReadsDigit xs id where
  reads h hb := matches_satisfy h hb
  fails h := ⟨_, fails_satisfy h⟩

theorem ReadsDigit.map {q : Parser σ UInt8 UInt8} (hq : q.ReadsDigit xs id) (f : UInt8 → β) :
    (q.map f).ReadsDigit xs f where
  reads h hb := (hq.reads h hb).map f
  fails h := by
    obtain ⟨r, hr⟩ := hq.fails h
    exact ⟨r, hr.map f⟩

/-- A record is read by a digit, and the parser of as many bytes as that counts. -/
theorem ReadsDigit.readsRecords {q : Parser σ UInt8 β} {go : β → Parser σ UInt8 α} {digitValue : UInt8 → β}
    (hq : q.ReadsDigit xs digitValue) (hgo : ∀ n ≤ 9, (go (digitValue (lengthDigit n))).ReadsCount n xs value) :
    (q.bind go).ReadsRecords xs value where
  reads {i w rest} h hw := by
    rw [prefixed, decimal_eq_lengthDigit hw, List.singleton_append] at h ⊢
    have hmatch := (hgo w.length hw).reads (drop_succ_of_cons h) rfl
    rw [List.length_cons, Nat.add_comm w.length, ← Nat.add_assoc]
    exact (hq.reads h (accepts_lengthDigit hw)).bindTo hmatch
  fails h := by
    obtain ⟨f, hf⟩ := hq.fails h
    exact ⟨f, hf.bindTo go⟩
  fails_cut {i n cut} h := by
    have hdrop := h.text
    rw [decimal_eq_lengthDigit h.le_nine, List.singleton_append] at hdrop
    have hafter := drop_succ_of_cons hdrop
    have hlen := congrArg List.length hdrop
    rw [List.length_drop, List.length_cons] at hlen
    have hfails := (hgo n h.le_nine).fails (i := i + 1) (by omega) (hafter ▸ h.lt)
    exact (hq.reads hdrop (accepts_lengthDigit h.le_nine)).bindTo_fails hfails

section Many

variable {p : Parser σ UInt8 α} (hp : p.ReadsRecords xs value)
include hp

/-- Records are read one by one. -/
theorem ReadsRecords.reads_all (h : xs.drop i = ws.flatMap prefixed ++ rest) (hws : ∀ w ∈ ws, w.length ≤ 9) :
    p.Reads xs i ∅ (ws.map value) (i + (ws.flatMap prefixed).length) ∅ := by
  induction ws generalizing i with
  | nil => exact .nil i ∅
  | cons w ws ih =>
    obtain ⟨hw, hws⟩ := List.forall_mem_cons.1 hws
    rw [List.flatMap_cons, List.append_assoc] at h
    rw [List.flatMap_cons, List.length_append, ← Nat.add_assoc]
    have hpos : 0 < (prefixed w).length := by simp [prefixed, decimal_eq_lengthDigit hw]
    exact .cons (hp.reads h hw) (by omega) (ih (drop_add_length h) hws)

/-- A repetition reads the records up to where the parser fails. -/
theorem ReadsRecords.many_matches (hxs : xs.length < unbounded) (h : xs = ws.flatMap prefixed ++ rest)
    (hws : ∀ w ∈ ws, w.length ≤ 9) {f : Record} (hf : p.Fails xs (ws.flatMap prefixed).length f) :
    p.many.Matches xs 0 (ws.map value) (ws.flatMap prefixed).length f := by
  have hreads := hp.reads_all (i := 0) h hws
  rw [Nat.zero_add] at hreads
  have hcount := hreads.add_length_le
  have hlen := congrArg List.length h
  rw [List.length_append] at hlen
  exact hreads.many hf (by omega)

theorem ReadsRecords.many_matches_cut (hxs : xs.length < unbounded) (h : xs = ws.flatMap prefixed ++ rest)
    (hws : ∀ w ∈ ws, w.length ≤ 9) {cut : Bytes} (hcut : CutShort rest n cut) :
    p.many.Matches xs 0 (ws.map value) (ws.flatMap prefixed).length (cutRecord xs) := by
  have hrest : xs.drop (ws.flatMap prefixed).length = rest := by rw [h, List.drop_left]
  exact hp.many_matches hxs h hws (hp.fails_cut (hrest.symm ▸ hcut))

/-- A repetition takes the records with which the input begins. -/
theorem ReadsRecords.many_takes (hxs : xs.length < unbounded) :
    p.many.Takes xs (·.flatMap prefixed) RecordsEnd (·.map value) := fun ws rest h hends => by
  rcases hends.stops with hdigit | ⟨n, cut, hcut⟩
  · have hrest : xs.drop (ws.flatMap prefixed).length = rest := by rw [h, List.drop_left]
    obtain ⟨f, hf⟩ := hp.fails (i := (ws.flatMap prefixed).length) (by rwa [hrest])
    exact ⟨f, hp.many_matches hxs h hends.short hf⟩
  · exact ⟨_, hp.many_matches_cut hxs h hends.short hcut⟩

end Many

/-- The error for a record that is cut short: any character was expected at the end of the input. -/
def cutError (xs : Bytes) : ParseError :=
  ⟨.singleton (ascii "any character"), xs.length, (LineColumn.locate xs xs.length).render⟩

/-- A record that is cut short is reported instead of the end of the input that was expected before it. -/
theorem Matches.parse_cut {p : Parser σ UInt8 α} {v : α} (hp : p.Matches xs 0 v n (cutRecord xs)) (hn : n < xs.length) :
    (p.parse xs).Ends (.error (cutError xs)) := by
  have hparse := hp.parse_rest (Nat.ne_of_lt hn)
  rwa [cutRecord, Record.raised_merge_of_lt hn] at hparse

end Record

/-! ## The parser of a record -/

/-- A text behind its length. The list of its bytes is the text. -/
def lengthPrefixed : Parser σ UInt8 Bytes := digit.bind fun b => character.times (.exactly (b.toNat - 48))

theorem readsRecords_lengthPrefixed (xs : Bytes) : (lengthPrefixed : Parser σ UInt8 Bytes).ReadsRecords xs id :=
  (readsDigit_digit xs).readsRecords fun n hn => by
    rw [id, toNat_lengthDigit hn]
    exact readsCount_character n xs

end Parser

namespace Grammar

/-- The description of a number of bytes, joined to a text. -/
def characters (n : Nat) : Grammar .bytes := .concat (.times (.one .character) (.ok (.exactly n)))

/-- The description of as many bytes as a value counts, joined to a text. -/
def counted (v : Value) : Grammar .bytes := .concat (.repeated (.one .character) none v)

/-- The description of a text behind its length. -/
def lengthPrefixed : Grammar .bytes := .bind (.one .digit) counted

theorem build_many_lengthPrefixed : (many lengthPrefixed).build = pure (many lengthPrefixed) := rfl

/-- After a digit, as many characters are described as it counts. -/
theorem build_counted {n : Nat} (hn : n ≤ 9) :
    (counted (.char (lengthDigit n))).build = pure (characters n) := by
  have hbounds : Bounds.of .times n n = .ok (.exactly n) := dif_pos (Nat.le_refl n)
  rw [counted, repeated, count?_lengthDigit hn]
  show build (a := .bytes) (.concat (.times (.one .character) (Bounds.of .times n n))) = _
  rw [hbounds]
  rfl

theorem readsRecords_lengthPrefixed (limit : Nat) (xs : Bytes) :
    (parserBy (parserWithin (limit + 1)) lengthPrefixed).ReadsRecords xs .string :=
  ((Parser.readsDigit_digit xs).map Value.char).readsRecords fun n hn => by
    have hentered : entering (parserWithin (limit + 1)) (counted (.char (lengthDigit n))).build =
        parserWithin (limit + 1) (characters n) := by
      funext xs i
      rw [entering, build_counted hn, pure_bind]
    rw [hentered]
    exact Parser.readsCount_characters n xs

end Grammar

/-! ## Main statement -/

/-- A session repeats the parser of a described record. -/
theorem Grammar.exists_parse_many_lengthPrefixed (xs : Bytes) :
    ∃ p : Meaning .bytes, Parser.ReadsRecords p xs .string ∧
      Session.parse (.many lengthPrefixed) xs = Parser.parse (Parser.map (Parser.many p) .list) xs := by
  obtain ⟨limit, hparser⟩ := exists_parser_eq (many lengthPrefixed)
  refine ⟨_, readsRecords_lengthPrefixed limit xs, ?_⟩
  rw [Session.parse, build_many_lengthPrefixed, pure_bind, hparser]
  rfl

/-- From any input, repeated records are parsed exactly if the input is that of some records, each a text of at most nine
bytes behind its length. All other inputs are rejected. If the input is that of some records and of one that is cut short,
the error is at the end of the input, where any character was expected. The described parser yields the records as a list
of texts, and rejects with the same error. -/
theorem many_lengthPrefixed_parse_iff_records {xs : Bytes} (hxs : xs.length < unbounded) (env : Env σ)
    (env' : Env (Store .bytes)) :
    let parsed := (Parser.lengthPrefixed.many.parse xs).outcome env
    let described := (Session.parse (.many .lengthPrefixed) xs).outcome env'
    (∀ ws, parsed = .ok (.ok ws) ↔ Records xs ws) ∧
      (∀ v, described = .ok (.ok v) ↔ ∃ ws, Records xs ws ∧ v = .list (ws.map .string)) ∧
      ((∀ ws, ¬Records xs ws) → (∃ e, parsed = .ok (.error e)) ∧ ∃ e, described = .ok (.error e)) ∧
      (∀ ws text n cut, Records text ws → n ≤ 9 → cut.length < n → xs = text ++ (decimal n ++ cut) →
        parsed = .ok (.error (Parser.cutError xs)) ∧ described = .ok (.error (Parser.cutError xs))) := by
  intro parsed described
  have hp := Parser.readsRecords_lengthPrefixed (σ := σ) xs
  obtain ⟨p, hq, hsession⟩ := Grammar.exists_parse_many_lengthPrefixed xs
  have htakes := hp.many_takes hxs
  simp only [List.map_id] at htakes
  have hparse := htakes.decodes (exists_records xs) fun _ => records_iff
  have hdescribed := ((hq.many_takes hxs).map Value.list).decodes (exists_records xs) fun _ => records_iff
  rw [← hsession] at hdescribed
  refine ⟨fun ws => hparse.eq_ok_iff_encoded env, fun v => hdescribed.eq_ok_iff env', fun hnone => ?_,
    fun ws text n cut htext hn hlt hcut => ?_⟩
  · exact ⟨hparse.exists_error env hnone, hdescribed.exists_error env' hnone⟩
  · obtain ⟨hshort, rfl⟩ := htext
    have hcut' : CutShort (decimal n ++ cut) n cut := ⟨hn, hlt, rfl⟩
    have hlen := congrArg List.length hcut
    rw [List.length_append, List.length_append, decimal_eq_lengthDigit hn, List.length_singleton] at hlen
    refine ⟨(hp.many_matches_cut hxs hcut hshort hcut').parse_cut (by omega) env, ?_⟩
    have hends := ((hq.many_matches_cut hxs hcut hshort hcut').map Value.list).parse_cut (by omega)
    rw [← hsession] at hends
    exact hends env'

/-- Digits within a record are no lengths. A last record that is cut short is reported where its bytes are missing. -/
theorem many_lengthPrefixed_parse_iff_records_of_digits :
    let whole := ascii "23410"
    let cut := ascii "2343a"
    let env : Env Unit := ⟨.ofLevel .off, ()⟩
    let parse := fun text : Bytes => (Parser.lengthPrefixed.many.parse text).outcome env
    whole.length < unbounded ∧ parse whole = .ok (.ok [ascii "34", ascii "0"]) ∧
      (Session.parse (.many .lengthPrefixed) whole).outcome (Session.initial [] .off) =
        .ok (.ok (.list [.string (ascii "34"), .string (ascii "0")])) ∧
      cut.length < unbounded ∧
      parse cut = .ok (.error ⟨.singleton (ascii "any character"), 5, ascii "0:5"⟩) := by
  intro whole cut env parse
  have hwhole : whole.length < unbounded := by decide
  have hcut : cut.length < unbounded := by decide
  have hrecords : Records whole [ascii "34", ascii "0"] := by decide
  obtain ⟨hparsed, hdescribed, -, -⟩ := many_lengthPrefixed_parse_iff_records hwhole env (Session.initial [] .off)
  obtain ⟨-, -, -, hreported⟩ := many_lengthPrefixed_parse_iff_records hcut env (Session.initial [] .off)
  refine ⟨hwhole, (hparsed _).2 hrecords, (hdescribed _).2 ⟨_, hrecords, rfl⟩, hcut, ?_⟩
  have hfirst : Records (ascii "234") [ascii "34"] := by decide
  have herror : Parser.cutError cut = ⟨.singleton (ascii "any character"), 5, ascii "0:5"⟩ := by decide
  rw [← herror]
  exact (hreported _ _ 3 (ascii "a") hfirst (by decide) (by decide) (by decide)).1

end Furthest
