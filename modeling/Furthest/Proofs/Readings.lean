import Furthest.Proofs.Discipline
import Furthest.Proofs.Outcomes
import Furthest.Session

/-!
# Texts that are read piece by piece

`Parser.Reads` has that a parser matches one piece of the input after the other, each of which consumes something, and
that what was seen is handed along. Where the parser fails after the last piece, a repetition takes all of them
(`Reads.many`), and so does a separated repetition, whose pieces begin with a separator (`Reads.sepBy`). A repetition
with a greatest count takes as many as it counts (`Reads.times_exactly`), and fails if there are fewer.

`Run.Decodes` has that a run ends with what a text encodes, and with an error if it encodes nothing. A parser of whole
inputs does that if it takes what their beginnings encode (`Takes.decodes`).
-/

namespace Furthest

variable {σ ι α β γ : Type}

/-! ## Decoding -/

/-- The run ends with the value of what is encoded, and with an error if nothing is, whatever the environment. -/
structure Run.Decodes (x : Run σ (Except ParseError β)) (encoded : γ → Prop) (value : γ → β) : Prop where
  value {w : γ} (h : encoded w) : x.Ends (.ok (value w))
  error (h : ∀ w, ¬encoded w) : ∃ e, x.Ends (.error e)

namespace Run.Decodes

variable {x : Run σ (Except ParseError β)} {encoded : γ → Prop} {value : γ → β}

theorem eq_ok_iff (h : x.Decodes encoded value) (env : Env σ) {v : β} :
    x.outcome env = .ok (.ok v) ↔ ∃ w, encoded w ∧ v = value w := by
  constructor
  · intro hv
    by_cases hsome : ∃ w, encoded w
    · obtain ⟨w, hw⟩ := hsome
      exact ⟨w, hw, Except.ok.inj ((h.value hw).eq_of_outcome hv)⟩
    · obtain ⟨e, he⟩ := h.error fun w hw => hsome ⟨w, hw⟩
      cases he.eq_of_outcome hv
  · rintro ⟨w, hw, rfl⟩
    exact h.value hw env

theorem eq_ok_iff_encoded {x : Run σ (Except ParseError γ)} (h : x.Decodes encoded id) (env : Env σ) {w : γ} :
    x.outcome env = .ok (.ok w) ↔ encoded w := by
  rw [h.eq_ok_iff env]
  exact ⟨fun ⟨_, hw, heq⟩ => heq ▸ hw, fun hw => ⟨w, hw, rfl⟩⟩

theorem exists_error (h : x.Decodes encoded value) (env : Env σ) (hnone : ∀ w, ¬encoded w) :
    ∃ e, x.outcome env = .ok (.error e) := by
  obtain ⟨e, he⟩ := h.error hnone
  exact ⟨e, he env⟩

end Run.Decodes

namespace Parser

variable {p : Parser σ ι α} {xs : List ι} {i m n : Nat} {v : α} {w : β} {f g r : Record}

/-! ## Values that are computed -/

theorem Matches.tryMap (hp : p.Matches xs i v n f) {h : α → Except Fault β} (hw : h v = .ok w) :
    (p.tryMap h).Matches xs i w n f :=
  hp.bind (.bind (v := w) (fun _ => hw) (.pure _))

theorem Fails.tryMap (hp : p.Fails xs i f) (h : α → Except Fault β) : (p.tryMap h).Fails xs i f := by
  obtain ⟨hf, c, hp⟩ := hp
  obtain ⟨k, hk⟩ := Run.Ends.ofRecord (σ := σ) (α := β) hf
  exact ⟨hf, k, hp.bind hk⟩

section Bind

variable {go : α → Parser σ ι β}

theorem Matches.bindTo (hp : p.Matches xs i v m f) (hq : (go v).Matches xs m w n g) :
    (p.bind go).Matches xs i w n (g.merge f) :=
  hp.bind (hq.bind (.pure _))

theorem Matches.bindTo_fails (hp : p.Matches xs i v m f) (hq : (go v).Fails xs m g) :
    (p.bind go).Fails xs i (g.merge f) := by
  obtain ⟨hg, c, hq⟩ := hq
  exact ⟨by simp [hg], c, hp.bind (hq.bind (.pure _))⟩

theorem Fails.bindTo (hp : p.Fails xs i f) (go : α → Parser σ ι β) : (p.bind go).Fails xs i f := by
  obtain ⟨hf, c, hp⟩ := hp
  obtain ⟨k, hk⟩ := Run.Ends.ofRecord (σ := σ) (α := β) hf
  exact ⟨hf, k, hp.bind hk⟩

end Bind

/-! ## Pieces -/

/-- The parser matches one piece after the other, from a cursor with what was seen before to a cursor with what was
seen then. -/
inductive Reads (p : Parser σ ι α) (xs : List ι) : Nat → Record → List α → Nat → Record → Prop
  | nil (i : Nat) (r : Record) : Reads p xs i r [] i r
  | cons {i m n : Nat} {r f g : Record} {v : α} {vs : List α} (hp : p.Matches xs i v m f) (hm : i < m)
    (hrest : Reads p xs m (f.merge r) vs n g) : Reads p xs i r (v :: vs) n g

namespace Reads

variable {vs : List α}

/-- There are no more pieces than items. -/
theorem add_length_le (h : p.Reads xs i r vs n g) : i + vs.length ≤ n := by
  induction h with
  | nil i r => exact Nat.le_refl i
  | cons hp hm hrest ih =>
    rw [List.length_cons]
    omega

theorem map (h : p.Reads xs i r vs n g) (value : α → β) : (p.map value).Reads xs i r (vs.map value) n g := by
  induction h with
  | nil i r => exact .nil i r
  | cons hp hm hrest ih => exact .cons (hp.map value) hm ih

section Times

variable {isOpen : Bool} {remaining needed : Nat}

/-- A repetition goes on after a match that consumed something, and ends as the rest of it does. -/
theorem timesFrom_next (hp : p.Matches xs i v m f) (hm : i < m) {o : Result (List α)}
    (hrest : (p.timesFrom isOpen xs remaining (needed - 1) m (f.merge r)).Ends o) :
    (p.timesFrom isOpen xs (remaining + 1) needed i r).Ends (o.map (v :: ·)) := by
  have hmoved : m ≠ i := by omega
  refine hp.bind ?_
  simp only [Result.aggregate, hmoved, false_and, if_false]
  exact hrest.bind (.pure _)

/-- Up to where the parser fails, a repetition takes all pieces. -/
theorem timesFrom (h : p.Reads xs i r vs n g) (hp : p.Fails xs n f) (hr : vs.length < remaining)
    (hn : needed ≤ vs.length) : (p.timesFrom isOpen xs remaining needed i r).Ends (.success vs n (f.merge g)) := by
  induction h generalizing remaining needed with
  | nil i r =>
    obtain ⟨remaining, rfl⟩ := Nat.exists_eq_succ_of_ne_zero (Nat.ne_of_gt hr)
    obtain rfl : needed = 0 := Nat.le_zero.1 hn
    exact hp.timesFrom
  | cons hmatch hm hrest ih =>
    obtain ⟨remaining, rfl⟩ := Nat.exists_eq_succ_of_ne_zero (Nat.ne_of_gt (Nat.zero_lt_of_lt hr))
    rw [List.length_cons] at hr hn
    exact timesFrom_next hmatch hm (ih hp (by omega) (by omega))

/-- A repetition of which no more pieces may come has taken all of them. -/
theorem timesFrom_of_full (h : p.Reads xs i r vs n g) :
    (p.timesFrom isOpen xs vs.length needed i r).Ends (.success vs n g) := by
  induction h generalizing needed with
  | nil i r => exact .pure _
  | cons hmatch hm hrest ih => exact timesFrom_next hmatch hm ih

/-- A repetition fails where the parser does, if more pieces are needed than there are. -/
theorem timesFrom_fails (h : p.Reads xs i r vs n g) (hp : p.Fails xs n f) (hn : vs.length < needed)
    (hr : needed ≤ remaining) : ∃ c, (p.timesFrom isOpen xs remaining needed i r).Ends (.failure c (f.merge g)) := by
  induction h generalizing remaining needed with
  | nil i r =>
    obtain ⟨remaining, rfl⟩ := Nat.exists_eq_succ_of_ne_zero (show remaining ≠ 0 by omega)
    exact hp.timesFrom_needed (Nat.ne_of_gt hn)
  | cons hmatch hm hrest ih =>
    obtain ⟨remaining, rfl⟩ := Nat.exists_eq_succ_of_ne_zero (show remaining ≠ 0 by omega)
    rw [List.length_cons] at hn
    obtain ⟨c, hc⟩ := ih hp (show _ < needed - 1 by omega) (show needed - 1 ≤ remaining by omega)
    exact ⟨c, timesFrom_next hmatch hm hc⟩

end Times

theorem many (h : p.Reads xs i ∅ vs n g) (hp : p.Fails xs n f) (hlen : vs.length < unbounded) :
    p.many.Matches xs i vs n (f.merge g) :=
  h.timesFrom hp hlen (Nat.zero_le _)

theorem oneOrMore (h : p.Reads xs i ∅ vs n g) (hp : p.Fails xs n f) (hne : vs ≠ []) (hlen : vs.length < unbounded) :
    p.oneOrMore.Matches xs i vs n (f.merge g) :=
  h.timesFrom hp hlen (List.length_pos_iff.2 hne)

theorem times_exactly (h : p.Reads xs i ∅ vs n g) : (p.times (.exactly vs.length)).Matches xs i vs n g :=
  h.timesFrom_of_full

theorem times_exactly_fails (h : p.Reads xs i ∅ vs n g) (hp : p.Fails xs n f) {count : Nat} (hn : vs.length < count) :
    (p.times (.exactly count)).Fails xs i (f.merge g) := by
  exact ⟨by simp [hp.1], h.timesFrom_fails hp hn (Nat.le_refl count)⟩

end Reads

theorem Fails.oneOrMore (hp : p.Fails xs i f) : p.oneOrMore.Fails xs i f := by
  have hends : ∃ c, (p.timesFrom true xs unbounded 1 i ∅).Ends (.failure c (f.merge ∅)) :=
    (Reads.nil i ∅).timesFrom_fails hp Nat.one_pos (by decide)
  obtain ⟨c, hc⟩ := hends
  rw [Record.merge_empty] at hc
  exact ⟨hp.1, c, hc⟩

/-! ## Separated pieces -/

section SepBy

variable {q : Parser σ ι β} {vs : List α} {s : Record}

theorem Matches.consFrom {rest : Parser σ ι (List α)} (hp : p.Matches xs i v m f) (hrest : rest.Matches xs m vs n g) :
    (p.consFrom rest).Matches xs i (v :: vs) n (g.merge f) :=
  hp.bind (hrest.bind (.pure _))

theorem Fails.consFrom (hp : p.Fails xs i f) (rest : Parser σ ι (List α)) : (p.consFrom rest).Fails xs i f := by
  obtain ⟨hf, c, hp⟩ := hp
  obtain ⟨k, hk⟩ := Run.Ends.ofRecord (σ := σ) (α := List α) hf
  exact ⟨hf, k, hp.bind hk⟩

theorem sepBy_any (p : Parser σ ι α) (q : Parser σ ι β) :
    p.sepBy q .any = fun xs i => do
      match ← p.consFrom (q.andThen p).many xs i with
      | .success vs next r => return .success vs next r
      | .failure _ r => return .success [] i r :=
  sepBy_of_min_eq_zero (b := .any) (by decide) rfl

/-- A separated repetition takes a first value, and all pieces after it that begin with a separator. -/
theorem Reads.sepBy (hp : p.Matches xs i v m f) (h : (q.andThen p).Reads xs m ∅ vs n g)
    (hq : (q.andThen p).Fails xs n s) (hlen : vs.length < unbounded) :
    (p.sepBy q .any).Matches xs i (v :: vs) n ((s.merge g).merge f) := by
  rw [sepBy_any]
  exact (hp.consFrom (h.many hq hlen)).bind (.pure _)

/-- Without a first value, a separated repetition takes nothing. -/
theorem Fails.sepBy (hp : p.Fails xs i f) (q : Parser σ ι β) : (p.sepBy q .any).Matches xs i [] i f := by
  rw [sepBy_any]
  obtain ⟨-, c, hc⟩ := hp.consFrom (q.andThen p).many
  exact hc.bind (.pure _)

end SepBy

/-- What is left of the input after one item of what was left. -/
theorem drop_succ_of_cons {x : ι} {rest : List ι} (h : xs.drop i = x :: rest) : xs.drop (i + 1) = rest := by
  rw [← List.drop_drop, h, List.drop_one, List.tail_cons]

/-- A run of items of a class is read item by item, and nothing fails. -/
theorem reads_satisfy {c : ItemClass ι} {us rest : List ι} (h : xs.drop i = us ++ rest)
    (hus : ∀ x ∈ us, c.accepts x) : (satisfy c : Parser σ ι ι).Reads xs i ∅ us (i + us.length) ∅ := by
  induction us generalizing i with
  | nil => exact .nil i ∅
  | cons u us ih =>
    obtain ⟨hu, hus⟩ := List.forall_mem_cons.1 hus
    rw [List.length_cons, ← Nat.add_assoc, Nat.add_right_comm]
    exact .cons (matches_satisfy h hu) (Nat.lt_succ_self i) (ih (drop_succ_of_cons h) hus)

/-! ## What is taken from the beginning -/

/-- The parser takes a first part of the input: the text of what was encoded, if that ends there. -/
def Takes (p : Parser σ ι α) (xs : List ι) (text : γ → List ι) (ends : γ → List ι → Prop) (value : γ → α) : Prop :=
  ∀ w rest, xs = text w ++ rest → ends w rest → ∃ f, p.Matches xs 0 (value w) (text w).length f

section Takes

variable {text : γ → List ι} {ends : γ → List ι → Prop} {value : γ → α}

theorem Takes.map (h : p.Takes xs text ends value) (g : α → β) : (p.map g).Takes xs text ends fun w => g (value w) :=
  fun w rest hxs hends => by
    obtain ⟨f, hmatch⟩ := h w rest hxs hends
    exact ⟨_, hmatch.map g⟩

/-- Where every input begins with some text that ends, the inputs that are such a text are decoded. -/
theorem Takes.decodes [Item ι] (h : p.Takes xs text ends value) (hbegins : ∃ w rest, xs = text w ++ rest ∧ ends w rest)
    {encoded : γ → Prop} (hencoded : ∀ w, encoded w ↔ xs = text w ∧ ends w []) :
    (p.parse xs).Decodes encoded value where
  value hw := by
    obtain ⟨hxs, hends⟩ := (hencoded _).1 hw
    obtain ⟨f, hmatch⟩ := h _ [] (hxs.trans (List.append_nil _).symm) hends
    exact hmatch.parse (congrArg List.length hxs.symm)
  error hnone := by
    obtain ⟨w, rest, hxs, hends⟩ := hbegins
    obtain ⟨f, hmatch⟩ := h w rest hxs hends
    refine ⟨_, hmatch.parse_rest fun hlen => hnone w ((hencoded w).2 ?_)⟩
    have hall := congrArg List.length hxs
    rw [List.length_append] at hall
    obtain rfl : rest = [] := List.eq_nil_of_length_eq_zero (by omega)
    exact ⟨hxs.trans (List.append_nil _), hends⟩

end Takes

end Parser

/-! ## Described parsers -/

namespace Grammar

variable {a : Alphabet}

/-- The parser of a description enters others one level less deep. -/
theorem exists_parser_eq (p : Grammar a) :
    ∃ limit, p.parser = parserBy (parserWithin (limit + 1)) p := ⟨UInt64.size - 2, rfl⟩

end Grammar

/-- Characters are joined to the text of them. -/
theorem Value.joined_chars (w : Bytes) : Value.joined (.list (w.map .char)) = .ok (.string w) := by
  have hbytes : (w.map Value.char).mapM Value.bytes? = .ok (w.map fun b => [b]) := by
    induction w with
    | nil => rfl
    | cons b w ih =>
      rw [List.map_cons, List.mapM_cons, ih]
      rfl
  show (do return .string (← (w.map Value.char).mapM Value.bytes?).flatten : Except Fault Value) = _
  rw [hbytes]
  exact congrArg (fun text => Except.ok (Value.string text)) (List.flatMap_singleton' w)

end Furthest
