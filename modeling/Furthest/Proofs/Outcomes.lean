import Furthest.Parser.Input
import Furthest.Parser.Text
import Furthest.Proofs.RecordAlgebra

/-!
# Outcomes in every environment

`Parser.Matches` and `Parser.Fails` have how an invocation ends, whatever the log and the store. Each combinator
has a rule for every way in which it can end: the rules for a sequence merge the record of the later parser with
that of the earlier one, and those for a choice merge the record of the alternative with what failed before it.

For items of a class, `matches_many` has that a repetition takes all of them up to the first item outside it.
-/

namespace Furthest

variable {σ ι α β γ : Type}

namespace Run

/-- The computation ends with a value, whatever the environment. -/
def Ends (x : Run σ α) (v : α) : Prop := ∀ env, x.outcome env = .ok v

namespace Ends

variable {x : Run σ α} {f : α → Run σ β} {v : α} {w : β}

theorem pure (v : α) : (Pure.pure v : Run σ α).Ends v := fun _ => rfl

/-- A computation ends with one value only. -/
theorem eq_of_outcome {v' : α} {env : Env σ} (hx : x.Ends v) (h : x.outcome env = .ok v') : v' = v :=
  Except.ok.inj (h.symm.trans (hx env))

theorem bind (hx : x.Ends v) (hf : (f v).Ends w) : (x >>= f).Ends w := fun env => by
  have hv := hx env
  rw [outcome] at hv
  rw [outcome, execute_bind]
  rcases hrun : x.execute env with ⟨o, env'⟩
  rw [hrun] at hv
  subst hv
  exact hf env'

theorem record (e : Entry) : (Run.record e : Run σ Unit).Ends () := fun _ => rfl

/-- A failure can be made of a record with an index. -/
theorem ofRecord {r : Record} (h : r.isEngaged) :
    ∃ c, (Run.ofExcept (Result.ofRecord r) : Run σ (Result α)).Ends (.failure c r) := by
  obtain ⟨k, hk⟩ := Record.isEngaged_iff.1 h
  exact ⟨k, fun _ => by simp [Run.outcome, Result.ofRecord, hk]⟩

end Ends

end Run

namespace Parser

/-- The parser succeeds, whatever the environment. -/
def Matches (p : Parser σ ι α) (xs : List ι) (i : Nat) (v : α) (n : Nat) (f : Record) : Prop :=
  (p xs i).Ends (.success v n f)

/-- The parser fails, whatever the environment, and has seen a failure. -/
def Fails (p : Parser σ ι α) (xs : List ι) (i : Nat) (f : Record) : Prop :=
  f.isEngaged ∧ ∃ c, (p xs i).Ends (.failure c f)

variable {p : Parser σ ι α} {q : Parser σ ι β} {xs : List ι} {i m n : Nat} {v : α} {w : β} {f g : Record}

/-! ## Sequences -/

theorem Matches.andThen (hp : p.Matches xs i v m f) (hq : q.Matches xs m w n g) :
    (p.andThen q).Matches xs i w n (g.merge f) :=
  hp.bind (hq.bind (.pure _))

theorem Matches.andThen_fails (hp : p.Matches xs i v m f) (hq : q.Fails xs m g) :
    (p.andThen q).Fails xs i (g.merge f) := by
  obtain ⟨hg, c, hq⟩ := hq
  exact ⟨by simp [hg], c, hp.bind (hq.bind (.pure _))⟩

theorem Fails.andThen (hp : p.Fails xs i f) (q : Parser σ ι β) : (p.andThen q).Fails xs i f := by
  obtain ⟨hf, c, hp⟩ := hp
  obtain ⟨k, hk⟩ := Run.Ends.ofRecord (σ := σ) (α := β) hf
  exact ⟨hf, k, hp.bind hk⟩

theorem Matches.skip (hp : p.Matches xs i v m f) (hq : q.Matches xs m w n g) :
    (p.skip q).Matches xs i v n (g.merge f) :=
  hp.bind (hq.bind (.pure _))

theorem Matches.skip_fails (hp : p.Matches xs i v m f) (hq : q.Fails xs m g) :
    (p.skip q).Fails xs i (g.merge f) := by
  obtain ⟨hg, c, hq⟩ := hq
  have hgf : (g.merge f).isEngaged := by simp [hg]
  obtain ⟨k, hk⟩ := Run.Ends.ofRecord (σ := σ) (α := α) hgf
  exact ⟨hgf, k, hp.bind (hq.bind hk)⟩

theorem Fails.skip (hp : p.Fails xs i f) (q : Parser σ ι β) : (p.skip q).Fails xs i f := by
  obtain ⟨hf, c, hp⟩ := hp
  exact ⟨hf, c, hp.bind (.pure _)⟩

theorem Matches.pair (hp : p.Matches xs i v m f) (hq : q.Matches xs m w n g) :
    (p.pair q).Matches xs i (v, w) n (g.merge f) :=
  hp.bind (hq.bind (.pure _))

theorem Matches.pair_fails (hp : p.Matches xs i v m f) (hq : q.Fails xs m g) :
    (p.pair q).Fails xs i (g.merge f) := by
  obtain ⟨hg, c, hq⟩ := hq
  have hgf : (g.merge f).isEngaged := by simp [hg]
  obtain ⟨k, hk⟩ := Run.Ends.ofRecord (σ := σ) (α := α × β) hgf
  exact ⟨hgf, k, hp.bind (hq.bind hk)⟩

theorem Fails.pair (hp : p.Fails xs i f) (q : Parser σ ι β) : (p.pair q).Fails xs i f := by
  obtain ⟨hf, c, hp⟩ := hp
  obtain ⟨k, hk⟩ := Run.Ends.ofRecord (σ := σ) (α := α × β) hf
  exact ⟨hf, k, hp.bind hk⟩

/-! ## Values and names -/

theorem Matches.map (hp : p.Matches xs i v n f) (h : α → β) : (p.map h).Matches xs i (h v) n f :=
  hp.bind (.bind (v := h v) (fun _ => rfl) (.pure _))

theorem Fails.map (hp : p.Fails xs i f) (h : α → β) : (p.map h).Fails xs i f := by
  obtain ⟨hf, c, hp⟩ := hp
  obtain ⟨k, hk⟩ := Run.Ends.ofRecord (σ := σ) (α := β) hf
  exact ⟨hf, k, hp.bind hk⟩

theorem Matches.combine₂ (h : α → β → γ) (hp : p.Matches xs i v m f) (hq : q.Matches xs m w n g) :
    (Parser.combine₂ h p q).Matches xs i (h v w) n (g.merge f) :=
  (hp.pair hq).map _

theorem Matches.combine₂_fails (h : α → β → γ) (hp : p.Matches xs i v m f) (hq : q.Fails xs m g) :
    (Parser.combine₂ h p q).Fails xs i (g.merge f) :=
  (hp.pair_fails hq).map _

theorem Fails.combine₂ (h : α → β → γ) (hp : p.Fails xs i f) (q : Parser σ ι β) :
    (Parser.combine₂ h p q).Fails xs i f :=
  (hp.pair q).map _

theorem Matches.desc (hp : p.Matches xs i v n f) (label : Bytes) : (p.desc label).Matches xs i v n f :=
  hp.bind (.pure _)

theorem Fails.desc (hp : p.Fails xs i f) (label : Bytes) :
    (p.desc label).Fails xs i (.raised i (.singleton label)) := by
  obtain ⟨-, c, hp⟩ := hp
  exact ⟨rfl, i, hp.bind (.pure _)⟩

theorem Matches.traced (hp : p.Matches xs i v n f) (name : Bytes) : (p.traced name).Matches xs i v n f :=
  (Run.Ends.record _).bind (hp.bind (.bind (v := Entry.matched name i n) (fun _ => rfl)
    ((Run.Ends.record _).bind (.pure _))))

theorem Fails.traced (hp : p.Fails xs i f) (name : Bytes) : (p.traced name).Fails xs i f := by
  obtain ⟨hf, c, hp⟩ := hp
  obtain ⟨k, hk⟩ := Record.isEngaged_iff.1 hf
  have entry : (Run.ofExcept (outcomeEntry name i (.failure c f : Result α)) : Run σ Entry).Ends
      (.failed name i k f.labels) := fun _ => by
    simp [Run.outcome, outcomeEntry, Result.index, Result.furthest, hk]
    rfl
  exact ⟨hf, c, (Run.Ends.record _).bind (hp.bind (entry.bind ((Run.Ends.record _).bind (.pure _))))⟩

/-! ## Choice and repetition -/

section Choice

variable {q : Parser σ ι α} {w : α}

theorem Matches.orElse (hp : p.Matches xs i v n f) (q : Parser σ ι α) : (p.orElse q).Matches xs i v n f := by
  have h : (p.orElse q).Matches xs i v n (f.merge ∅) := hp.bind (.pure _)
  rwa [Record.merge_empty] at h

theorem Fails.orElse (hp : p.Fails xs i f) (hq : q.Matches xs i w n g) :
    (p.orElse q).Matches xs i w n (g.merge f) := by
  obtain ⟨-, c, hp⟩ := hp
  have h : (p.orElse q).Matches xs i w n (g.merge (f.merge ∅)) := hp.bind (hq.bind (.pure _))
  rwa [Record.merge_empty] at h

theorem Fails.orElse_fails (hp : p.Fails xs i f) (hq : q.Fails xs i g) : (p.orElse q).Fails xs i (g.merge f) := by
  obtain ⟨-, c, hp⟩ := hp
  obtain ⟨hg, d, hq⟩ := hq
  have hgf : (g.merge f).isEngaged := by simp [hg]
  obtain ⟨k, hk⟩ := Run.Ends.ofRecord (σ := σ) (α := α) hgf
  have hlast : (altFrom xs i ([] : List (Parser σ ι α)) (g.merge f)).Ends (.failure k (g.merge f)) := by
    simp only [altFrom, hgf, if_true]
    exact hk
  rw [← Record.merge_empty f] at hlast ⊢
  exact ⟨by simp [hg], k, hp.bind (hq.bind hlast)⟩

end Choice

section Times

variable {isOpen : Bool} {remaining needed : Nat} {r : Record} {vs : List α}

/-- A repetition that needs no more values ends where the parser fails. -/
theorem Fails.timesFrom (hp : p.Fails xs i f) :
    (p.timesFrom isOpen xs (remaining + 1) 0 i r).Ends (.success [] i (f.merge r)) := by
  obtain ⟨-, c, hp⟩ := hp
  exact hp.bind (.pure _)

theorem Fails.timesFrom_needed (hp : p.Fails xs i f) (hn : needed ≠ 0) :
    ∃ c, (p.timesFrom isOpen xs (remaining + 1) needed i r).Ends (.failure c (f.merge r)) := by
  obtain ⟨hf, c, hp⟩ := hp
  have hfr : (f.merge r).isEngaged := by simp [hf]
  obtain ⟨k, hk⟩ := Run.Ends.ofRecord (σ := σ) (α := List α) hfr
  refine ⟨k, hp.bind ?_⟩
  simp only [Result.aggregate, hn, if_false]
  exact hk

/-- A repetition goes on after a match that consumed something. -/
theorem Matches.timesFrom (hp : p.Matches xs i v m f) (hm : m ≠ i)
    (hrest : (p.timesFrom isOpen xs remaining (needed - 1) m (f.merge r)).Ends (.success vs n g)) :
    (p.timesFrom isOpen xs (remaining + 1) needed i r).Ends (.success (v :: vs) n g) := by
  refine hp.bind ?_
  simp only [Result.aggregate, hm, false_and, if_false]
  exact hrest.bind (.pure _)

/-- A repetition that needs no values merges what it sees with what was seen before it. -/
theorem timesFrom_merge (p : Parser σ ι α) (first : Record) :
    p.timesFrom isOpen xs remaining 0 i (r.merge first) =
      do return (← p.timesFrom isOpen xs remaining 0 i r).aggregate first := by
  induction remaining generalizing i r with
  | zero => rfl
  | succ remaining ih =>
    rw [Parser.timesFrom, Parser.timesFrom, bind_assoc]
    refine bind_congr fun o => ?_
    cases o with
    | failure c f => simp only [Result.aggregate, if_true, pure_bind, Record.merge_assoc]
    | success v n f =>
      simp only [Result.aggregate, ← Record.merge_assoc]
      split
      · simp only [pure_bind]
      · simp only [Nat.zero_sub, ih, bind_assoc, pure_bind]
        refine bind_congr fun o => ?_
        cases o <;> rfl

/-- A repetition after a value goes on from the record of the value. -/
theorem Matches.combine₂_many (h : α → List β → γ) (hp : p.Matches xs i v m f) (hf : f.isEngaged) {ws : List β}
    (hq : (q.timesFrom true xs unbounded 0 m f).Ends (.success ws n g)) :
    (Parser.combine₂ h p q.many).Matches xs i (h v ws) n g := by
  have hmany : (do return (← q.many xs m).aggregate f : Run σ (Result (List β))).Ends (.success ws n g) := by
    rw [← Record.empty_merge (Record.proper_of_isEngaged hf), timesFrom_merge] at hq
    exact hq
  have hpair : (p.pair q.many).Matches xs i (v, ws) n g := by
    refine hp.bind ?_
    have hproceed := hmany.bind (f := fun o => o.proceed fun w n r => return .success (v, w) n r) (.pure _)
    rwa [bind_assoc] at hproceed
  exact hpair.map _

theorem Matches.optional (hp : p.Matches xs i v n f) : p.optional.Matches xs i (some v) n f := by
  have htimes : (p.times (.atMost 1)).Matches xs i [v] n f := by
    refine hp.bind ?_
    have hopen : (Bounds.atMost 1).isOpen = false := by decide
    simp only [Result.aggregate, Record.merge_empty, hopen, Bool.false_eq_true, false_and, and_false, if_false]
    exact (Run.Ends.pure _).bind (.pure _)
  exact htimes.map _

theorem Fails.optional (hp : p.Fails xs i f) : p.optional.Matches xs i none i f := by
  have htimes : (p.times (.atMost 1)).Matches xs i [] i (f.merge ∅) := hp.timesFrom
  rw [Record.merge_empty] at htimes
  exact htimes.map _

end Times

/-! ## Items of a class -/

section Satisfy

variable {c : ItemClass ι} {x : ι} {us rest : List ι}

/-- A text begins with a run of items of a class, up to the first that is not of it. -/
theorem exists_run (c : ItemClass ι) (ys : List ι) :
    ∃ us rest, ys = us ++ rest ∧ (∀ x ∈ us, c.accepts x) ∧ ∀ x ∈ rest.head?, ¬ c.accepts x := by
  refine ⟨ys.takeWhile c.accepts, ys.dropWhile c.accepts, List.takeWhile_append_dropWhile.symm, fun x hx => ?_, ?_⟩
  · exact List.all_eq_true.1 List.all_takeWhile x hx
  · intro x hx
    have := List.head?_dropWhile_not c.accepts ys
    rw [Option.mem_def.1 hx] at this
    simp [this]

/-- What is left of the input after a first part of what was left. -/
theorem drop_add_length (h : xs.drop i = us ++ rest) : xs.drop (i + us.length) = rest := by
  rw [← List.drop_drop, h, List.drop_left]

theorem getElem?_of_drop (h : xs.drop i = rest) : xs[i]? = rest.head? := by
  rw [← h, List.head?_drop]

theorem satisfy_eq_success (h : xs.drop i = x :: rest) (hx : c.accepts x) :
    (satisfy c xs i : Run σ (Result ι)) = return .success x (i + 1) ∅ := by
  simp [satisfy, getElem?_of_drop h, hx]

theorem satisfy_eq_fail (h : ∀ x ∈ (xs.drop i).head?, ¬ c.accepts x) :
    (satisfy c xs i : Run σ (Result ι)) = return .fail i (.singleton c.label) := by
  rw [List.head?_drop] at h
  rcases hx : xs[i]? with _ | x
  · simp only [satisfy, hx]
  · simp only [satisfy, hx, h x hx]
    rfl

theorem matches_satisfy (h : xs.drop i = x :: rest) (hx : c.accepts x) :
    (satisfy c : Parser σ ι ι).Matches xs i x (i + 1) ∅ := fun _ => by
  rw [satisfy_eq_success h hx]
  rfl

theorem fails_satisfy (h : ∀ x ∈ (xs.drop i).head?, ¬ c.accepts x) :
    (satisfy c : Parser σ ι ι).Fails xs i (.raised i (.singleton c.label)) :=
  ⟨rfl, i, fun _ => by rw [satisfy_eq_fail h]; rfl⟩

/-- A repetition that does not reach its greatest count takes a run of items of a class, and touches nothing else. -/
theorem timesFrom_satisfy_eq (h : xs.drop i = us ++ rest) (hus : ∀ x ∈ us, c.accepts x)
    (hrest : ∀ x ∈ rest.head?, ¬ c.accepts x) {isOpen : Bool} {remaining needed : Nat}
    (hr : us.length < remaining) (hn : needed ≤ us.length) :
    ((satisfy c : Parser σ ι ι).timesFrom isOpen xs remaining needed i ∅) =
      return .success us (i + us.length) (.raised (i + us.length) (.singleton c.label)) := by
  induction us generalizing i remaining needed with
  | nil =>
    obtain ⟨remaining, rfl⟩ := Nat.exists_eq_succ_of_ne_zero (Nat.ne_of_gt hr)
    obtain rfl : needed = 0 := by simpa using hn
    rw [timesFrom, satisfy_eq_fail (by rw [h]; exact hrest), pure_bind]
    rfl
  | cons u us ih =>
    obtain ⟨remaining, rfl⟩ := Nat.exists_eq_succ_of_ne_zero (Nat.ne_of_gt (Nat.zero_lt_of_lt hr))
    have hdrop : xs.drop (i + [u].length) = us ++ rest := drop_add_length h
    rw [List.length_singleton] at hdrop
    have hmoved : i + 1 ≠ i := by omega
    rw [List.length_cons] at hr hn ⊢
    rw [← Nat.add_assoc, Nat.add_right_comm, timesFrom, satisfy_eq_success h (hus u List.mem_cons_self), pure_bind]
    simp only [Result.aggregate, Record.merge_empty, hmoved, false_and, if_false]
    rw [ih hdrop (fun x hx => hus x (List.mem_cons_of_mem u hx)) (by omega) (by omega), pure_bind]
    rfl

theorem timesFrom_satisfy (h : xs.drop i = us ++ rest) (hus : ∀ x ∈ us, c.accepts x)
    (hrest : ∀ x ∈ rest.head?, ¬ c.accepts x) {isOpen : Bool} {remaining needed : Nat}
    (hr : us.length < remaining) (hn : needed ≤ us.length) :
    ((satisfy c : Parser σ ι ι).timesFrom isOpen xs remaining needed i ∅).Ends
      (.success us (i + us.length) (.raised (i + us.length) (.singleton c.label))) := by
  rw [timesFrom_satisfy_eq h hus hrest hr hn]
  exact .pure _

/-- A repetition takes all items of a class up to the first that is not of it. -/
theorem matches_many (h : xs.drop i = us ++ rest) (hus : ∀ x ∈ us, c.accepts x)
    (hrest : ∀ x ∈ rest.head?, ¬ c.accepts x) (hlen : us.length < unbounded) :
    (satisfy c : Parser σ ι ι).many.Matches xs i us (i + us.length)
      (.raised (i + us.length) (.singleton c.label)) :=
  timesFrom_satisfy h hus hrest hlen (Nat.zero_le _)

theorem matches_oneOrMore (h : xs.drop i = us ++ rest) (hus : ∀ x ∈ us, c.accepts x) (hne : us ≠ [])
    (hrest : ∀ x ∈ rest.head?, ¬ c.accepts x) (hlen : us.length < unbounded) :
    (satisfy c : Parser σ ι ι).oneOrMore.Matches xs i us (i + us.length)
      (.raised (i + us.length) (.singleton c.label)) :=
  timesFrom_satisfy h hus hrest hlen (List.length_pos_iff.2 hne)

theorem fails_oneOrMore (h : ∀ x ∈ (xs.drop i).head?, ¬ c.accepts x) :
    (satisfy c : Parser σ ι ι).oneOrMore.Fails xs i (.raised i (.singleton c.label)) := by
  have hneeded : ∃ k, ((satisfy c : Parser σ ι ι).timesFrom true xs (unbounded - 1 + 1) 1 i ∅).Ends (.failure k _) :=
    (fails_satisfy h).timesFrom_needed (by decide)
  obtain ⟨k, hk⟩ := hneeded
  exact ⟨rfl, k, hk⟩

end Satisfy

section Str

variable {xs rest literal : Bytes}

theorem matches_str (h : xs.drop i = literal ++ rest) (hi : i ≤ xs.length) :
    (str literal : Parser σ UInt8 Bytes).Matches xs i literal (i + literal.length) ∅ := fun _ => by
  have hprefix : literal.isPrefixOf (xs.drop i) = true := by simp [h]
  simp [Run.outcome, str, Nat.not_lt.2 hi, hprefix]

theorem fails_str (h : ¬ literal <+: xs.drop i) (hi : i ≤ xs.length) :
    (str literal : Parser σ UInt8 Bytes).Fails xs i (.raised i (.singleton literal)) := by
  have hprefix : literal.isPrefixOf (xs.drop i) = false := by
    rwa [← Bool.not_eq_true, List.isPrefixOf_iff_prefix]
  exact ⟨rfl, i, fun _ => by simp [Run.outcome, str, Nat.not_lt.2 hi, hprefix, Result.fail]⟩

end Str

/-! ## Whole inputs -/

section Parse

variable [Item ι]

theorem Matches.parse_bind (hp : p.Matches xs 0 v n f) {o : Except ParseError α}
    (ho : o = if n = xs.length then .ok v else
      .error (.ofRecord xs ((Record.raised n (.singleton endLabel)).merge f))) : (p.parse xs).Ends o := by
  refine hp.bind ?_
  subst ho
  show (if n = xs.length then _ else _ : Run σ (Except ParseError α)).Ends _
  split <;> exact .pure _

theorem Matches.parse (hp : p.Matches xs 0 v n f) (hn : n = xs.length) : (p.parse xs).Ends (.ok v) :=
  hp.parse_bind (if_pos hn).symm

/-- Where the input goes on after a match, its end was expected too. -/
theorem Matches.parse_rest (hp : p.Matches xs 0 v n f) (hn : n ≠ xs.length) :
    (p.parse xs).Ends (.error (.ofRecord xs ((Record.raised n (.singleton endLabel)).merge f))) :=
  hp.parse_bind (if_neg hn).symm

theorem Fails.parse (hp : p.Fails xs 0 f) : (p.parse xs).Ends (.error (.ofRecord xs f)) := by
  obtain ⟨-, c, hp⟩ := hp
  exact hp.bind (.pure _)

end Parse

end Parser

end Furthest
