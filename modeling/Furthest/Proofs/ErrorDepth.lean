import Furthest.Proofs.Congruence
import Furthest.Proofs.CursorBounds
import Furthest.Proofs.RaisedRecords

/-!
# How deep an error is

An outcome has seen what was raised in its invocation, and an error is reported at the greatest index that was seen.
What primitive parsers raise is lost where `desc` puts its own label in place of it, and where `shouldFail` makes a
fresh outcome, whether it fails or succeeds. `Event.exposed` lists the calls of primitive parsers that were not made
inside a `shouldFail`.

Main statement: `error_index_ge_exposed`. Parsers without `desc` lose no failure but those that were tried inside a
`shouldFail`; such a failure can be deeper than the error (`hidden_failure_deeper_than_error`).
-/

namespace Furthest

variable {σ ι α β : Type} {naming negating : Prop}

/-! ## Where failures are hidden -/

/-- The parser uses `desc` and `shouldFail` only where that is allowed. -/
def Combination.Uses (naming negating : Prop) : {α : Type} → Combination σ ι α → Prop
  | _, .primitive _ | _, .giveUp _ => True
  | _, .andThen p q | _, .skip p q | _, .pair p q => p.Uses naming negating ∧ q.Uses naming negating
  | _, .sequence ps | _, .alt ps => ∀ k, (ps k).Uses naming negating
  | _, .times p _ => p.Uses naming negating
  | _, .sepBy p sep _ => p.Uses naming negating ∧ sep.Uses naming negating
  | _, .manyUntil p stop _ => p.Uses naming negating ∧ stop.Uses naming negating
  | _, .tryMap p _ => p.Uses naming negating
  | _, .bind p f => p.Uses naming negating ∧ ∀ v, (f v).Uses naming negating
  | _, .desc p _ => naming ∧ p.Uses naming negating
  | _, .shouldFail p _ => negating ∧ p.Uses naming negating
  | _, .mark p | _, .peek p | _, .traced p _ => p.Uses naming negating
  | _, .deferred _ enter => ∀ v, (enter v).Uses naming negating
  | _, .rule body => ∀ xs i, (body xs i).Uses naming negating

/-- The call failed. -/
def Call.Failed (c : Call) : Prop := ∃ r, c.ending = .failed r

namespace Event

mutual

/-- What an event stands for uses `desc` and `shouldFail` only where that is allowed. -/
def Uses (naming negating : Prop) : Event → Prop
  | leaf .. | emptyChoice _ => True
  | desc _ _ _ inside => naming ∧ UsesAll naming negating inside
  | shouldFail _ _ _ inside => negating ∧ UsesAll naming negating inside

def UsesAll (naming negating : Prop) : List Event → Prop
  | [] => True
  | e :: es => e.Uses naming negating ∧ UsesAll naming negating es

end

theorem usesAll_append {es es' : List Event} (h : UsesAll naming negating es) (h' : UsesAll naming negating es') :
    UsesAll naming negating (es ++ es') := by
  induction es with
  | nil => exact h'
  | cons e es ih => exact ⟨h.1, ih h.2⟩

mutual

/-- The calls of primitive parsers in what an event stands for, but for those inside a `shouldFail`. -/
def exposed : Event → List Call
  | leaf start _ ending => [⟨start, ending⟩]
  | emptyChoice _ | shouldFail .. => []
  | desc _ _ _ inside => exposedAll inside

def exposedAll : List Event → List Call
  | [] => []
  | e :: es => e.exposed ++ exposedAll es

end

mutual

/-- Without `shouldFail`, all calls are exposed. -/
theorem exposed_eq_calls : (e : Event) → e.Uses naming False → e.exposed = e.calls
  | leaf .., _ | emptyChoice _, _ => rfl
  | desc _ _ _ inside, h => exposedAll_eq_callsAll inside h.2
  | shouldFail .., h => h.1.elim

theorem exposedAll_eq_callsAll : (es : List Event) → UsesAll naming False es → exposedAll es = callsAll es
  | [], _ => rfl
  | e :: es, h => by rw [exposedAll, callsAll, exposed_eq_calls e h.1, exposedAll_eq_callsAll es h.2]

end

mutual

/-- Without `desc`, an exposed call that failed raised a record at its cursor. -/
theorem exists_raised_of_exposed : (e : Event) → e.Uses False negating → ∀ c ∈ e.exposed, c.Failed →
    ∃ r ∈ e.raised, r.index = some c.start
  | leaf start label ending, _, c, hc, hfailed => by
    obtain rfl : c = ⟨start, ending⟩ := by simpa [exposed] using hc
    obtain ⟨r, rfl⟩ := hfailed
    exact ⟨_, List.mem_singleton_self _, rfl⟩
  | emptyChoice _, _, _, hc, _ | shouldFail .., _, _, hc, _ => by cases hc
  | desc .., h, _, _, _ => h.1.elim

theorem exists_raisedAll_of_exposedAll : (es : List Event) → UsesAll False negating es → ∀ c ∈ exposedAll es, c.Failed →
    ∃ r ∈ raisedAll es, r.index = some c.start
  | e :: es, h, c, hc, hfailed => by
    rcases List.mem_append.1 hc with hc | hc
    · obtain ⟨r, hr, hindex⟩ := exists_raised_of_exposed e h.1 c hc hfailed
      exact ⟨r, List.mem_append_left _ hr, hindex⟩
    · obtain ⟨r, hr, hindex⟩ := exists_raisedAll_of_exposedAll es h.2 c hc hfailed
      exact ⟨r, List.mem_append_right _ hr, hindex⟩

end

end Event

/-! ## What is noted of a parser -/

/-- Noting events of a class alone is kept by all combinators. -/
def notingUses (naming negating : Prop) : Run.Congruence (Observed σ) (Observed σ) where
  holds x _ := ∀ env, Event.UsesAll naming negating env.store.events →
    Event.UsesAll naming negating (x.execute env).2.store.events
  ofExcept _ _ h := h
  bind hx hf env h := by
    have h' := hx env h
    rw [Run.execute_bind]
    generalize Run.execute _ env = ran at h' ⊢
    obtain ⟨_ | v, after⟩ := ran
    · exact h'
    · exact hf v after h'

theorem notingUses_enclosed {x : Run (Observed σ) α} {event : Except Fault α → List Event → Event}
    (hx : (notingUses naming negating).holds x x)
    (h : ∀ e l, Event.UsesAll naming negating l → (event e l).Uses naming negating) :
    (notingUses naming negating).holds (x.enclosed event) (x.enclosed event) := fun env henv =>
  Event.usesAll_append henv ⟨h _ _ (hx { env with store := { env.store with events := [] } } trivial), trivial⟩

/-- What is noted of a parser is of the class that the parser is of. -/
theorem Combination.notes_uses {e : Combination σ ι α} (he : e.Uses naming negating) :
    (notingUses naming negating).Carries e.observed e.observed := by
  have records : (notingUses (σ := σ) naming negating).Records := fun _ _ h => h
  induction e with
  | primitive l => exact fun xs i => notingUses_enclosed (Run.Congruence.Carries.primitive l xs i) fun _ _ _ => trivial
  | giveUp cause => exact fun _ _ => (notingUses naming negating).giveUp cause
  | andThen p q hp hq => exact (hp he.1).andThen (hq he.2)
  | skip p q hp hq => exact (hp he.1).skip (hq he.2)
  | pair p q hp hq => exact (hp he.1).pair (hq he.2)
  | sequence ps hp => exact .sequence (Run.Congruence.Carries.forall₂_map (fun k => hp k (he k)) _)
  | @alt _ n ps hp =>
    cases n with
    | zero => exact fun xs i => notingUses_enclosed (Run.Congruence.Carries.alt .nil xs i) fun _ _ _ => trivial
    | succ n => exact .alt (Run.Congruence.Carries.forall₂_map (fun k => hp k (he k)) _)
  | times p b hp => exact (hp he).times b
  | sepBy p sep b hp hsep => exact (hp he.1).sepBy (hsep he.2) b
  | manyUntil p stop b hp hstop => exact (hp he.1).manyUntil (hstop he.2) b
  | tryMap p f hp => exact (hp he).tryMap f
  | bind p f hp hf => exact (hp he.1).bind fun v => hf v (he.2 v)
  | mark p hp => exact (hp he).mark
  | desc p label hp => exact fun xs i => notingUses_enclosed ((hp he.2).desc label xs i) fun _ _ h => ⟨he.1, h⟩
  | shouldFail p label hp =>
    exact fun xs i => notingUses_enclosed ((hp he.2).shouldFail label xs i) fun _ _ h => ⟨he.1, h⟩
  | peek p hp => exact (hp he).peek
  | traced p name hp => exact (hp he).traced records name
  | deferred found enter hp => exact .deferred (fun _ h => h) fun v => hp v (he v)
  | rule body hp => exact fun xs i => hp xs i (he xs i) xs i

theorem Combination.usesAll_noted_parse [Item ι] {e : Combination σ ι α} (he : e.Uses naming negating) (xs : List ι)
    (env : Env σ) : Event.UsesAll naming negating ((e.observed.parse xs).noted env) := by
  have hparse : (notingUses naming negating).holds (e.observed.parse xs) (e.observed.parse xs) := by
    rw [Parser.parse_eq]
    exact (notingUses naming negating).bind (Combination.notes_uses he xs 0) fun _ => Run.Congruence.pure _ _
  exact hparse _ trivial

/-! ## Main statement -/

/-- An error is at least as deep as what its outcome has seen. -/
theorem Parser.le_index_of_wholeOf [Item ι] {xs : List ι} {o : Result α} {k : Nat} {err : ParseError}
    (hk : o.furthest.index = some k) (h : wholeOf xs o = .error err) : k ≤ err.index := by
  cases o with
  | failure c r =>
    cases h
    have hr : r.index = some k := hk
    simp [ParseError.ofRecord, hr]
  | success v n r =>
    have hr : r.index = some k := hk
    simp only [wholeOf] at h
    split at h <;> cases h
    simp [ParseError.ofRecord, Record.index_merge, hr]

/-- Where a parser without `desc` rejects an input, the error is at least as deep as every failure of a primitive parser
that was not tried inside a `shouldFail`; without `shouldFail` it is at least as deep as all of them. -/
theorem error_index_ge_exposed [Item ι] {e : Combination σ ι α} (he : e.Uses False negating) (xs : List ι)
    (env : Env σ) {err : ParseError} (h : (e.parser.parse xs).outcome env = .ok (.error err)) :
    let noted := (e.observed.parse xs).noted env
    (e.observed.parse xs).outcome (env.observe []) = .ok (.error err) ∧
      (∀ c ∈ Event.exposedAll noted, c.Failed → c.start ≤ err.index) ∧
      (¬negating → ∀ c ∈ Event.callsAll noted, c.Failed → c.start ≤ err.index) := by
  intro noted
  have whole := ((e.guides (.seesRaised xs)).enter (Parser.wholeOf xs)).outcome env
  rw [← Parser.parse_eq, ← Parser.parse_eq, h] at whole
  obtain ⟨hrun, o, hsees, ho⟩ := whole
  have hexposed : ∀ c ∈ Event.exposedAll noted, c.Failed → c.start ≤ err.index := fun c hc hfailed => by
    obtain ⟨r, hr, hindex⟩ := Event.exists_raisedAll_of_exposedAll noted (e.usesAll_noted_parse he xs env) c hc hfailed
    obtain ⟨k, hk, hle⟩ := Record.le_index_mergeAll hr hindex
    cases o with
    | error cause => cases ho
    | ok o =>
      have hseen : o.furthest = .mergeAll (Event.raisedAll noted) := by
        cases o with
        | success v n f => exact hsees
        | failure c f => exact hsees.1
      exact Nat.le_trans hle (Parser.le_index_of_wholeOf (hseen ▸ hk) (Except.ok.inj ho).symm)
  refine ⟨hrun, hexposed, fun hnot => ?_⟩
  have huses : Event.UsesAll False False noted := by simpa [hnot] using e.usesAll_noted_parse he xs env
  rw [← Event.exposedAll_eq_callsAll noted huses]
  exact hexposed

/-- A failure that a repetition absorbed is where the error is, which comes after a `shouldFail`. -/
theorem error_index_ge_exposed_of_absorbed :
    let symbol (x : UInt8) : Combination Unit UInt8 UInt8 := .primitive (.satisfy (.only x [x]))
    let e : Combination Unit UInt8 UInt8 := (((symbol 97).andThen (symbol 98)).times (.atMost 1)).andThen
      (((symbol 120).shouldFail (ascii "not x")).andThen (symbol 121))
    let err : ParseError := ⟨.singleton (ascii "b"), 1, ascii "0:1"⟩
    let env : Env Unit := ⟨.ofLevel .off, ()⟩
    let c : Call := ⟨1, .failed (.raised 1 (.singleton (ascii "b")))⟩
    e.Uses False True ∧ (e.parser.parse [97, 99]).outcome env = .ok (.error err) ∧
      c ∈ Event.exposedAll ((e.observed.parse [97, 99]).noted env) ∧ c.start ≤ err.index := by
  intro symbol e err env c
  have he : e.Uses False True := ⟨⟨trivial, trivial⟩, ⟨trivial, trivial⟩, trivial⟩
  have herr : (e.parser.parse [97, 99]).outcome env = .ok (.error err) := by decide
  have hc : c ∈ Event.exposedAll ((e.observed.parse [97, 99]).noted env) := .tail _ (.head _)
  obtain ⟨-, hexposed, -⟩ := error_index_ge_exposed he [97, 99] env herr
  exact ⟨he, herr, hc, hexposed c hc ⟨_, rfl⟩⟩

/-- What failed inside a `shouldFail`, after one item, is lost: the error is at the beginning. -/
theorem hidden_failure_deeper_than_error :
    let symbol (x : UInt8) : Combination Unit UInt8 UInt8 := .primitive (.satisfy (.only x [x]))
    let e : Combination Unit UInt8 UInt8 :=
      (((symbol 97).andThen (symbol 98)).shouldFail (ascii "not ab")).andThen (symbol 120)
    let err : ParseError := ⟨.singleton (ascii "x"), 0, ascii "0:0"⟩
    let env : Env Unit := ⟨.ofLevel .off, ()⟩
    e.Uses False True ∧ (e.parser.parse [97, 99]).outcome env = .ok (.error err) ∧
      ∃ c ∈ Event.callsAll ((e.observed.parse [97, 99]).noted env), c.Failed ∧ err.index < c.start := by
  intro symbol e err env
  refine ⟨⟨⟨trivial, trivial, trivial⟩, trivial⟩, by decide,
    ⟨1, .failed (.raised 1 (.singleton (ascii "b")))⟩, ?_, ⟨_, rfl⟩, by decide⟩
  exact .tail _ (.head _)

end Furthest
