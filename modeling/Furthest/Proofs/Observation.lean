import Furthest.Proofs.Combination
import Furthest.Proofs.RecordAlgebra

/-!
# Observed runs

`Combination.observed` runs a parser as `Combination.parser` does and notes, beside the store, which primitive
parsers were invoked, and which `desc`, `shouldFail` and empty choices stood around them. The combinators are
those of the library; none of them looks at what is noted.

`Run.Tracks` relates a run to an observed one: both end alike, and what was noted satisfies a condition.
-/

namespace Furthest

variable {σ ι α β γ : Type}

/-- How an invocation ended, its value apart. -/
inductive Ending where
  | matched (next : Nat) (furthest : Record)
  | failed (furthest : Record)
  | gaveUp (cause : Fault)

namespace Ending

/-- How an outcome ends. -/
def of : Except Fault (Result α) → Ending
  | .ok (.success _ next r) => matched next r
  | .ok (.failure _ r) => failed r
  | .error cause => gaveUp cause

/-- The ending that has also seen the failure of another record. -/
def aggregate (other : Record) : Ending → Ending
  | matched next r => matched next (r.merge other)
  | failed r => failed (r.merge other)
  | gaveUp cause => gaveUp cause

/-- The ending of a named parser that was invoked at a cursor. -/
def named (start : Nat) (label : Bytes) : Ending → Ending
  | matched next r => matched next r
  | failed _ => failed (.raised start (.singleton label))
  | gaveUp cause => gaveUp cause

/-- The ending of a parser that succeeds where the ended one failed. -/
def negated (start : Nat) (label : Bytes) : Ending → Ending
  | matched .. => failed (.raised start (.singleton label))
  | failed _ => matched start ∅
  | gaveUp cause => gaveUp cause

@[simp] theorem of_success (v : α) (n : Nat) (r : Record) : of (.ok (.success v n r)) = matched n r := rfl
@[simp] theorem of_failure (c : Nat) (r : Record) : of (.ok (.failure c r : Result α)) = failed r := rfl
@[simp] theorem of_error (cause : Fault) : of (.error cause : Except Fault (Result α)) = gaveUp cause := rfl

@[simp] theorem of_aggregate (r : Result α) (other : Record) :
    of (.ok (r.aggregate other)) = (of (.ok r)).aggregate other := by
  cases r <;> rfl

@[simp] theorem of_map (f : α → β) (r : Result α) : of (.ok (r.map f)) = of (.ok r) := by
  cases r <;> rfl

end Ending

/-- What is noted of an invocation. -/
inductive Event where
  /-- A primitive parser was invoked at a cursor, where it expects a label. -/
  | leaf (start : Nat) (label : Bytes) (ending : Ending)
  /-- A choice without parsers was invoked at a cursor. -/
  | emptyChoice (start : Nat)
  /-- A named parser was invoked at a cursor; `inside` is what was noted meanwhile. -/
  | desc (start : Nat) (label : Bytes) (ending : Ending) (inside : List Event)
  /-- It was tried at a cursor whether a parser fails; `inside` is what was noted meanwhile. -/
  | shouldFail (start : Nat) (label : Bytes) (ending : Ending) (inside : List Event)

/-- A store, and what was noted. -/
structure Observed (σ : Type) where
  store : σ
  events : List Event

/-- The environment with some events noted beside its store. -/
def Env.observe (env : Env σ) (events : List Event) : Env (Observed σ) := ⟨env.log, ⟨env.store, events⟩⟩

namespace Run

/-- Runs a computation that notes nothing. -/
def unobserved (x : Run σ α) : Run (Observed σ) α :=
  ExceptT.mk fun env =>
    let (ended, after) := x.execute ⟨env.log, env.store.store⟩
    pure (ended, after.observe env.store.events)

/-- Notes one event for all that a computation notes. -/
def enclosed (x : Run (Observed σ) α) (event : Except Fault α → List Event → Event) : Run (Observed σ) α :=
  ExceptT.mk fun env =>
    let (ended, after) := x.execute { env with store := { env.store with events := [] } }
    pure (ended, { after with
      store := { after.store with events := env.store.events ++ [event ended after.store.events] } })

end Run

/-- The parser, with one event noted for all that an invocation notes. -/
def Parser.enclosed (p : Parser (Observed σ) ι α) (event : Nat → Ending → List Event → Event) :
    Parser (Observed σ) ι α :=
  fun xs i => (p xs i).enclosed fun ended inside => event i (.of ended) inside

namespace Combination

/-- The parser that was built, noting what it invokes. -/
def observed : {α : Type} → Combination σ ι α → Parser (Observed σ) ι α
  | _, primitive l => Parser.enclosed l.parser fun i e _ => .leaf i l.label e
  | _, giveUp cause => Parser.giveUp cause
  | _, andThen p q => p.observed.andThen q.observed
  | _, skip p q => p.observed.skip q.observed
  | _, pair p q => p.observed.pair q.observed
  | _, sequence ps => Parser.sequence ((List.finRange _).map fun k => (ps k).observed)
  | _, alt (n := 0) _ => (Parser.alt []).enclosed fun i _ _ => .emptyChoice i
  | _, alt (n := _ + 1) ps => Parser.alt ((List.finRange _).map fun k => (ps k).observed)
  | _, times p b => p.observed.times b
  | _, sepBy p sep b => p.observed.sepBy sep.observed b
  | _, manyUntil p stop b => p.observed.manyUntil stop.observed b
  | _, tryMap p f => p.observed.tryMap f
  | _, bind p f => p.observed.bind fun v => (f v).observed
  | _, mark p => p.observed.mark
  | _, desc p label => (p.observed.desc label).enclosed fun i e inside => .desc i label e inside
  | _, shouldFail p label =>
    (p.observed.shouldFail label).enclosed fun i e inside => .shouldFail i label e inside
  | _, peek p => p.observed.peek
  | _, traced p name => p.observed.traced name
  | _, deferred found enter => fun xs i => do (enter (← found.unobserved)).observed xs i
  | _, rule body => fun xs i => (body xs i).observed xs i

end Combination

/-! ## Runs and observed runs -/

/-- An observed run ends as a run does, changes the environment as it does, and notes events that satisfy a
condition on the events and the end. -/
def Run.Tracks (x : Run σ α) (x' : Run (Observed σ) α) (holds : List Event → Except Fault α → Prop) : Prop :=
  ∀ env events, ∃ noted,
    x'.execute (env.observe events) = ((x.execute env).1, (x.execute env).2.observe (events ++ noted)) ∧
      holds noted (x.execute env).1

/-- What an observed run notes, beginning with nothing noted. -/
def Run.noted (x : Run (Observed σ) α) (env : Env σ) : List Event :=
  (x.execute (env.observe [])).2.store.events

namespace Run.Tracks

variable {x : Run σ α} {x' : Run (Observed σ) α} {f : α → Run σ β} {f' : α → Run (Observed σ) β}
variable {holds holds' : List Event → Except Fault α → Prop} {after : List Event → Except Fault β → Prop}

theorem mono (h : x.Tracks x' holds) (hh : ∀ l e, holds l e → holds' l e) : x.Tracks x' holds' :=
  fun env events =>
    have ⟨noted, hx, hn⟩ := h env events
    ⟨noted, hx, hh _ _ hn⟩

theorem ofExcept {e : Except Fault α} (h : holds [] e) :
    (Run.ofExcept e : Run σ α).Tracks (Run.ofExcept e) holds :=
  fun env events => ⟨[], by simp, h⟩

theorem pure {v : α} (h : holds [] (.ok v)) : (Pure.pure v : Run σ α).Tracks (Pure.pure v) holds :=
  ofExcept h

theorem bind (hx : x.Tracks x' holds)
    (hf : ∀ l v, holds l (.ok v) → (f v).Tracks (f' v) fun l' e => after (l ++ l') e)
    (he : ∀ l cause, holds l (.error cause) → after l (.error cause)) :
    (x >>= f).Tracks (x' >>= f') after := fun env events => by
  obtain ⟨l, hx', hl⟩ := hx env events
  rw [execute_bind, execute_bind, hx']
  rcases hrun : x.execute env with ⟨cause | v, env'⟩ <;> rw [hrun] at hl
  · exact ⟨l, rfl, he l cause hl⟩
  · obtain ⟨l', hf', hl'⟩ := hf l v hl env' (events ++ l)
    exact ⟨l ++ l', by rw [← List.append_assoc]; exact hf', hl'⟩

theorem record {e : Entry} {holds : List Event → Except Fault Unit → Prop} (h : holds [] (.ok ())) :
    (Run.record e : Run σ Unit).Tracks (Run.record e) holds :=
  fun env events => ⟨[], by simp [Env.observe], h⟩

/-- A computation over the store alone notes nothing. -/
theorem unobserved {holds : List Event → Except Fault α → Prop} (h : ∀ e, holds [] e) :
    x.Tracks x.unobserved holds :=
  fun env events => ⟨[], by simp only [List.append_nil]; rfl, h _⟩

theorem enclosed {event : Except Fault α → List Event → Event} (hx : x.Tracks x' holds)
    (h : ∀ l e, holds l e → holds' [event e l] e) : x.Tracks (x'.enclosed event) holds' :=
  fun env events => by
    obtain ⟨l, hx', hl⟩ := hx env []
    refine ⟨[event (x.execute env).1 l], ?_, h _ _ hl⟩
    show (let (ended, after) := x'.execute (env.observe [])
      (ended, ({ after with store := { after.store with
        events := events ++ [event ended after.store.events] } } : Env (Observed σ)))) = _
    rw [hx']
    rfl

/-- An observed run that begins with nothing noted. -/
theorem outcome (h : x.Tracks x' holds) (env : Env σ) :
    x'.outcome (env.observe []) = x.outcome env ∧ holds (x'.noted env) (x.outcome env) := by
  obtain ⟨noted, hx, hn⟩ := h env []
  refine ⟨by simp only [Run.outcome, hx], ?_⟩
  simp only [Run.noted, hx]
  exact hn

end Run.Tracks

end Furthest
