import Furthest.Proofs.Notes
import Furthest.Proofs.Unfolding

/-!
# The lives of cells

A watched session notes whenever a cell is entered, when building it is started, and whether that threw or was
completed; else it does what the session does. `Life` is what can be noted of one cell, from one state to another: a
cell that is not built is built whenever it is entered, until that is completed, and never again.

Main statements: `Grammar.watches_parserWithin` and `Session.Step.watches`, which have that watched runs do what runs
do, and that what they note are lives of cells.
-/

namespace Furthest

variable {σ α : Type} {a : Alphabet}

/-! ## What is noted -/

/-- What is noted of a cell. -/
inductive Stage where
  /-- Its parser is invoked. -/
  | entered
  /-- Building it is started. -/
  | started
  /-- Building it threw. -/
  | threw (cause : Fault)
  /-- It is built. -/
  | completed
deriving DecidableEq

/-- A stage of the cell at an address. -/
structure BuildEvent where
  address : Nat
  stage : Stage
deriving DecidableEq

/-- What was noted of one cell. -/
def BuildEvent.stages (k : Nat) (events : List BuildEvent) : List Stage :=
  events.filterMap fun e => if e.address = k then some e.stage else none

/-- Building threw. -/
def Stage.isThrew : Stage → Bool
  | threw _ => true
  | _ => false

/-- What is noted of a cell from one state to another: whether it was built before, and whether it is built then. -/
inductive Life : (before after : Bool) → List Stage → Prop
  | still (b : Bool) : Life b b []
  | found {b : Bool} {l : List Stage} (h : Life true b l) : Life true b (.entered :: l)
  | failed {b : Bool} {l : List Stage} (cause : Fault) (h : Life false b l) :
    Life false b (.entered :: .started :: .threw cause :: l)
  | made {b : Bool} {l : List Stage} (h : Life true b l) : Life false b (.entered :: .started :: .completed :: l)

namespace Life

variable {b b' b'' : Bool} {l l' before after : List Stage}

theorem append (h : Life b b' l) (h' : Life b' b'' l') : Life b b'' (l ++ l') := by
  induction h with
  | still b => exact h'
  | found _ ih => exact .found (ih h')
  | failed cause _ ih => exact .failed cause (ih h')
  | made _ ih => exact .made (ih h')

/-- Every start of building throws or is completed, and building is completed once, where the cell comes to be
built. -/
theorem counts (h : Life b b' l) :
    l.count .started = l.countP Stage.isThrew + l.count .completed ∧ b.toNat + l.count .completed = b'.toNat := by
  induction h with
  | still b => exact ⟨rfl, rfl⟩
  | found _ ih => simpa [Stage.isThrew] using ih
  | failed cause _ ih =>
    simp only [List.count_cons, List.countP_cons, Stage.isThrew] at ih ⊢
    simpa [Nat.add_right_comm] using ih
  | made _ ih =>
    simp only [List.count_cons, List.countP_cons, Stage.isThrew] at ih ⊢
    simp at ih ⊢
    omega

/-- What is noted of a cell that was built is that it is entered. -/
theorem eq_entered_of_built (h : Life true b l) {stage : Stage} (hs : stage ∈ l) : stage = .entered := by
  generalize hb : true = b₀ at h
  induction h with
  | still b => cases hs
  | found _ ih => exact (List.mem_cons.1 hs).elim id fun hs => ih hs hb
  | failed | made => cases hb

/-- Once building was completed it is never started again. -/
theorem pairwise (h : Life b b' l) : l.Pairwise fun earlier later => earlier = .completed → later ≠ .started := by
  induction h with
  | still b => exact .nil
  | found _ ih => simpa using ih
  | failed cause _ ih => simpa using ih
  | @made _ l h ih =>
    have hl : .started ∉ l := fun hs => absurd (h.eq_entered_of_built hs) (by decide)
    have hl' : ∀ stage ∈ l, stage ≠ .started := fun stage hs h => hl (h ▸ hs)
    simpa using ⟨hl', ih⟩

/-- A cell that is not built is built whenever it is entered. -/
theorem head?_of_entered (h : Life b b' l) (hb : b = false) (hl : l = before ++ .entered :: after)
    (hbefore : .completed ∉ before) : after.head? = some .started := by
  induction h generalizing before with
  | still b => simp at hl
  | found => cases hb
  | failed cause _ ih =>
    rcases before with _ | ⟨_, _ | ⟨_, _ | ⟨_, before⟩⟩⟩ <;> simp at hl hbefore
    · rw [← hl]
      rfl
    · exact ih rfl hl.2.2.2 hbefore.2.2.2
  | made _ ih =>
    rcases before with _ | ⟨_, _ | ⟨_, _ | ⟨_, before⟩⟩⟩ <;> simp at hl hbefore
    · rw [← hl]
      rfl
    · exact absurd hl.2.2.1 hbefore.2.2.1

end Life

/-- What was noted of a cell, whether it is built, and how often building it was started: every start of building
throws or is completed, which happens once and is the last start; until then building is started whenever the cell is
entered. -/
structure BuiltOnce (stages : List Stage) (built : Bool) (starts : Nat) : Prop where
  starts_eq : starts = stages.count .started
  started : stages.count .started = stages.countP Stage.isThrew + built.toNat
  completed : stages.count .completed = built.toNat
  last : stages.Pairwise fun earlier later => earlier = .completed → later ≠ .started
  again {before after : List Stage} (h : stages = before ++ .entered :: after) (hb : .completed ∉ before) :
    after.head? = some .started

theorem Life.builtOnce {b : Bool} {stages : List Stage} (h : Life false b stages) {starts : Nat}
    (hstarts : starts = stages.count .started) : BuiltOnce stages b starts where
  starts_eq := hstarts
  started := by
    have := h.counts
    simp only [Bool.toNat_false, Nat.zero_add] at this
    omega
  completed := by simpa using h.counts.2
  last := h.pairwise
  again hl := h.head?_of_entered rfl hl

/-! ## Watched runs -/

namespace Store

/-- How often building the cell at an address was started. -/
def startsAt (s : Store a) (k : Nat) : Nat := (s.cells[k]?.map Cell.starts).getD 0

variable {s s' : Store a}

theorem startsAt_of_getElem? {k : Nat} {c : Cell a} (hc : s.cells[k]? = some c) : s.startsAt k = c.starts := by
  rw [startsAt, hc]
  rfl

/-- Added cells are not built and were never started, as those that are not there. -/
theorem Adds.same (h : s.Adds s') (k : Nat) : s'.isBuilt k = s.isBuilt k ∧ s'.startsAt k = s.startsAt k := by
  rcases hc : s.cells[k]? with _ | c
  · rcases hc' : s'.cells[k]? with _ | c'
    · simp [isBuilt, startsAt, hc, hc']
    · obtain ⟨hstarts, hbuilt⟩ := h.fresh hc hc'
      simp [isBuilt, startsAt, hc, hc', hstarts, hbuilt]
  · rw [isBuilt, isBuilt, startsAt, startsAt, hc, h.getElem? hc]
    exact ⟨rfl, rfl⟩

/-- Changing one cell does not change others. -/
theorem modifyCell_same (s : Store a) (f : Cell a → Cell a) {k k' : Nat} (h : k' ≠ k) :
    (s.modifyCell k f).isBuilt k' = s.isBuilt k' ∧ (s.modifyCell k f).startsAt k' = s.startsAt k' := by
  simp only [isBuilt, startsAt, modifyCell, Array.getElem?_modify, if_neg h.symm, and_self]

end Store

namespace Grammar

/-- What a cell was built to, noting what becomes of the cell. -/
def forceWatched (address : Nat) : Run (Noted BuildEvent (Store a)) (Grammar a) := do
  match (← Run.getStore).store.cells[address]? with
  | none => Run.giveUp .unknownName
  | some c =>
    Run.note ⟨address, .entered⟩
    match c.built with
    | some p => return p
    | none =>
      Run.note ⟨address, .started⟩
      (Run.modifyStore (·.modifyCell address .start)).unnoted
      let p ← c.body.build.unnoted.notingFault fun cause => ⟨address, .threw cause⟩
      (Run.modifyStore (·.modifyCell address (·.finish p))).unnoted
      Run.note ⟨address, .completed⟩
      return p

end Grammar

/-- What was noted from one store to another are lives of its cells, with as many starts as are counted. -/
structure Lived (s : Store a) (events : List BuildEvent) (s' : Store a) : Prop where
  life (k : Nat) : Life (s.isBuilt k) (s'.isBuilt k) (BuildEvent.stages k events)
  starts (k : Nat) : s'.startsAt k = s.startsAt k + (BuildEvent.stages k events).count .started

/-- What was noted of a single cell. -/
theorem Lived.single {s s' : Store a} {k : Nat} {l : List Stage} (hlife : Life (s.isBuilt k) (s'.isBuilt k) l)
    (hstarts : s'.startsAt k = s.startsAt k + l.count .started)
    (hsame : ∀ k' ≠ k, s'.isBuilt k' = s.isBuilt k' ∧ s'.startsAt k' = s.startsAt k') :
    Lived s (l.map (BuildEvent.mk k)) s' := by
  have hstages (k' : Nat) : BuildEvent.stages k' (l.map (BuildEvent.mk k)) = if k = k' then l else [] := by
    by_cases hk : k = k' <;> simp [BuildEvent.stages, hk]
  refine ⟨fun k' => ?_, fun k' => ?_⟩ <;> rw [hstages] <;> split
  · next hk => exact hk ▸ hlife
  · next hk => exact (hsame k' (Ne.symm hk)).1 ▸ .still _
  · next hk => exact hk ▸ hstarts
  · next hk => exact (hsame k' (Ne.symm hk)).2

theorem Lived.append {s s' s'' : Store a} {events events' : List BuildEvent} (h : Lived s events s')
    (h' : Lived s' events' s'') : Lived s (events ++ events') s'' where
  life k := by
    rw [BuildEvent.stages, List.filterMap_append]
    exact (h.life k).append (h'.life k)
  starts k := by
    rw [BuildEvent.stages, List.filterMap_append, List.count_append, h'.starts, h.starts, Nat.add_assoc]
    rfl

/-- Building that threw ended the computation, and left the cell unbuilt. -/
def Threw (events : List BuildEvent) (s' : Store a) (ended : Except Fault α) : Prop :=
  ∀ {k cause}, ⟨k, .threw cause⟩ ∈ events →
    ended = .error cause ∧ s'.isBuilt k = false ∧ ∃ before, events = before ++ [⟨k, .threw cause⟩]

/-- The second computation does what the first does, and notes the lives of cells meanwhile. -/
def Run.Watches (x : Run (Store a) α) (x' : Run (Noted BuildEvent (Store a)) α) : Prop :=
  ∀ env notes, ∃ events,
    x'.execute (env.noting notes) = ((x.execute env).1, (x.execute env).2.noting (notes ++ events)) ∧
      Lived env.store events (x.execute env).2.store ∧ Threw events (x.execute env).2.store (x.execute env).1

/-- The computation builds no cell, and starts building none. -/
def Run.Idle (x : Run (Store a) α) : Prop :=
  ∀ (env : Env (Store a)) k, (x.execute env).2.store.isBuilt k = env.store.isBuilt k ∧
    (x.execute env).2.store.startsAt k = env.store.startsAt k

namespace Run.Idle

variable {β : Type} {x : Run (Store a) α}

theorem of_onlyAdds (h : x.OnlyAdds) : x.Idle := fun env => (h env).same

theorem modifyStore {f : Store a → Store a} (hf : ∀ s, (f s).cells = s.cells) : (Run.modifyStore f).Idle :=
  fun env k => by
    simp only [execute_modifyStore, Store.isBuilt, Store.startsAt, hf, and_self]

theorem bind {f : α → Run (Store a) β} (hx : x.Idle) (hf : ∀ v, (f v).Idle) : (x >>= f).Idle := fun env k => by
  have hx := hx env k
  rw [execute_bind]
  generalize x.execute env = ran at hx ⊢
  obtain ⟨_ | v, after⟩ := ran
  · exact hx
  · exact ⟨(hf v after k).1.trans hx.1, (hf v after k).2.trans hx.2⟩

end Run.Idle

namespace Run.Watches

variable {β : Type} {x : Run (Store a) α} {x' : Run (Noted BuildEvent (Store a)) α}

theorem unnoted (h : x.Idle) : x.Watches x.unnoted := fun env notes =>
  ⟨[], by rw [execute_unnoted, List.append_nil], ⟨fun k => (h env k).1 ▸ .still _, fun k => (h env k).2⟩, nofun⟩

theorem bind {f : α → Run (Store a) β} {f' : α → Run (Noted BuildEvent (Store a)) β} (hx : x.Watches x')
    (hf : ∀ v, (f v).Watches (f' v)) : (x >>= f).Watches (x' >>= f') := fun env notes => by
  obtain ⟨events, hrun, hlived, hthrew⟩ := hx env notes
  simp only [execute_bind, hrun]
  generalize x.execute env = ran at hlived hthrew ⊢
  obtain ⟨cause | v, after⟩ := ran
  · exact ⟨events, rfl, hlived, fun h => ⟨congrArg _ (Except.error.inj (hthrew h).1), (hthrew h).2⟩⟩
  · obtain ⟨events', hrun, hlived', hthrew'⟩ := hf v after (notes ++ events)
    rw [List.append_assoc] at hrun
    refine ⟨events ++ events', hrun, hlived.append hlived', fun h => ?_⟩
    rcases List.mem_append.1 h with h | h
    · cases (hthrew h).1
    · obtain ⟨hended, hbuilt, before, rfl⟩ := hthrew' h
      exact ⟨hended, hbuilt, events ++ before, List.append_assoc .. ▸ rfl⟩

end Run.Watches

/-- Watching is kept by all combinators. -/
def watching : Run.Congruence (Store a) (Noted BuildEvent (Store a)) where
  holds := Run.Watches
  ofExcept _ env notes := ⟨[], by rw [List.append_nil]; rfl, ⟨fun _ => .still _, fun _ => rfl⟩, nofun⟩
  bind := .bind

namespace Grammar

variable {env : Env (Store a)} {k : Nat} {c : Cell a}

theorem execute_forceWatched_of_built (hc : env.store.cells[k]? = some c) {q : Grammar a} (hq : c.built = some q)
    (notes : List BuildEvent) :
    (forceWatched k).execute (env.noting notes) = (.ok q, env.noting (notes ++ [⟨k, .entered⟩])) := by
  have hc' : (env.noting notes).store.store.cells[k]? = some c := hc
  simp only [forceWatched, Run.execute_bind, Run.execute_getStore, hc', Run.execute_note, hq]
  rfl

theorem execute_forceWatched_of_unbuilt (hc : env.store.cells[k]? = some c) (hq : c.built = none)
    (notes : List BuildEvent) :
    (forceWatched k).execute (env.noting notes) =
      match c.body.build.execute { env with store := env.store.modifyCell k .start } with
      | (.ok q, after) => (.ok q, Env.noting { after with store := after.store.modifyCell k (·.finish q) }
          (notes ++ [⟨k, .entered⟩, ⟨k, .started⟩, ⟨k, .completed⟩]))
      | (.error cause, after) =>
        (.error cause, after.noting (notes ++ [⟨k, .entered⟩, ⟨k, .started⟩, ⟨k, .threw cause⟩])) := by
  have hc' : (env.noting notes).store.store.cells[k]? = some c := hc
  simp only [forceWatched, Run.execute_bind, Run.execute_getStore, hc', Run.execute_note, hq, Run.execute_unnoted,
    Run.execute_modifyStore, Run.execute_notingFault, List.append_assoc]
  generalize c.body.build.execute { env with store := env.store.modifyCell k .start } = ran
  obtain ⟨cause | q, after⟩ := ran
  · simp [Env.noting]
  · simp [Run.execute_unnoted, Run.execute_modifyStore]

section

variable {s t : Store a} (hc : s.cells[k]? = some c) (hq : c.built = none) (hadds : (s.modifyCell k .start).Adds t)
include hc hq hadds

omit hc hq in
/-- Where building a cell was started, nothing became of other cells. -/
theorem same_of_started {k' : Nat} (hk : k' ≠ k) : t.isBuilt k' = s.isBuilt k' ∧ t.startsAt k' = s.startsAt k' := by
  rw [(hadds.same k').1, (hadds.same k').2]
  exact s.modifyCell_same _ hk

/-- Building a cell was started, and threw. -/
theorem lived_threw (cause : Fault) :
    Lived s ([.entered, .started, .threw cause].map (BuildEvent.mk k)) t ∧ t.isBuilt k = false := by
  have hc' := hadds.getElem? (Store.getElem?_modifyCell .start hc)
  have hbuilt : t.isBuilt k = false := by
    rw [Store.isBuilt_of_getElem? hc']
    simp [Cell.start, hq]
  refine ⟨.single ?_ ?_ fun _ => same_of_started hadds, hbuilt⟩
  · rw [Store.isBuilt_of_getElem? hc, hq, hbuilt]
    exact .failed cause (.still false)
  · rw [Store.startsAt_of_getElem? hc, Store.startsAt_of_getElem? hc']
    rfl

/-- Building a cell was started, and completed. -/
theorem lived_completed (q : Grammar a) :
    Lived s ([.entered, .started, .completed].map (BuildEvent.mk k)) (t.modifyCell k (·.finish q)) := by
  have hc' := Store.getElem?_modifyCell (·.finish q) (hadds.getElem? (Store.getElem?_modifyCell .start hc))
  refine .single ?_ ?_ fun k' hk => ?_
  · rw [Store.isBuilt_of_getElem? hc, hq, Store.isBuilt_of_getElem? hc']
    exact .made (.still true)
  · rw [Store.startsAt_of_getElem? hc, Store.startsAt_of_getElem? hc']
    rfl
  · obtain ⟨hbuilt, hstarts⟩ := same_of_started hadds hk
    exact ⟨(t.modifyCell_same _ hk).1.trans hbuilt, (t.modifyCell_same _ hk).2.trans hstarts⟩

end

/-- Finding what a cell was built to is watched. -/
theorem watches_force (k : Nat) :
    (force k : Run (Store a) (Grammar a)).Watches (forceWatched k) := fun env notes => by
  rcases hc : env.store.cells[k]? with _ | c
  · have hrun : (force k).execute env = (.error .unknownName, env) := by
      simp [force, Run.execute_bind, hc]
    have hc' : (env.noting notes).store.store.cells[k]? = none := hc
    refine ⟨[], ?_, ?_⟩
    · rw [hrun, List.append_nil]
      simp [forceWatched, Run.execute_bind, hc']
    · rw [hrun]
      exact ⟨⟨fun _ => .still _, fun _ => rfl⟩, nofun⟩
  rcases hq : c.built with _ | q
  · rw [execute_force_of_unbuilt hc hq, execute_forceWatched_of_unbuilt hc hq]
    have hadds := onlyAdds_build c.body { env with store := env.store.modifyCell k .start }
    generalize c.body.build.execute { env with store := env.store.modifyCell k .start } = ran at hadds
    obtain ⟨cause | q, after⟩ := ran
    · obtain ⟨hlived, hbuilt⟩ := lived_threw hc hq hadds cause
      refine ⟨_, rfl, hlived, fun h => ?_⟩
      simp at h
      obtain ⟨rfl, rfl⟩ := h
      exact ⟨rfl, hbuilt, [⟨_, .entered⟩, ⟨_, .started⟩], rfl⟩
    · exact ⟨_, rfl, lived_completed hc hq hadds q, fun h => by simp at h⟩
  · rw [execute_force_of_built hc hq, execute_forceWatched_of_built hc hq]
    refine ⟨_, rfl, .single (l := [.entered]) ?_ rfl fun _ _ => ⟨rfl, rfl⟩, fun h => by simp at h⟩
    rw [Store.isBuilt_of_getElem? hc, hq]
    exact .found (.still true)

end Grammar

/-! ## Watched parsers -/

/-- Computations that leave the store as it is. -/
def Run.storeKeeping : Run.Congruence σ σ where
  holds x _ := ∀ env, (x.execute env).2.store = env.store
  ofExcept _ _ := rfl
  bind {_ _ x _ f _} hx hf env := by
    rw [Run.execute_bind, ← hx env]
    generalize x.execute env = ran
    obtain ⟨_ | v, after⟩ := ran
    · rfl
    · exact hf v after

/-- A leaf leaves the store as it is. -/
theorem Leaf.store_execute (l : Leaf a) (xs : List a.Carrier) (i : Nat) (env : Env σ) :
    ((l.parser xs i).execute env).2.store = env.store :=
  Leaf.carries (K := Run.storeKeeping) (fun _ _ => rfl) l xs i env

theorem Leaf.idle (l : Leaf a) (xs : List a.Carrier) (i : Nat) :
    (l.parser xs i : Run (Store a) (Result Value)).Idle := fun env k => by
  rw [l.store_execute]
  exact ⟨rfl, rfl⟩

/-- Builds in the store and finds what is there, noting what becomes of cells. -/
def Interpreter.watcher : Interpreter (Noted BuildEvent (Store a)) a where
  leaf l xs i := (l.parser xs i).unnoted
  make p := p.build.unnoted
  find
    | .cell address => Grammar.forceWatched address
    | p => p.found.unnoted

namespace Grammar

theorem onlyAdds_found {d : Grammar a} (hd : ∀ k, d ≠ .cell k) : d.found.OnlyAdds := by
  have hF := building_onlyAdds (a := a)
  cases d with
  | cell k => exact absurd rfl (hd k)
  | call name => exact hF.bind hF.getStore fun _ => hF.bind (hF.ofExcept _) hF.build
  | declared address =>
    refine hF.bind hF.getStore fun s => ?_
    split
    · exact hF.ofExcept _
    · exact hF.ofExcept _
    · exact hF.ofExcept _
    · exact hF.pure _
  | _ => exact hF.build _

/-- Finding what a deferred part stands for is watched. -/
theorem watches_found (d : Grammar a) : d.found.Watches (Interpreter.watcher.find d) := by
  cases d with
  | cell k => exact watches_force k
  | _ => exact .unnoted (.of_onlyAdds (onlyAdds_found nofun))

/-- The parser of a description is watched. -/
theorem watches_parserWithin (limit : Nat) (p : Grammar a) (xs : List a.Carrier) (i : Nat) :
    (p.parserWithin limit xs i).Watches (Interpreter.watcher.parserWithin limit p xs i) := by
  rw [← Interpreter.parserWithin_plain]
  have hrecords : (watching (a := a)).Records := fun e env notes =>
    ⟨[], by rw [List.append_nil]; rfl, ⟨fun _ => .still _, fun _ => rfl⟩, nofun⟩
  have hleaf (l : Leaf a) : watching.Carries (Interpreter.plain.leaf l) (Interpreter.watcher.leaf l) := fun xs i =>
    .unnoted (l.idle xs i)
  have hmake (p : Grammar a) : watching.holds (Interpreter.plain.make p) (Interpreter.watcher.make p) :=
    .unnoted (.of_onlyAdds (onlyAdds_build p))
  exact Interpreter.carries_parserWithin hrecords hleaf hmake watches_found limit p xs i

end Grammar

/-! ## Watched sessions -/

namespace Session

/-- The step, noting what becomes of cells. -/
def Step.watched : Step a → Run (Noted BuildEvent (Store a)) Unit
  | invoke p xs i => do
    let _ ← Interpreter.entering (Interpreter.watcher.parserWithin Grammar.nestingLimit) p.build.unnoted xs i
  | step => step.run.unnoted

/-- The environment after some watched steps. -/
def watch (steps : List (Step a)) (env : Env (Noted BuildEvent (Store a))) : Env (Noted BuildEvent (Store a)) :=
  steps.foldl (fun env step => (step.watched.execute env).2) env

theorem cells_drop (s : Store a) (name : Bytes) : (s.drop name).cells = s.cells := by
  unfold Store.drop
  split <;> rfl

/-- A step is watched. -/
theorem Step.watches (step : Step a) : step.run.Watches step.watched := by
  have build (p : Grammar a) : p.build.Idle := .of_onlyAdds (Grammar.onlyAdds_build p)
  cases step with
  | invoke p xs i =>
    refine Run.Watches.bind (Run.Watches.bind (.unnoted (build p)) fun q => ?_) fun _ => watching.pure _
    exact q.watches_parserWithin _ xs i
  | define name p => exact .unnoted (.bind (build p) fun _ => .modifyStore fun _ => rfl)
  | declare name => exact .unnoted (.modifyStore (cells_drop · name))
  | become name p =>
    have hF := Grammar.building_onlyAdds (a := a)
    exact .unnoted (.bind (build p) fun _ => .bind (.of_onlyAdds hF.getStore) fun _ =>
      .bind (.of_onlyAdds (hF.ofExcept _)) fun _ => .modifyStore fun _ => rfl)
  | drop name => exact .unnoted (.modifyStore (cells_drop · name))

/-- Watched steps do what the steps do, and what is noted meanwhile are the lives of cells. -/
theorem watch_eq (steps : List (Step a)) (env : Env (Store a)) (notes : List BuildEvent) :
    ∃ events, watch steps (env.noting notes) = (after steps env).noting (notes ++ events) ∧
      Lived env.store events (after steps env).store := by
  induction steps generalizing env notes with
  | nil => exact ⟨[], by rw [List.append_nil]; rfl, fun _ => .still _, fun _ => rfl⟩
  | cons step steps ih =>
    obtain ⟨events, hrun, hlived, -⟩ := step.watches env notes
    obtain ⟨events', hrest, hlived'⟩ := ih (step.run.execute env).2 (notes ++ events)
    refine ⟨events ++ events', ?_, hlived.append hlived'⟩
    rw [← List.append_assoc]
    exact (congrArg (fun ran => watch steps ran.2) hrun).trans hrest

end Session

end Furthest
