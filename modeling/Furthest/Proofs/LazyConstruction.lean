import Mathlib.Data.List.Infix
import Furthest.Proofs.BuildEvents
import Furthest.Proofs.Reopening

/-!
# Lazy construction

After every history of a session its cells hold what was linked of their bodies when they were built
(`Session.remembers_after`). If thunks are pure, but for throwing, the parser of a cell thus ends as what building its
body returns, whatever was built before: a session beside itself (`reopening`) has that of every store.

Main statement: `lazy_construction`.
-/

namespace Furthest

variable {α : Type} {a : Alphabet}

/-! ## What a history leaves -/

/-- Building builds no cell, and what is built is within the store. -/
theorem build_within {p : Grammar a} (hp : p.Plain) (env : Env (Store a)) (hs : env.store.Scoped) :
    ∃ ended last, p.build.execute env = (ended, last) ∧
      (exactly env.store).Later env.store.Grows env.store last.store ∧
      (∀ k, last.store.isBuilt k = env.store.isBuilt k) ∧ ∀ q, ended = .ok q → q.Within last.store.cells.size := by
  obtain ⟨ended, last, hrun, hlater, hended⟩ := build_exactly hp env hs
  refine ⟨ended, last, hrun, hlater, fun k => ?_, fun q hq => ?_⟩
  · have hsame := ((Grammar.onlyAdds_build p env).same k).1
    rwa [hrun] at hsame
  · subst hq
    generalize env.store.naming.link p = e at hended
    cases hended with
    | ok hq => exact reopening.within_of_unfolds hlater.grows.size_le hq

namespace Session

/-- A step only builds, and then may change what names stand for. Only invocations build cells. -/
theorem Step.later (step : Step a) (hstep : ∀ p ∈ step.described, p.Source) (env : Env (Store a))
    (hs : env.store.Scoped) :
    ∃ t, (exactly env.store).Later env.store.Grows env.store t ∧
      (step.run.execute env).2.store.cells = t.cells ∧ (step.run.execute env).2.store.Scoped ∧
      (step.IsInvoke → (step.run.execute env).2.store = t) ∧
      (¬step.IsInvoke → ∀ k, t.isBuilt k = env.store.isBuilt k) := by
  have still : (exactly env.store).Later env.store.Grows env.store env.store := ⟨.refl _, inv_exactly hs⟩
  cases step with
  | invoke p xs i =>
    have hlater := (invoke_exactly (hstep p rfl).plain env hs Grammar.nestingLimit xs i).1
    rw [Step.execute_run_invoke]
    exact ⟨_, hlater, rfl, hs.later hlater, fun _ => rfl, fun h => (h trivial).elim⟩
  | define name p =>
    obtain ⟨ended, last, hrun, hlater, hsame, hwithin⟩ := build_within (hstep p rfl).plain env hs
    refine ⟨last.store, hlater, ?_⟩
    simp only [Step.run, Session.define, Run.execute_bind, hrun]
    cases ended with
    | error cause => exact ⟨rfl, hs.later hlater, False.elim, fun _ => hsame⟩
    | ok q => exact ⟨rfl, (hs.later hlater).define name (hwithin q rfl), False.elim, fun _ => hsame⟩
  | declare name =>
    exact ⟨_, still, cells_drop _ name, hs.declare name, False.elim, fun _ _ => rfl⟩
  | become name p =>
    obtain ⟨ended, last, hrun, hlater, hsame, hwithin⟩ := build_within (hstep p rfl).plain env hs
    refine ⟨last.store, hlater, ?_⟩
    simp only [Step.run, Session.become, Run.execute_bind, hrun]
    cases ended with
    | error cause => exact ⟨rfl, hs.later hlater, False.elim, fun _ => hsame⟩
    | ok q =>
      simp only [Run.execute_getStore, Run.execute_ofExcept]
      rcases Store.resolve last.store.names name with cause | k
      · exact ⟨rfl, hs.later hlater, False.elim, fun _ => hsame⟩
      · have hbound (q') (h : Declaration.bound q = .bound q') : q'.Within last.store.cells.size := by
          cases h
          exact hwithin q rfl
        exact ⟨rfl, (hs.later hlater).setDeclaration k hbound, False.elim, fun _ => hsame⟩
  | drop name =>
    exact ⟨_, still, cells_drop _ name, hs.drop name, False.elim, fun _ _ => rfl⟩

/-- A description was linked to another just before some invocation of a history. -/
def LinkedBefore (steps : List (Step a)) (env : Env (Store a)) (p l : Grammar a) : Prop :=
  ∃ earlier step, step.IsInvoke ∧ earlier ++ [step] <+: steps ∧ (after earlier env).store.naming.link p = .ok l

variable {rules : List (Bytes × Grammar a)} {level : Level} {steps : List (Step a)}

theorem scoped_initial (hrules : ∀ r ∈ rules, r.2.Source) (level : Level) : (initial rules level).store.Scoped where
  rules {name p} hp := by
    obtain ⟨_, _, hrules', -⟩ := List.lookup_eq_some_iff.1 hp
    exact (hrules (name, p) (by rw [show rules = _ from hrules']; simp)).plain
  definitions := nofun
  declarations := by simp [initial, Store.ofRules]
  bodies := by simp [initial, Store.ofRules]
  built := by simp [initial, Store.ofRules]

/-- After all steps of a history, cells were built to what was linked of their bodies before some invocation. -/
theorem remembers_after (hrules : ∀ r ∈ rules, r.2.Source) (level : Level)
    (hsteps : ∀ step ∈ steps, ∀ p ∈ step.described, p.Source) :
    (after steps (initial rules level)).store.Remembers (LinkedBefore steps (initial rules level)) := by
  induction steps using List.reverseRecOn with
  | nil => exact ⟨scoped_initial hrules level, by simp [after, initial, Store.ofRules]⟩
  | append_singleton steps step ih =>
    have ih := ih fun s hs => hsteps s (List.mem_append_left _ hs)
    have hstep := hsteps step (by simp)
    rw [after_append]
    show (step.run.execute _).2.store.Remembers _
    obtain ⟨t, hlater, hcells, hscoped, -, hsame⟩ := step.later hstep _ ih.closed
    refine .of_cells (ih.later hlater ?_ fun k hk hk' p l hl => ?_) hcells hscoped
    · rintro p l ⟨earlier, step', hinvoke, hprefix, hl⟩
      exact ⟨earlier, step', hinvoke, hprefix.trans (List.prefix_append ..), hl⟩
    · by_cases hinvoke : step.IsInvoke
      · exact ⟨steps, step, hinvoke, List.prefix_rfl, hl⟩
      · rw [hsame hinvoke, hk] at hk'
        cases hk'

/-- What was linked of the body of a cell before any invocation is what is linked of it now, if that is not given
up: thunks are pure, but for throwing. -/
def Steady (steps : List (Step a)) (start : Env (Store a)) : Prop :=
  ∀ (k : Nat) (c : Cell a), (after steps start).store.cells[k]? = some c → ∀ l l', LinkedBefore steps start c.body l →
    (after steps start).store.naming.link c.body = .ok l' → l = l'

end Session

/-- What a cell was built to is there, but building its body would throw now. -/
def Env.Throws (env : Env (Store a)) (cause : Fault) : Prop :=
  ∃ (k : Nat) (c : Cell a), env.store.cells[k]? = some c ∧ c.built.isSome ∧ c.body.build.outcome env = .error cause

/-- The second outcome is the first, unless it is that of a thunk that throws although it returned before. -/
def Env.Agrees (env : Env (Store a)) (o o' : Except Fault (Result Value)) : Prop :=
  o = o' ∨ ∃ cause, env.Throws cause ∧ o' = .error cause

namespace Session

variable {rules : List (Bytes × Grammar a)} {level : Level} {steps : List (Step a)}

/-- The session beside itself where it stands for the same, with all that is built or less. -/
theorem inv_after (hrules : ∀ r ∈ rules, r.2.Source) (level : Level)
    (hsteps : ∀ step ∈ steps, ∀ p ∈ step.described, p.Source) (hsteady : Steady steps (initial rules level))
    {s : Store a} (hg : s.Grows (after steps (initial rules level)).store)
    (hsize : (after steps (initial rules level)).store.cells.size ≤ s.cells.size) :
    (reopening s (fun _ => False) (after steps (initial rules level)).Throws).Inv s.Grows
      (after steps (initial rules level)).store := by
  have hremembers := remembers_after hrules level hsteps
  refine inv_reopening hremembers.closed hg hsize fun {k c q} hc hq => ?_
  obtain ⟨l, hl, hopens⟩ := hremembers.built hc hq
  refine ⟨l, hopens, ?_⟩
  rw [← hg.naming]
  rcases hlink : (after steps (initial rules level)).store.naming.link c.body with cause | l'
  · refine .inr ⟨cause, ⟨k, c, hc, by rw [hq]; rfl, ?_⟩, rfl⟩
    exact (build_outcome_eq_error_iff (hremembers.closed.bodies hc) _ hremembers.closed).2 hlink
  · exact .inl (congrArg _ (hsteady k c hc l l' hl hlink).symm)

/-- Invocations do not change what names stand for. -/
theorem naming_after_invocations {invocations : List (Step a)} (hinvocations : ∀ step ∈ invocations, step.IsInvoke)
    (hsteps : ∀ step ∈ invocations, ∀ p ∈ step.described, p.Source) {env : Env (Store a)} (hs : env.store.Scoped) :
    (after invocations env).store.naming = env.store.naming := by
  induction invocations generalizing env with
  | nil => rfl
  | cons step invocations ih =>
    obtain ⟨hstep, hrest⟩ := List.forall_mem_cons.1 hsteps
    obtain ⟨hinvoke, hinvocations⟩ := List.forall_mem_cons.1 hinvocations
    obtain ⟨t, hlater, -, hscoped, hstore, -⟩ := step.later hstep env hs
    have hnaming : (step.run.execute env).2.store.naming = env.store.naming := hstore hinvoke ▸ hlater.grows.naming
    exact (ih hinvocations hrest hscoped).trans hnaming

section

variable (hrules : ∀ r ∈ rules, r.2.Source) (hsteps : ∀ step ∈ steps, ∀ p ∈ step.described, p.Source)
variable {setup invocations : List (Step a)} (h : steps = setup ++ invocations)
variable (hsetup : ∀ step ∈ setup, ¬step.IsInvoke) (hinvocations : ∀ step ∈ invocations, step.IsInvoke)
include hrules hsteps h hsetup hinvocations

/-- In a history that first names what it invokes, descriptions stay linked to what they were linked to. -/
theorem LinkedBefore.link_eq {p l : Grammar a} (hl : LinkedBefore steps (initial rules level) p l) :
    (after steps (initial rules level)).store.naming.link p = .ok l := by
  obtain ⟨earlier, step, hinvoke, hprefix, hl⟩ := hl
  -- An invocation comes after all of the setup.
  have hlonger : setup <+: earlier := by
    rcases List.prefix_or_prefix_of_prefix hprefix ⟨invocations, h.symm⟩ with hle | hle
    · exact absurd hinvoke (hsetup step (hle.subset (by simp)))
    · rcases List.prefix_concat_iff.1 hle with rfl | hle
      · exact absurd hinvoke (hsetup step (by simp))
      · exact hle
  obtain ⟨middle, rfl⟩ := hlonger
  obtain ⟨rest, rfl⟩ := hprefix
  have hrest : invocations = middle ++ [step] ++ rest := by
    simpa only [List.append_assoc, List.append_cancel_left_eq, eq_comm] using h
  have hlater : ∀ step' ∈ [step] ++ rest, step' ∈ invocations := by
    rw [hrest, List.append_assoc]
    exact fun _ => List.mem_append_right _
  have hclosed : (after (setup ++ middle) (initial rules level)).store.Scoped :=
    (remembers_after hrules level fun s hs => hsteps s (List.mem_append_left _ (List.mem_append_left _ hs))).closed
  rw [List.append_assoc, after_append,
    naming_after_invocations (fun s hs => hinvocations s (hlater s hs)) ?_ hclosed, hl]
  exact fun s hs => hsteps s (h ▸ List.mem_append_right _ (hlater s hs))

/-- In a history that first names what it invokes, thunks are pure, and none throws that returned before. -/
theorem steady_of_setup :
    Steady steps (initial rules level) ∧ ∀ cause, ¬(after steps (initial rules level)).Throws cause := by
  have linked {p l} (hl : LinkedBefore steps (initial rules level) p l) :=
    hl.link_eq hrules hsteps h hsetup hinvocations
  refine ⟨fun k c hc l l' hl hl' => Except.ok.inj ((linked hl).symm.trans hl'), ?_⟩
  rintro cause ⟨k, c, hc, hq, herror⟩
  have hremembers := remembers_after hrules level hsteps
  obtain ⟨q, hq⟩ := Option.isSome_iff_exists.1 hq
  obtain ⟨l, hl, -⟩ := hremembers.built hc hq
  rw [build_outcome_eq_error_iff (hremembers.closed.bodies hc) _ hremembers.closed, linked hl] at herror
  cases herror

end

end Session

/-- Cells are built once. After any history of a session, what was noted of every cell is that each start of building
threw or was completed, that building was completed at most once and never started again, and that it was started
whenever the cell was entered before. A step in which building throws is given up with that cause, and leaves the cell
unbuilt.

If thunks are pure, but for throwing, the parser of a cell ends as what its thunk returns, invoked directly, whatever
else is built; and so does every invocation, whether cells are built or not. An exception is what a thunk throws that
did not throw when its cell was built; there is none in histories that name what they invoke first. -/
theorem lazy_construction {rules : List (Bytes × Grammar a)} (hrules : ∀ r ∈ rules, r.2.Source) (level : Level)
    {steps : List (Session.Step a)} (hsteps : ∀ step ∈ steps, ∀ p ∈ step.described, p.Source) :
    let start := Session.initial rules level
    let env := Session.after steps start
    (∃ events, Session.watch steps (start.noting []) = env.noting events ∧
      ∀ k, BuiltOnce (BuildEvent.stages k events) (env.store.isBuilt k) (env.store.startsAt k)) ∧
    (∀ earlier step, earlier ++ [step] <+: steps →
      let before := Session.after earlier start
      let (ended, last) := step.run.execute before
      ∃ events, step.watched.execute (before.noting []) = (ended, last.noting events) ∧
        Threw events last.store ended) ∧
    (Session.Steady steps start →
      (∀ k c, env.store.cells[k]? = some c → ∀ limit xs i,
        let entered := ((Grammar.cell k).parserWithin (limit + 1) xs i).outcome env
        let returned (env : Env (Store a)) := (Session.invokeWithin limit c.body xs i).outcome env
        env.Agrees entered (returned env) ∧
          env.Agrees entered (returned { env with store := env.store.forgotten })) ∧
      ∀ p, p.Source → ∀ limit xs i,
        let invoked (env : Env (Store a)) := (Session.invokeWithin limit p xs i).outcome env
        env.Agrees (invoked env) (invoked { env with store := env.store.forgotten })) ∧
    ∀ setup invocations, steps = setup ++ invocations → (∀ step ∈ setup, ¬step.IsInvoke) →
      (∀ step ∈ invocations, step.IsInvoke) → Session.Steady steps start ∧ ∀ cause, ¬env.Throws cause := by
  intro start env
  have hclosed : env.store.Scoped := (Session.remembers_after hrules level hsteps).closed
  refine ⟨?_, fun earlier step _ => ?_, fun hsteady => ?_, fun setup invocations h =>
    Session.steady_of_setup hrules hsteps h⟩
  · obtain ⟨events, hwatch, hlived⟩ := Session.watch_eq steps start []
    refine ⟨events, hwatch, fun k => (hlived.life k).builtOnce ?_⟩
    rw [hlived.starts k]
    exact Nat.zero_add _
  · obtain ⟨events, hrun, -, hthrew⟩ := step.watches (Session.after earlier start) []
    exact ⟨events, hrun, hthrew⟩
  · have hinv := Session.inv_after hrules level hsteps hsteady (.refl _) (Nat.le_refl _)
    have hinv' := Session.inv_after hrules level hsteps hsteady (.forgotten _) env.store.size_forgotten.ge
    have agrees {l o o' : Except Fault (Result Value)} (h' : o' = l)
        (h : l = o ∨ ∃ cause, env.Throws cause ∧ l = .error cause) : env.Agrees o o' :=
      h' ▸ h.imp_left Eq.symm
    refine ⟨fun k c hc limit xs i => ⟨?_, ?_⟩, fun p hp limit xs i => ?_⟩
    · exact agrees (invoke_exactly (hclosed.bodies hc) env hclosed limit xs i).2
        (cell_outcome hclosed hinv limit xs i hc)
    · exact agrees (invoke_exactly (hclosed.bodies hc) _ hclosed.forgotten limit xs i).2
        (cell_outcome hclosed.forgotten hinv' limit xs i hc)
    · exact agrees (invoke_exactly hp.plain _ hclosed.forgotten limit xs i).2
        (invoke_outcome hclosed.forgotten hinv' limit xs i hp.plain)

/-- A cell is entered when its thunk throws, when it does not, and when it is built. -/
theorem lazy_construction_of_retried :
    let steps : List (Session.Step .bytes) :=
      [.define (ascii "cell") (.lazy none (.ref (ascii "part"))), .invoke (.ref (ascii "cell")) [] 0,
        .define (ascii "part") (.succeed .unit), .invoke (.ref (ascii "cell")) [] 0,
        .invoke (.ref (ascii "cell")) [] 0]
    let env := Session.after steps (Session.initial [] .off)
    (∀ step ∈ steps, ∀ p ∈ step.described, p.Source) ∧
      (∃ events, Session.watch steps ((Session.initial [] .off).noting []) = env.noting events ∧
        BuiltOnce (BuildEvent.stages 0 events) true 2) ∧
      Session.Steady steps (Session.initial [] .off) ∧
      env.Agrees (((Grammar.cell 0).parserWithin 2 [] 0).outcome env)
        ((Session.invokeWithin 1 (.ref (ascii "part")) [] 0).outcome env) := by
  intro steps env
  have hsteps : ∀ step ∈ steps, ∀ p ∈ step.described, p.Source := by
    simp [steps, Session.Step.described, Grammar.Source, Grammar.Mentions, Grammar.ByName, Grammar.succeed]
  have hcells : env.store.cells = #[⟨none, .ref (ascii "part"), 2, some (.succeed .unit)⟩] := rfl
  have hlink (earlier : List (Session.Step .bytes)) (h : earlier <+: steps) (l : Grammar .bytes)
      (hl : (Session.after earlier (Session.initial [] .off)).store.naming.link (.ref (ascii "part")) = .ok l) :
      l = .succeed .unit := by
    have hearlier := (List.mem_inits _ _).2 h
    simp only [steps, List.inits, List.map, List.mem_cons, List.not_mem_nil, or_false] at hearlier
    rcases hearlier with rfl | rfl | rfl | rfl | rfl | rfl
    · exact nomatch (show Except.error Fault.unknownName = Except.ok l from hl)
    · exact nomatch (show Except.error Fault.unknownName = Except.ok l from hl)
    · exact nomatch (show Except.error Fault.unknownName = Except.ok l from hl)
    all_goals exact (Except.ok.inj hl).symm
  have hsteady : Session.Steady steps (Session.initial [] .off) := fun k c hc l l' => by
    rintro ⟨earlier, step, -, hprefix, hl⟩ hl'
    rw [show (Session.after steps (Session.initial [] .off)).store.cells = _ from hcells] at hc
    obtain ⟨rfl, rfl⟩ : k = 0 ∧ (⟨none, .ref (ascii "part"), 2, some (.succeed .unit)⟩ : Cell .bytes) = c := by
      rcases k with _ | k
      · exact ⟨rfl, Option.some.inj hc⟩
      · simp at hc
    rw [hlink earlier ((List.prefix_append ..).trans hprefix) l hl, hlink steps List.prefix_rfl l' hl']
  obtain ⟨⟨events, hwatch, hcells⟩, -, hagrees, -⟩ := @lazy_construction _ [] nofun .off _ hsteps
  refine ⟨hsteps, ⟨events, hwatch, ?_⟩, hsteady, ?_⟩
  · exact hcells 0
  · exact ((hagrees hsteady).1 0 _ rfl 1 [] 0).1

end Furthest
