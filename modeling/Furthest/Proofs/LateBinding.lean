import Furthest.Proofs.BuildEvents
import Furthest.Proofs.Declarations
import Furthest.Proofs.Notes

/-!
# Late binding

What an invocation does depends on the names that it looks up and on the declarations that it reaches, and on no other
names and declarations (`Run.Framed`). A reaching invocation does what the invocation does, and notes which these are:
`Interpreter.reacher`, `Run.Reaches`. What is found of a declaration is found when it is reached; where nothing is
found, the invocation is given up, whatever combinators stand around it.

Main statement: `declarations_bind_late`, which has that what is found is what the history of the session tells.
-/

namespace Furthest

variable {α β : Type} {a : Alphabet}

/-! ## Other names and declarations -/

/-- The store with other names and declarations. -/
def Store.redeclared (s : Store a) (ns : List (Bytes × Nat)) (ds : Array (Declaration a)) : Store a :=
  { s with names := ns, declarations := ds }

/-- The environment with other names and declarations. -/
def Env.redeclared (env : Env (Store a)) (ns : List (Bytes × Nat)) (ds : Array (Declaration a)) : Env (Store a) :=
  { env with store := env.store.redeclared ns ds }

/-- The computation does the same with some other names and whatever the declarations are, and changes neither. -/
def Run.Framed (x : Run (Store a) α) (env : Env (Store a)) (ns : List (Bytes × Nat)) : Prop :=
  (x.execute env).2.store.names = env.store.names ∧ (x.execute env).2.store.declarations = env.store.declarations ∧
    ∀ ds, x.execute (env.redeclared ns ds) = ((x.execute env).1, (x.execute env).2.redeclared ns ds)

namespace Run.Framed

variable {x : Run (Store a) α} {env : Env (Store a)} {ns : List (Bytes × Nat)}

theorem ofExcept (e : Except Fault α) : (Run.ofExcept e : Run (Store a) α).Framed env ns := ⟨rfl, rfl, fun _ => rfl⟩

theorem pure (v : α) : (Pure.pure v : Run (Store a) α).Framed env ns := ofExcept _

theorem bind {f : α → Run (Store a) β} (hx : x.Framed env ns)
    (hf : ∀ v after, after.store.names = env.store.names → (f v).Framed after ns) : (x >>= f).Framed env ns := by
  obtain ⟨hnames, hdeclarations, hx⟩ := hx
  simp only [Framed, execute_bind, hx]
  generalize x.execute env = ran at hnames hdeclarations ⊢
  obtain ⟨cause | v, after⟩ := ran
  · exact ⟨hnames, hdeclarations, fun _ => rfl⟩
  · obtain ⟨hnames', hdeclarations', hf⟩ := hf v after hnames
    exact ⟨hnames'.trans hnames, hdeclarations'.trans hdeclarations, hf⟩

/-- The computation goes on by what is in the store, names and declarations apart. -/
theorem look {g : Store a → Run (Store a) α} (hg : (g env.store).Framed env ns)
    (hsame : ∀ ds, g (env.redeclared ns ds).store = g env.store) : (Run.getStore >>= g).Framed env ns := by
  simp only [Framed, execute_bind, execute_getStore, hsame]
  exact hg

theorem modifyStore {f : Store a → Store a} (hf : ∀ s ns ds, f (s.redeclared ns ds) = (f s).redeclared ns ds) :
    (Run.modifyStore f).Framed env ns := by
  have hself : f env.store = (f env.store).redeclared env.store.names env.store.declarations := hf ..
  refine ⟨(congrArg Store.names hself :), (congrArg Store.declarations hself :), fun ds => ?_⟩
  rw [execute_modifyStore, execute_modifyStore]
  exact congrArg (fun s => (Except.ok (), (⟨env.log, s⟩ : Env (Store a)))) (hf env.store ns ds)

end Run.Framed

namespace Grammar

mutual

/-- The names of which declarations are looked up when the description is built. -/
def forwards : Grammar a → List Bytes
  | .forward name => [name]
  | .andThen p q | .skip p q | .sepBy p q _ | .manyUntil p q _ => p.forwards ++ q.forwards
  | .tuple ps | .sequence ps | .alt ps => forwardsAll ps
  | .times p _ | .map p _ | .bind p _ | .mark p | .desc p _ | .shouldFail p _ | .peek p | .traced p _ => p.forwards
  | _ => []

def forwardsAll : List (Grammar a) → List Bytes
  | [] => []
  | p :: ps => p.forwards ++ forwardsAll ps

end

theorem framed_allocate (id : Option Bytes) (p : Grammar a) {env : Env (Store a)} {ns : List (Bytes × Nat)} :
    (allocate id p).Framed env ns := ⟨rfl, rfl, fun _ => rfl⟩

/-- Some names stand for the same in two tables. -/
def AgreeOn (names : List Bytes) (ns ns' : List (Bytes × Nat)) : Prop :=
  ∀ name ∈ names, ns.lookup name = ns'.lookup name

section

variable {l l' : List Bytes} {ns ns' : List (Bytes × Nat)} (h : AgreeOn (l ++ l') ns ns')
include h

theorem AgreeOn.left : AgreeOn l ns ns' := fun name hname => h name (List.mem_append_left _ hname)

theorem AgreeOn.right : AgreeOn l' ns ns' := fun name hname => h name (List.mem_append_right _ hname)

end

mutual

/-- Building looks up the names that are mentioned, and no others. -/
theorem framed_build {ns : List (Bytes × Nat)} : (p : Grammar a) → (env : Env (Store a)) →
    AgreeOn p.forwards ns env.store.names → p.build.Framed env ns
  | .leaf _, _, _ | .call _, _, _ | .cell _, _, _ | .declared _, _, _ => .pure _
  | .raise _, _, _ => .ofExcept _
  | .andThen p q, env, h | .skip p q, env, h =>
    .bind (framed_build p env h.left) fun _ _ hn => .bind (framed_build q _ (hn ▸ h.right)) fun _ _ _ => .pure _
  | .tuple ps, env, h | .sequence ps, env, h | .alt ps, env, h => .bind (framed_buildAll ps env h) fun _ _ _ => .pure _
  | .times p _, env, h => .bind (framed_build p env h) fun _ _ _ => .bind (.ofExcept _) fun _ _ _ => .pure _
  | .sepBy p q _, env, h | .manyUntil p q _, env, h =>
    .bind (framed_build p env h.left) fun _ _ hn => .bind (framed_build q _ (hn ▸ h.right)) fun _ _ _ =>
      .bind (.ofExcept _) fun _ _ _ => .pure _
  | .map p _, env, h | .bind p _, env, h | .mark p, env, h | .desc p _, env, h | .shouldFail p _, env, h
  | .peek p, env, h | .traced p _, env, h => .bind (framed_build p env h) fun _ _ _ => .pure _
  | .lazy id p, _, _ => framed_allocate id p
  | .rule _, _, _ => .look (.bind (.ofExcept _) fun _ _ _ => framed_allocate none _) fun _ => rfl
  | .ref _, _, _ => .look (.ofExcept _) fun _ => rfl
  | .forward name, env, h => .look (.bind (.ofExcept _) fun _ _ _ => .pure _) fun ds => by
    have hname : (env.redeclared ns ds).store.names.lookup name = env.store.names.lookup name :=
      h name (List.mem_singleton_self _)
    simp only [Store.resolve, hname]

theorem framed_buildAll {ns : List (Bytes × Nat)} : (ps : List (Grammar a)) → (env : Env (Store a)) →
    AgreeOn (forwardsAll ps) ns env.store.names → (buildAll ps).Framed env ns
  | [], _, _ => .pure _
  | p :: ps, env, h =>
    .bind (framed_build p env h.left) fun _ _ hn => .bind (framed_buildAll ps _ (hn ▸ h.right)) fun _ _ _ => .pure _

end

/-- The names that are looked up where what a deferred part stands for is found. -/
def lookups (s : Store a) : Grammar a → List Bytes
  | .call name => match s.rules.lookup name with
    | some p => p.forwards
    | none => []
  | .cell k => match s.cells[k]? with
    | some ⟨_, body, _, none⟩ => body.forwards
    | _ => []
  | d => d.forwards

theorem framed_force {ns : List (Bytes × Nat)} (k : Nat) (env : Env (Store a))
    (h : AgreeOn ((cell k : Grammar a).lookups env.store) ns env.store.names) : (force k).Framed env ns := by
  refine .look ?_ fun _ => rfl
  rcases hc : env.store.cells[k]? with _ | ⟨id, body, starts, _ | q⟩
  · exact .ofExcept _
  · rw [lookups, hc] at h
    refine .bind (.modifyStore fun _ _ _ => rfl) fun _ after hn => .bind (framed_build body after (hn ▸ h)) fun _ _ _ =>
      .bind (.modifyStore fun _ _ _ => rfl) fun _ _ _ => .pure _
  · exact .pure _

/-- What a deferred part stands for, declarations apart, is found by the names that are looked up. -/
theorem framed_found {ns : List (Bytes × Nat)} {d : Grammar a} (hd : ∀ k, d ≠ .declared k) (env : Env (Store a))
    (h : AgreeOn (d.lookups env.store) ns env.store.names) : d.found.Framed env ns := by
  cases d with
  | declared k => exact absurd rfl (hd k)
  | cell k => exact framed_force k env h
  | call name =>
    refine .look ?_ fun _ => rfl
    rw [lookups] at h
    rw [Store.resolve]
    rcases hp : env.store.rules.lookup name with _ | p
    · exact .ofExcept (.error .unknownName)
    · rw [hp] at h
      exact framed_build p env h
  | _ => exact framed_build _ env h

end Grammar

/-! ## Reaching runs -/

/-- What an invocation reaches. -/
inductive Reach (a : Alphabet) where
  /-- The parser of the declaration at an address is entered; `found` is what is found of it. -/
  | entered (address : Nat) (found : Except Fault (Grammar a))
  /-- The declarations that some names hold are looked up. -/
  | lookedUp (names : List Bytes)

namespace Reach

/-- What is reached in a store is the same among other names and declarations. -/
def SameIn (s : Store a) (ns : List (Bytes × Nat)) (ds : Array (Declaration a)) : Reach a → Prop
  | entered k _ => ds[k]? = s.declarations[k]?
  | lookedUp names => Grammar.AgreeOn names ns s.names

theorem sameIn_congr {s t : Store a} (hnames : t.names = s.names) (hdeclarations : t.declarations = s.declarations)
    {ns : List (Bytes × Nat)} {ds : Array (Declaration a)} {r : Reach a} : r.SameIn t ns ds ↔ r.SameIn s ns ds := by
  cases r <;> simp only [SameIn, hnames, hdeclarations]

end Reach

/-- Of the declarations that were entered, what is there was found; where that is a fault, it was the last thing
reached, and ended the computation. -/
structure Reached (s : Store a) (reached : List (Reach a)) (ended : Except Fault α) : Prop where
  found {k : Nat} {found : Except Fault (Grammar a)} (h : .entered k found ∈ reached) : found = s.standing k
  last {k : Nat} {cause : Fault} (h : .entered k (.error cause) ∈ reached) :
    ended = .error cause ∧ ∃ before, reached = before ++ [.entered k (.error cause)]

/-- The second computation does what the first does, and notes what is reached meanwhile, by which the first does what
it does. Names and declarations stay as they are. -/
def Run.Reaches (x : Run (Store a) α) (x' : Run (Noted (Reach a) (Store a)) α) : Prop :=
  ∀ env notes, ∃ reached,
    x'.execute (env.noting notes) = ((x.execute env).1, (x.execute env).2.noting (notes ++ reached)) ∧
      Reached env.store reached (x.execute env).1 ∧
      (x.execute env).2.store.names = env.store.names ∧ (x.execute env).2.store.declarations = env.store.declarations ∧
      ∀ ns ds, (∀ r ∈ reached, r.SameIn env.store ns ds) →
        x.execute (env.redeclared ns ds) = ((x.execute env).1, (x.execute env).2.redeclared ns ds)

namespace Run.Reaches

variable {x : Run (Store a) α} {x' : Run (Noted (Reach a) (Store a)) α}

theorem ofExcept (e : Except Fault α) : (Run.ofExcept e : Run (Store a) α).Reaches (Run.ofExcept e) := fun env notes =>
  ⟨[], by rw [List.append_nil]; rfl, ⟨nofun, nofun⟩, rfl, rfl, fun _ _ _ => rfl⟩

theorem record (e : Entry) : (Run.record e : Run (Store a) Unit).Reaches (Run.record e) := fun env notes =>
  ⟨[], by rw [List.append_nil]; rfl, ⟨nofun, nofun⟩, rfl, rfl, fun _ _ _ => rfl⟩

theorem bind {f : α → Run (Store a) β} {f' : α → Run (Noted (Reach a) (Store a)) β} (hx : x.Reaches x')
    (hf : ∀ v, (f v).Reaches (f' v)) : (x >>= f).Reaches (x' >>= f') := fun env notes => by
  obtain ⟨reached, hrun, hreached, hnames, hdeclarations, hsame⟩ := hx env notes
  simp only [execute_bind, hrun]
  rcases hended : x.execute env with ⟨cause | v, after⟩ <;> rw [hended] at hreached hnames hdeclarations hsame
  · refine ⟨reached, rfl, ⟨hreached.found, fun h => ?_⟩, hnames, hdeclarations, fun ns ds h => by rw [hsame ns ds h]⟩
    obtain ⟨he, hlast⟩ := hreached.last h
    exact ⟨congrArg _ (Except.error.inj he), hlast⟩
  · obtain ⟨reached', hrun, hreached', hnames', hdeclarations', hsame'⟩ := hf v after (notes ++ reached)
    rw [List.append_assoc] at hrun
    refine ⟨reached ++ reached', hrun, ⟨fun h => ?_, fun h => ?_⟩, hnames'.trans hnames,
      hdeclarations'.trans hdeclarations, fun ns ds h => ?_⟩
    · rcases List.mem_append.1 h with h | h
      · exact hreached.found h
      · rw [hreached'.found h]
        exact Store.standing_congr (by rw [hdeclarations])
    · rcases List.mem_append.1 h with h | h
      · cases (hreached.last h).1
      · obtain ⟨he, before, rfl⟩ := hreached'.last h
        exact ⟨he, reached ++ before, List.append_assoc .. ▸ rfl⟩
    · rw [hsame ns ds fun r hr => h r (List.mem_append_left _ hr)]
      exact hsame' ns ds fun r hr =>
        (Reach.sameIn_congr hnames hdeclarations).2 (h r (List.mem_append_right _ hr))

end Run.Reaches

/-- Noting what is reached is kept by all combinators. -/
def reaching : Run.Congruence (Store a) (Noted (Reach a) (Store a)) where
  holds := Run.Reaches
  ofExcept := .ofExcept
  bind := .bind

/-- Runs a computation, noting the names that it looks up in the store. -/
def Run.lookingUp (names : Store a → List Bytes) (x : Run (Store a) α) : Run (Noted (Reach a) (Store a)) α := do
  Run.note (.lookedUp (names (← Run.getStore).store))
  x.unnoted

theorem Run.reaches_lookingUp {names : Store a → List Bytes} {x : Run (Store a) α}
    (h : ∀ env ns, Grammar.AgreeOn (names env.store) ns env.store.names → x.Framed env ns) :
    x.Reaches (x.lookingUp names) := fun env notes => by
  obtain ⟨hnames, hdeclarations, -⟩ := h env env.store.names fun _ _ => rfl
  refine ⟨[.lookedUp (names env.store)], ?_, ⟨by simp, by simp⟩, hnames, hdeclarations, fun ns ds hsame => ?_⟩
  · simp only [lookingUp, execute_bind, execute_getStore, execute_note]
    exact execute_unnoted ..
  · exact (h env ns (hsame _ (List.mem_singleton_self _))).2.2 ds

/-- Builds in the store and finds what is there, noting what is reached. -/
def Interpreter.reacher : Interpreter (Noted (Reach a) (Store a)) a where
  leaf l xs i := (l.parser xs i).unnoted
  make p := p.build.lookingUp fun _ => p.forwards
  find
    | .declared k => (Grammar.definition k).unnoted.gathered fun found _ => .entered k found
    | d => d.found.lookingUp d.lookups

namespace Grammar

theorem reaches_build (p : Grammar a) : p.build.Reaches (p.build.lookingUp fun _ => p.forwards) :=
  Run.reaches_lookingUp fun env _ => framed_build p env

/-- Where a declaration is entered, what is found of it is noted. -/
theorem reaches_definition (k : Nat) : (definition k : Run (Store a) (Grammar a)).Reaches
    ((definition k).unnoted.gathered fun found _ => .entered k found) := fun env notes => by
  have hrun (notes : List (Reach a)) :
      (definition k).unnoted.execute (env.noting notes) = (env.store.standing k, env.noting notes) := by
    rw [Run.execute_unnoted, execute_definition]
  refine ⟨[.entered k (env.store.standing k)], ?_, ⟨fun h => ?_, fun h => ?_⟩, ?_, ?_, fun ns ds hsame => ?_⟩
  · rw [Run.execute_gathered (hrun []), execute_definition]
  · obtain ⟨rfl, rfl⟩ := Reach.entered.inj (List.mem_singleton.1 h)
    rfl
  · obtain ⟨rfl, h⟩ := Reach.entered.inj (List.mem_singleton.1 h)
    exact ⟨by rw [execute_definition, h], [], by rw [h]; rfl⟩
  · rw [execute_definition]
  · rw [execute_definition]
  · rw [execute_definition, execute_definition]
    have hk : ds[k]? = env.store.declarations[k]? := hsame _ (List.mem_singleton_self _)
    exact congrArg (·, env.redeclared ns ds) (Store.standing_congr hk)

/-- Finding what a deferred part stands for is noted. -/
theorem reaches_found (d : Grammar a) : d.found.Reaches (Interpreter.reacher.find d) := by
  by_cases hd : ∃ k, d = .declared k
  · obtain ⟨k, rfl⟩ := hd
    exact reaches_definition k
  · have hd (k : Nat) : d ≠ .declared k := fun h => hd ⟨k, h⟩
    have hfind : Interpreter.reacher.find d = d.found.lookingUp d.lookups := by
      cases d with
      | declared k => exact absurd rfl (hd k)
      | _ => rfl
    rw [hfind]
    exact Run.reaches_lookingUp fun env _ => framed_found hd env

end Grammar

/-- Looking up nothing is kept by all combinators. -/
def framing : Run.Congruence (Store a) (Store a) where
  holds x _ := ∀ env ns, x.Framed env ns
  ofExcept e _ _ := .ofExcept e
  bind hx hf env ns := .bind (hx env ns) fun v after _ => hf v after ns

/-- A leaf looks up nothing. -/
theorem Leaf.reaches (l : Leaf a) (xs : List a.Carrier) (i : Nat) :
    (l.parser xs i : Run (Store a) (Result Value)).Reaches (l.parser xs i).unnoted := fun env notes => by
  have hframed : ∀ env ns, (l.parser xs i : Run (Store a) (Result Value)).Framed env ns :=
    Leaf.carries (K := framing) (fun _ _ _ => ⟨rfl, rfl, fun _ => rfl⟩) l xs i
  obtain ⟨hnames, hdeclarations, -⟩ := hframed env []
  exact ⟨[], by rw [Run.execute_unnoted, List.append_nil], ⟨nofun, nofun⟩, hnames, hdeclarations,
    fun ns ds _ => (hframed env ns).2.2 ds⟩

namespace Grammar

/-- The parser of a description reaches what is noted. -/
theorem reaches_parserWithin (limit : Nat) (p : Grammar a) (xs : List a.Carrier) (i : Nat) :
    (p.parserWithin limit xs i).Reaches (Interpreter.reacher.parserWithin limit p xs i) := by
  rw [← Interpreter.parserWithin_plain]
  exact Interpreter.carries_parserWithin (K := reaching) .record Leaf.reaches reaches_build reaches_found limit p xs i

end Grammar

/-! ## Histories -/

namespace Session

/-- Builds a parser and invokes it, noting what is reached. -/
def invokeReaching (limit : Nat) (p : Grammar a) (xs : List a.Carrier) (i : Nat) :
    Run (Noted (Reach a) (Store a)) (Result Value) :=
  Interpreter.entering (Interpreter.reacher.parserWithin limit) (p.build.lookingUp fun _ => p.forwards) xs i

theorem reaches_invoke (limit : Nat) (p : Grammar a) (xs : List a.Carrier) (i : Nat) :
    (invokeWithin limit p xs i).Reaches (invokeReaching limit p xs i) :=
  .bind p.reaches_build fun q => q.reaches_parserWithin limit xs i

variable {start : Env (Store a)} {steps : List (Step a)}

/-- After one more step the store has what the longer history tells. -/
theorem Reflects.step (h : Reflects start steps (after steps start).store) (step : Step a) :
    Reflects start (steps ++ [step]) (after (steps ++ [step]) start).store := by
  rw [after_append]
  show Reflects start (steps ++ [step]) (step.run.execute (after steps start)).2.store
  have builds (p : Grammar a) : p.build.Framed (after steps start) (after steps start).store.names :=
    p.framed_build _ fun _ _ => rfl
  cases step with
  | invoke p xs i =>
    rw [Step.execute_run_invoke]
    obtain ⟨-, -, -, hnames, hdeclarations, -⟩ := reaches_invoke Grammar.nestingLimit p xs i (after steps start) []
    exact h.idle rfl (fun _ => id) (by simp [Binds]) hnames hdeclarations
  | define name p =>
    obtain ⟨hnames, hdeclarations, -⟩ := (builds p).bind (f := fun q => Run.modifyStore (·.define name q))
      fun _ _ _ => .modifyStore fun _ _ _ => rfl
    exact h.idle rfl (fun _ => id) (by simp [Binds]) hnames hdeclarations
  | declare name => exact h.declare name
  | drop name => exact h.drop name
  | become name p =>
    obtain ⟨hnames, hdeclarations, -⟩ := builds p
    have hbinds (k : Nat) (q : Grammar a) : Binds start k q steps (.become name p) ↔
        (after steps start).store.names.lookup name = some k ∧ p.build.outcome (after steps start) = .ok q := by
      simp [Binds, h.names]
    rw [Run.outcome] at hbinds
    simp only [Step.run, Session.become, Run.execute_bind]
    generalize p.build.execute (after steps start) = ran at hnames hdeclarations hbinds ⊢
    obtain ⟨cause | q, mid⟩ := ran
    · have hnone (k : Nat) (q : Grammar a) : ¬Binds start k q steps (.become name p) := fun hb => by
        cases ((hbinds k q).1 hb).2
      exact h.idle rfl (fun _ => id) hnone hnames hdeclarations
    · simp only [Run.execute_getStore, Run.execute_ofExcept, Store.resolve]
      rw [← hnames] at hbinds
      rcases hk : mid.store.names.lookup name with _ | k
      · have hnone (k : Nat) (q : Grammar a) : ¬Binds start k q steps (.become name p) := fun hb => by
          cases hk.symm.trans ((hbinds k q).1 hb).1
        exact h.idle rfl (fun _ => id) hnone hnames hdeclarations
      · refine h.become (hnames ▸ hk) (fun k' q' => ?_) rfl (fun _ => id) hnames hdeclarations
        rw [hbinds, hk]
        simp [eq_comm]

/-- The store of a session has what the history tells. -/
theorem reflects_after (rules : List (Bytes × Grammar a)) (level : Level) (steps : List (Step a)) :
    Reflects (initial rules level) steps (after steps (initial rules level)).store := by
  induction steps using List.reverseRecOn with
  | nil =>
    have hnone (k : Nat) : (initial rules level).store.declarations[k]? = none := rfl
    have hended (k : Nat) : ¬Ended ([] : List (Step a)) k := not_once_nil
    refine ⟨rfl, ⟨nofun, fun h => (not_since_nil h).elim⟩, ⟨nofun, fun h => (hended _ h).elim⟩,
      ⟨nofun, fun h => (not_since_nil h.2).elim⟩, nofun⟩
  | append_singleton steps step ih => exact ih.step step

/-- What is told of a declaration stays so where a step neither ends nor binds the one that is held. -/
theorem told_concat {step : Step a} {k : Nat}
    (h : ∀ name, Holds steps name k → ¬step.Ends name ∧ ∀ p, step ≠ .become name p)
    {found : Except Fault (Grammar a)} : Told start (steps ++ [step]) k found ↔ Told start steps k found := by
  have hended : Ended (steps ++ [step]) k ↔ Ended steps k := by
    rw [ended_concat, or_iff_right]
    rintro ⟨name, hname, hends⟩
    exact (h name hname).1 hends
  have hbinds (q : Grammar a) : ¬Binds start k q steps step := by
    rintro ⟨name, p, hstep, hname, -⟩
    exact (h name hname).2 p hstep
  have hbound (q : Grammar a) : Bound start (steps ++ [step]) k q ↔ Bound start steps k q := by
    simp [bound_concat, hbinds]
  constructor <;> rintro ⟨hgone, hunbound, hboundto⟩ <;>
    exact ⟨by simpa [hended] using hgone, by simpa [hended, hbound] using hunbound,
      by simpa [hended, hbound] using hboundto⟩

end Session

/-! ## Main statement -/

/-- Declarations are bound late, and each by itself. After any history of a session, a parser that is taken from the
declaration of a name stands for the declaration that the name holds then. Whenever that parser is invoked, it does what
the parser does to which the declaration was bound last, or is given up: as gone if the declaration was ended, and as
unbound if it was not and was never bound.

So it is for the declarations that an invocation of any parser reaches, wherever they stand in it; where one gives it
up, the invocation ends with that, and nothing else is reached. How the invocation ends depends on no declarations but
those that it reaches and on no names but those that it looks up. What a declaration stands for is changed by no step
but those that end or bind it. -/
theorem declarations_bind_late (rules : List (Bytes × Grammar a)) (level : Level) (steps : List (Session.Step a)) :
    let start := Session.initial rules level
    let env := Session.after steps start
    (∀ name k, (Grammar.forward name).build.execute env = (.ok (.declared k), env) ↔ Session.Holds steps name k) ∧
    (∀ k < Session.made steps, Session.Told start steps k (env.store.standing k) ∧
      ∀ env' : Env (Store a), env'.store.declarations = env.store.declarations → ∀ limit xs i,
        ((Grammar.declared k).parserWithin (limit + 1) xs i).execute env' = match env.store.standing k with
          | .ok q => (q.parserWithin limit xs i).execute env'
          | .error cause => (.error cause, env')) ∧
    (∀ limit p xs i, ∃ reached,
      let ran := (Session.invokeWithin limit p xs i).execute env
      (Session.invokeReaching limit p xs i).execute (env.noting []) = (ran.1, ran.2.noting reached) ∧
        (∀ k found, .entered k found ∈ reached → k < Session.made steps → Session.Told start steps k found) ∧
        (∀ k cause, .entered k (.error cause) ∈ reached →
          ran.1 = .error cause ∧ ∃ before, reached = before ++ [.entered k (.error cause)]) ∧
        ∀ ns ds, (∀ r ∈ reached, r.SameIn env.store ns ds) →
          (Session.invokeWithin limit p xs i).outcome (env.redeclared ns ds) = ran.1) ∧
    ∀ step k, (∀ name, Session.Holds steps name k → ¬step.Ends name ∧ ∀ p, step ≠ .become name p) →
      ∀ found, Session.Told start (steps ++ [step]) k found ↔ Session.Told start steps k found := by
  intro start env
  have hreflects : Session.Reflects start steps env.store := Session.reflects_after rules level steps
  refine ⟨fun name k => ?_, fun k hk => ⟨hreflects.told hk, fun env' hsame limit xs i => ?_⟩, fun limit p xs i => ?_,
    fun step k h found => Session.told_concat h⟩
  · rw [← hreflects.names]
    simp only [Grammar.build, Run.execute_bind, Run.execute_getStore, Run.execute_ofExcept, Store.resolve]
    rcases env.store.names.lookup name with _ | k' <;> simp
  · show ((Grammar.definition k) >>= fun q => q.parserWithin limit xs i).execute env' = _
    rw [Run.execute_bind, Grammar.execute_definition, Store.standing_congr (s := env.store) (by rw [hsame])]
    rcases env.store.standing k with cause | q <;> rfl
  · obtain ⟨reached, hrun, hreached, -, -, hframe⟩ := Session.reaches_invoke limit p xs i env []
    refine ⟨reached, hrun, fun k found h hk => ?_, fun k cause h => hreached.last h, fun ns ds h => ?_⟩
    · rw [hreached.found h]
      exact hreflects.told hk
    · exact congrArg (·.1) (hframe ns ds h :)

/-- A declaration is embedded before it is bound, bound twice and then ended by a new one of the same name. -/
theorem declarations_bind_late_of_rebound :
    let name := ascii "d"
    let early : Grammar .bytes := .ref (ascii "early")
    let start : Env (Store .bytes) := Session.initial [] .off
    let steps : List (Session.Step .bytes) :=
      [.declare name, .define (ascii "early") (.optional (.forward name)), .become name (.succeed (.int 1)),
        .become name (.succeed (.int 2))]
    let steps' := steps ++ [.declare name]
    Session.Holds steps name 0 ∧ Session.Told start steps 0 (.ok (.succeed (.int 2))) ∧
      (Session.invokeWithin 2 early [] 0).outcome (Session.after steps start) =
        .ok (.success (.ofOptional [.int 2]) 0 ∅) ∧
      Session.Told start steps' 0 (.error .declarationGone) ∧ Session.Told start steps' 1 (.error .declarationUnbound) ∧
      (Session.invokeWithin 2 early [] 0).outcome (Session.after steps' start) = .error .declarationGone := by
  intro name early start steps steps'
  have hholds : (Grammar.forward name).build.execute (Session.after steps start) =
    (.ok (.declared 0), Session.after steps start) := rfl
  obtain ⟨hbound, hgone, hunbound, hvalue, hcause⟩ :
      (Session.after steps start).store.standing 0 = .ok (.succeed (.int 2)) ∧
        (Session.after steps' start).store.standing 0 = .error .declarationGone ∧
        (Session.after steps' start).store.standing 1 = .error .declarationUnbound ∧
        (Session.invokeWithin 2 early [] 0).outcome (Session.after steps start) =
          .ok (.success (.ofOptional [.int 2]) 0 ∅) ∧
        (Session.invokeWithin 2 early [] 0).outcome (Session.after steps' start) = .error .declarationGone := by
    -- Under the abbreviations the evaluation would repeat its steps.
    subst steps' steps start early name
    exact ⟨rfl, rfl, rfl, rfl, rfl⟩
  obtain ⟨holds, told, -⟩ := declarations_bind_late (a := .bytes) [] .off steps
  obtain ⟨-, told', -⟩ := declarations_bind_late (a := .bytes) [] .off steps'
  exact ⟨(holds name 0).1 hholds, hbound ▸ (told 0 (by decide)).1, hvalue, hgone ▸ (told' 0 (by decide)).1,
    hunbound ▸ (told' 1 (by decide)).1, hcause⟩

end Furthest
