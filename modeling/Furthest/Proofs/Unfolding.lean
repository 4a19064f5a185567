import Furthest.Proofs.Coupling
import Furthest.Proofs.Described
import Furthest.Proofs.History
import Furthest.Proofs.Interpretation

/-!
# Built parsers and what they unfold to

`Store.cacheless` interprets descriptions without building anything in a store: whatever is deferred is linked anew
each time that it is entered, by what names stand for in one store that stays as it is. An `Unfolding` relates a
session that builds in its store to one that is interpreted so. A cell of the first session corresponds to any
deferred part of the second that stands for what is linked of the body of the cell. While parsers of the first
session run, more cells are added and built; `Unfolding.Inv` is what stays so.

A cell may hold what its thunk returned although the thunk throws by now; such a cause is `late`.

Main statement: `Unfolding.Faithful.carries`, which has that corresponding parsers end alike, unless the one without
cells is given up with a late cause.
-/

namespace Furthest

variable {α α' β β' : Type} {a : Alphabet}

/-! ## Interpreting without cells -/

/-- What names stand for. -/
structure Naming (a : Alphabet) where
  rules : List (Bytes × Grammar a)
  definitions : List (Bytes × Grammar a)
  addresses : List (Bytes × Nat)

/-- What names stand for in a store. -/
def Store.naming (s : Store a) : Naming a := ⟨s.rules, s.definitions, s.names⟩

namespace Naming

variable (ν : Naming a)

mutual

/-- What a description builds, with the parts that are built on first use left as they are described. -/
def link : Grammar a → Except Fault (Grammar a)
  | .leaf l => return .leaf l
  | .andThen p q => return .andThen (← link p) (← link q)
  | .skip p q => return .skip (← link p) (← link q)
  | .tuple ps => return .tuple (← linkAll ps)
  | .sequence ps => return .sequence (← linkAll ps)
  | .alt ps => return .alt (← linkAll ps)
  | .times p bounds => return .times (← link p) (.ok (← bounds))
  | .sepBy p sep bounds => return .sepBy (← link p) (← link sep) (.ok (← bounds))
  | .manyUntil p stop bounds => return .manyUntil (← link p) (← link stop) (.ok (← bounds))
  | .map p f => return .map (← link p) f
  | .bind p f => return .bind (← link p) f
  | .mark p => return .mark (← link p)
  | .desc p label => return .desc (← link p) label
  | .shouldFail p label => return .shouldFail (← link p) label
  | .peek p => return .peek (← link p)
  | .traced p name => return .traced (← link p) name
  | .lazy id p => return .lazy id p
  | .rule name => return .lazy none (← Store.resolve ν.rules name)
  | .call name => return .call name
  | .ref name => Store.resolve ν.definitions name
  | .forward name => return .declared (← Store.resolve ν.addresses name)
  | .cell address => return .cell address
  | .declared address => return .declared address
  | .raise cause => .error cause

/-- What all parts of a description build. -/
def linkAll : List (Grammar a) → Except Fault (List (Grammar a))
  | [] => return []
  | p :: ps => return (← link p) :: (← linkAll ps)

end

end Naming

namespace Store

variable (s : Store a)

/-- What a deferred part stands for. A cell that is built stands for what it was built to. -/
def found : Grammar a → Except Fault (Grammar a)
  | .lazy _ p => s.naming.link p
  | .call name => do s.naming.link (← resolve s.rules name)
  | .cell address =>
    match s.cells[address]? with
    | none => .error .unknownName
    | some c =>
      match c.built with
      | some p => .ok p
      | none => s.naming.link c.body
  | .declared address =>
    match s.declarations[address]? with
    | none => .error .unknownName
    | some .unbound => .error .declarationUnbound
    | some .gone => .error .declarationGone
    | some (.bound p) => .ok p
  | p => s.naming.link p

/-- Links whatever is not built anew, each time that it is entered. -/
def cacheless : Interpreter (Store a) a :=
  ⟨Leaf.parser, fun p => Run.ofExcept (s.naming.link p), fun p => Run.ofExcept (s.found p)⟩

/-- The cell at an address is built. -/
def isBuilt (s : Store a) (k : Nat) : Bool := (s.cells[k]?.bind Cell.built).isSome

theorem isBuilt_of_getElem? {s : Store a} {k : Nat} {c : Cell a} (hc : s.cells[k]? = some c) :
    s.isBuilt k = c.built.isSome := by
  rw [isBuilt, hc]
  rfl

/-- What a description comes to if what it builds is invoked in a store that stays as it is. -/
def linkedOutcome (limit : Nat) (p : Grammar a) (xs : List a.Carrier) (i : Nat) :
    Except Fault (Result Value) :=
  (Interpreter.entering (s.cacheless.parserWithin limit) (Run.ofExcept (s.naming.link p)) xs i).outcome
    ⟨.ofLevel .off, s⟩

/-! ## Stores that grow -/

theorem getElem?_modifyCell {t : Store a} (f : Cell a → Cell a) {k : Nat} {c : Cell a} (hc : t.cells[k]? = some c) :
    (t.modifyCell k f).cells[k]? = some (f c) := by
  rw [modifyCell, Array.getElem?_modify, if_pos rfl, hc]
  rfl

/-- The second store has all that the first has, and may have more cells, and more of them built. -/
structure Grows (t t' : Store a) : Prop where
  rules : t'.rules = t.rules
  definitions : t'.definitions = t.definitions
  names : t'.names = t.names
  declarations : t'.declarations = t.declarations
  cells {k : Nat} {c : Cell a} (hc : t.cells[k]? = some c) :
    ∃ c', t'.cells[k]? = some c' ∧ c'.body = c.body ∧ ∀ q, c.built = some q → c'.built = some q

namespace Grows

variable {t t' t'' : Store a}

theorem refl (t : Store a) : t.Grows t := ⟨rfl, rfl, rfl, rfl, fun hc => ⟨_, hc, rfl, fun _ h => h⟩⟩

theorem trans (h : t.Grows t') (h' : t'.Grows t'') : t.Grows t'' where
  rules := h'.rules.trans h.rules
  definitions := h'.definitions.trans h.definitions
  names := h'.names.trans h.names
  declarations := h'.declarations.trans h.declarations
  cells hc := by
    obtain ⟨c', hc', hbody, hbuilt⟩ := h.cells hc
    obtain ⟨c'', hc'', hbody', hbuilt'⟩ := h'.cells hc'
    exact ⟨c'', hc'', hbody'.trans hbody, fun q hq => hbuilt' q (hbuilt q hq)⟩

theorem naming (h : t.Grows t') : t'.naming = t.naming := by
  simp only [Store.naming, h.rules, h.definitions, h.names]

theorem size_le (h : t.Grows t') : t.cells.size ≤ t'.cells.size := by
  by_contra hlt
  obtain ⟨c', hc', -⟩ := h.cells (Array.getElem?_eq_getElem (Nat.lt_of_not_le hlt))
  exact absurd (Array.getElem?_eq_some_iff.1 hc').1 (Nat.lt_irrefl _)

theorem addCell (t : Store a) (c : Cell a) : t.Grows (t.addCell c) :=
  ⟨rfl, rfl, rfl, rfl, fun {k c'} hc => ⟨c', by
    have hk := (Array.getElem?_eq_some_iff.1 hc).1
    rw [Store.addCell, Array.getElem?_push, if_neg (Nat.ne_of_lt hk)]
    exact hc, rfl, fun _ h => h⟩⟩

/-- A cell keeps its body, and what it was built to. -/
theorem modifyCell {k : Nat} {f : Cell a → Cell a}
    (hf : ∀ c, t.cells[k]? = some c → (f c).body = c.body ∧ ∀ q, c.built = some q → (f c).built = some q) :
    t.Grows (t.modifyCell k f) :=
  ⟨rfl, rfl, rfl, rfl, fun {k' c} hc => by
    by_cases hk : k = k'
    · subst hk
      exact ⟨f c, getElem?_modifyCell f hc, hf c hc⟩
    · exact ⟨c, by rw [Store.modifyCell, Array.getElem?_modify, if_neg hk, hc], rfl, fun _ h => h⟩⟩

end Grows

/-- The second store is the first with more cells, which are not built and were never started. -/
def Adds (t t' : Store a) : Prop :=
  ∃ cells : Array (Cell a), t' = { t with cells := t.cells ++ cells } ∧ ∀ c ∈ cells, c.starts = 0 ∧ c.built = none

namespace Adds

variable {t t' t'' : Store a}

theorem refl (t : Store a) : t.Adds t := ⟨#[], by rw [Array.append_empty], by simp⟩

theorem trans : t.Adds t' → t'.Adds t'' → t.Adds t'' := by
  rintro ⟨cs, rfl, hcs⟩ ⟨ds, rfl, hds⟩
  refine ⟨cs ++ ds, by simp only [Array.append_assoc], fun c hc => ?_⟩
  exact (Array.mem_append.1 hc).elim (hcs c) (hds c)

/-- A cell that was there stays as it was. -/
theorem getElem? (h : t.Adds t') {k : Nat} {c : Cell a} (hc : t.cells[k]? = some c) : t'.cells[k]? = some c := by
  obtain ⟨cs, rfl, -⟩ := h
  rw [Array.getElem?_append_left (Array.getElem?_eq_some_iff.1 hc).1, hc]

/-- A cell that was not there is not built and was never started. -/
theorem fresh (h : t.Adds t') {k : Nat} (hk : t.cells[k]? = none) {c : Cell a} (hc : t'.cells[k]? = some c) :
    c.starts = 0 ∧ c.built = none := by
  obtain ⟨cs, rfl, hcs⟩ := h
  rw [Array.getElem?_append_right (Array.getElem?_eq_none_iff.1 hk)] at hc
  exact hcs c (Array.mem_of_getElem? hc)

end Adds

end Store

theorem Grammar.execute_allocate (id : Option Bytes) (p : Grammar a) (env : Env (Store a)) :
    (allocate id p).execute env =
      (.ok (.cell env.store.cells.size), { env with store := env.store.addCell (.new id p) }) := rfl

/-- The computation changes the store by adding cells at most. -/
def Run.OnlyAdds (x : Run (Store a) α) : Prop :=
  ∀ env : Env (Store a), env.store.Adds (x.execute env).2.store

/-- Building only adds cells. -/
theorem Grammar.building_onlyAdds : Building (a := a) Run.OnlyAdds where
  ofExcept _ _ := .refl _
  bind {_ _ x f} hx hf env := by
    have hx := hx env
    rw [Run.execute_bind]
    generalize x.execute env = ran at hx ⊢
    obtain ⟨_ | v, after⟩ := ran
    · exact hx
    · exact hx.trans (hf v after)
  getStore _ := .refl _
  allocate id p _ := ⟨#[.new id p], rfl, by simp [Cell.new]⟩

theorem Grammar.onlyAdds_build (p : Grammar a) : p.build.OnlyAdds := building_onlyAdds.build p

namespace Grammar

variable {env : Env (Store a)} {k : Nat} {c : Cell a}

/-- A cell that is built is found to be what it was built to. -/
theorem execute_force_of_built (hc : env.store.cells[k]? = some c) {q : Grammar a} (hq : c.built = some q) :
    (force k).execute env = (.ok q, env) := by
  simp only [force, Run.execute_bind, Run.execute_getStore, hc, hq]
  rfl

/-- A cell that is not built is started, built and finished. -/
theorem execute_force_of_unbuilt (hc : env.store.cells[k]? = some c) (hq : c.built = none) :
    (force k).execute env = match c.body.build.execute { env with store := env.store.modifyCell k .start } with
      | (.ok q, after) => (.ok q, { after with store := after.store.modifyCell k (·.finish q) })
      | (.error cause, after) => (.error cause, after) := by
  simp only [force, Run.execute_bind, Run.execute_getStore, hc, hq, Run.execute_modifyStore]
  rcases c.body.build.execute { env with store := env.store.modifyCell k .start } with ⟨_ | _, _⟩ <;> rfl

end Grammar

/-! ## Unfolding -/

/-- Two sessions side by side: one that builds in its store, and one that links by a store that stays as it is. -/
structure Unfolding (a : Alphabet) where
  /-- The store of the second session. -/
  names : Store a
  /-- How deferred parts of the first session correspond to those of the second. -/
  node : (built : Bool) → Grammar a → Grammar a → Prop
  /-- Deferred parts of the second session that stand for what is linked of a description. -/
  stands : Grammar a → Grammar a → Prop
  /-- Cells of the first session that correspond to no others. -/
  aside : Nat → Prop
  /-- Causes for which the second session may be given up alone. -/
  late : Fault → Prop

namespace Unfolding

variable (U : Unfolding a)

/-- Two descriptions that are to be built correspond. -/
abbrev Describes : Grammar a → Grammar a → Prop := Grammar.Alike U.node false

/-- How deferred parts correspond while the first session has a store. -/
inductive Node (t : Store a) : (built : Bool) → Grammar a → Grammar a → Prop
  | given {b : Bool} {d u : Grammar a} (h : U.node b d u) : Node t b d u
  /-- A cell was made of a part that is built on first use. -/
  | lazy {k : Nat} {c : Cell a} {u : Grammar a} (hc : t.cells[k]? = some c) (hk : ¬U.aside k)
    (hu : U.Describes c.body u) (id : Option Bytes) : Node t true (.cell k) (.lazy id u)
  /-- A cell was made of what another part stands for. -/
  | stands {k : Nat} {c : Cell a} {u d : Grammar a} (hc : t.cells[k]? = some c) (hk : ¬U.aside k)
    (hu : U.Describes c.body u) (hd : U.stands d u) : Node t true (.cell k) d

/-- A description that is built in a store corresponds to a linked one. -/
abbrev Unfolds (t : Store a) : Grammar a → Grammar a → Prop := Grammar.Alike (U.Node t) true

/-- What the first session finds corresponds to what the second finds. -/
inductive Found (t : Store a) : Except Fault (Grammar a) → Except Fault (Grammar a) → Prop
  | ok {q l : Grammar a} (h : U.Unfolds t q l) : Found t (.ok q) (.ok l)
  | error (cause : Fault) : Found t (.error cause) (.error cause)
  | late {q l : Grammar a} (h : U.Unfolds t q l) {cause : Fault} (hc : U.late cause) : Found t (.ok q) (.error cause)

/-- A cell is made of a description that corresponds to another, and was built to what corresponds to what is linked
of that. -/
structure CellInv (t : Store a) (k : Nat) (c : Cell a) : Prop where
  described : ∃ u, U.Describes c.body u
  built (hk : ¬U.aside k) {q u : Grammar a} (hq : c.built = some q) (hu : U.Describes c.body u) :
    U.Found t (.ok q) (U.names.naming.link u)

/-- What stays so while parsers of the first session run. -/
structure Inv (keeps : Store a → Prop) (t : Store a) : Prop where
  keeps : keeps t
  cells {k : Nat} {c : Cell a} (hc : t.cells[k]? = some c) : U.CellInv t k c

variable {U} {keeps : Store a → Prop} {t t' : Store a} {p q u l d : Grammar a} {id : Option Bytes} {k : Nat}
variable {f : Cell a → Cell a}

theorem Node.mono (h : t.Grows t') {b : Bool} {d u : Grammar a} (hd : U.Node t b d u) : U.Node t' b d u := by
  cases hd with
  | given hd => exact .given hd
  | lazy hc hk hu id =>
    obtain ⟨c', hc', hbody, -⟩ := h.cells hc
    exact .lazy hc' hk (hbody ▸ hu) id
  | stands hc hk hu hd =>
    obtain ⟨c', hc', hbody, -⟩ := h.cells hc
    exact .stands hc' hk (hbody ▸ hu) hd

theorem Unfolds.mono (h : t.Grows t') {q l : Grammar a} (hq : U.Unfolds t q l) : U.Unfolds t' q l :=
  Grammar.Alike.mono (fun _ _ _ _ => Node.mono h) hq

/-- Only the cells of a store matter for what corresponds. -/
theorem Unfolds.of_cells (h : t'.cells = t.cells) {q l : Grammar a} (hq : U.Unfolds t q l) : U.Unfolds t' q l :=
  Grammar.Alike.mono (fun _ _ _ _ hd => by
    cases hd with
    | given hd => exact .given hd
    | lazy hc hk hu id => exact .lazy (h ▸ hc) hk hu id
    | stands hc hk hu hd => exact .stands (h ▸ hc) hk hu hd) hq

theorem Found.imp (h : ∀ {q l}, U.Unfolds t q l → U.Unfolds t' q l) {e e' : Except Fault (Grammar a)}
    (he : U.Found t e e') : U.Found t' e e' := by
  cases he with
  | ok hq => exact .ok (h hq)
  | error cause => exact .error cause
  | late hq hc => exact .late (h hq) hc

theorem Found.mono (h : t.Grows t') {e e' : Except Fault (Grammar a)} (he : U.Found t e e') : U.Found t' e e' :=
  he.imp (Unfolds.mono h)

theorem CellInv.mono (h : t.Grows t') {k : Nat} {c : Cell a} (hc : U.CellInv t k c) : U.CellInv t' k c :=
  ⟨hc.described, fun hk _ _ hq hu => (hc.built hk hq hu).mono h⟩

/-! ### Stores that keep the invariant -/

theorem Inv.of_cells {keeps' : Store a → Prop} (h : U.Inv keeps t) (hcells : t'.cells = t.cells)
    (hkeeps : keeps' t') : U.Inv keeps' t' where
  keeps := hkeeps
  cells hc :=
    have hc := h.cells (hcells ▸ hc)
    ⟨hc.described, fun hk _ _ hq hu => (hc.built hk hq hu).imp (Unfolds.of_cells hcells)⟩

theorem Inv.addCell (hkeeps : keeps (t.addCell (.new id p))) (h : U.Inv keeps t) (hp : U.Describes p u) :
    U.Inv keeps (t.addCell (.new id p)) where
  keeps := hkeeps
  cells {k c} hc := by
    rw [Store.addCell, Array.getElem?_push] at hc
    split at hc
    · cases hc
      exact ⟨⟨u, hp⟩, fun _ _ _ hq _ => by cases hq⟩
    · exact (h.cells hc).mono (.addCell t _)

theorem Inv.modifyCell (hkeeps : keeps (t.modifyCell k f)) (h : U.Inv keeps t) (hg : t.Grows (t.modifyCell k f))
    (hf : ∀ c, t.cells[k]? = some c → U.CellInv (t.modifyCell k f) k (f c)) : U.Inv keeps (t.modifyCell k f) where
  keeps := hkeeps
  cells {k' c'} hc := by
    rw [Store.modifyCell, Array.getElem?_modify] at hc
    split at hc
    · next hk =>
      subst hk
      obtain ⟨c, hold, rfl⟩ := Option.map_eq_some_iff.1 hc
      exact hf c hold
    · exact (h.cells hc).mono hg

variable (U keeps)

/-- A store that the first session can have later. -/
structure Later (t t' : Store a) : Prop where
  grows : t.Grows t'
  inv : U.Inv keeps t'

/-- From every later store, a run of the first session leaves a later one, and ends as the second session does. -/
def Follows (t : Store a) (E : Store a → Except Fault α → Except Fault α' → Prop) (x : Run (Store a) α)
    (e : Except Fault α') : Prop :=
  ∀ env : Env (Store a), U.Later keeps t env.store →
    ∃ ended after, x.execute env = (ended, after) ∧ U.Later keeps env.store after.store ∧ E after.store ended e

/-- What the run builds corresponds to what is linked. -/
abbrev Builds (t : Store a) : Run (Store a) (Grammar a) → Except Fault (Grammar a) → Prop :=
  U.Follows keeps t fun t => EndAlike (U.Unfolds t)

/-- What the run finds corresponds to what the second session finds. -/
abbrev Finds (t : Store a) : Run (Store a) (Grammar a) → Except Fault (Grammar a) → Prop :=
  U.Follows keeps t U.Found

variable {U keeps}

namespace Follows

variable {S : Store a → α → α' → Prop} {T : Store a → β → β' → Prop}

theorem ofExcept {e : Except Fault α} {e' : Except Fault α'} (h : ∀ t', t.Grows t' → EndAlike (S t') e e') :
    U.Follows keeps t (fun t => EndAlike (S t)) (Run.ofExcept e) e' := fun env ht =>
  ⟨e, env, rfl, ⟨.refl _, ht.inv⟩, h _ ht.grows⟩

theorem giveUp (t : Store a) (cause : Fault) :
    U.Follows keeps t (fun t => EndAlike (S t)) (Run.giveUp cause) (.error cause) := .ofExcept fun _ _ => .error cause

theorem pure {v : α} {v' : α'} (h : ∀ t', t.Grows t' → S t' v v') :
    U.Follows keeps t (fun t => EndAlike (S t)) (Pure.pure v) (.ok v') := .ofExcept fun t' ht => .ok (h t' ht)

/-- What comes next depends on the store. -/
theorem getStore {E : Store a → Except Fault α → Except Fault α' → Prop} {g : Store a → Run (Store a) α}
    {e : Except Fault α'} (h : ∀ t', U.Later keeps t t' → U.Follows keeps t' E (g t') e) :
    U.Follows keeps t E (Run.getStore >>= g) e := fun env ht =>
  h env.store ht env ⟨.refl _, ht.inv⟩

theorem bind {x : Run (Store a) α} {e : Except Fault α'} {f : α → Run (Store a) β} {f' : α' → Except Fault β'}
    (hx : U.Follows keeps t (fun t => EndAlike (S t)) x e)
    (hf : ∀ t', t.Grows t' → ∀ v v', S t' v v' → U.Follows keeps t' (fun t => EndAlike (T t)) (f v) (f' v')) :
    U.Follows keeps t (fun t => EndAlike (T t)) (x >>= f) (e >>= f') := fun env ht => by
  obtain ⟨ended, after, hrun, hafter, hended⟩ := hx env ht
  rw [Run.execute_bind, hrun]
  cases hended with
  | error cause => exact ⟨_, _, rfl, hafter, .error cause⟩
  | ok hv =>
    obtain ⟨ended, last, hrun, hlast, hended⟩ := hf _ (ht.grows.trans hafter.grows) _ _ hv after ⟨.refl _, hafter.inv⟩
    exact ⟨ended, last, hrun, ⟨hafter.grows.trans hlast.grows, hlast.inv⟩, hended⟩

end Follows

theorem Follows.built (h : U.Unfolds t q l) : U.Builds keeps t (Pure.pure q) (.ok l) :=
  .pure fun _ ht => h.mono ht

theorem Builds.finds {x : Run (Store a) (Grammar a)} {e : Except Fault (Grammar a)} (h : U.Builds keeps t x e) :
    U.Finds keeps t x e := fun env ht => by
  obtain ⟨ended, after, hrun, hafter, hended⟩ := h env ht
  refine ⟨ended, after, hrun, hafter, ?_⟩
  cases hended with
  | ok hq => exact .ok hq
  | error cause => exact .error cause

/-! ### Building -/

variable (U keeps)

/-- What stays so does while the store grows. -/
structure Stable : Prop where
  grows {t t' : Store a} (h : t.Grows t') : keeps t → keeps t'
  aside {t : Store a} {k : Nat} (h : keeps t) : U.aside k → k < t.cells.size

/-- What the relation between two sessions has to have. -/
structure Sound : Prop extends U.Stable keeps where
  stands {d u : Grammar a} (h : U.stands d u) : d.Deferred ∧ U.names.found d = U.names.naming.link u
  /-- A deferred part is built to what corresponds to what its partner is linked to. -/
  source {d u : Grammar a} (h : U.node false d u) (t : Store a) : U.Builds keeps t d.build (U.names.naming.link u)

/-- Two parts are deferred, and what is found in the first session corresponds to what is found in the second. -/
def FindAlike (t : Store a) (d u : Grammar a) : Prop :=
  d.Deferred ∧ u.Deferred ∧ U.Finds keeps t d.found (U.names.found u)

/-- What the relation has to have for whole invocations to correspond. -/
structure Faithful : Prop extends U.Sound keeps where
  finds {d u : Grammar a} (h : U.node true d u) (t : Store a) : U.FindAlike keeps t d u

variable {U keeps}

namespace Stable

variable (hU : U.Stable keeps)
include hU

/-- A new cell corresponds to whatever a cell that was made of the same description corresponds to. -/
theorem allocate (hp : U.Describes p u)
    (hd : ∀ {t' k c}, t'.cells[k]? = some c → ¬U.aside k → U.Describes c.body u → U.Node t' true (.cell k) d)
    (id : Option Bytes) (t : Store a) : U.Builds keeps t (Grammar.allocate id p) (.ok d) := fun env ht => by
  have hg := Store.Grows.addCell env.store (.new id p)
  refine ⟨_, _, Grammar.execute_allocate id p env, ⟨hg, ht.inv.addCell (hU.grows hg ht.inv.keeps) hp⟩, .ok ?_⟩
  have hc : (env.store.addCell (.new id p)).cells[env.store.cells.size]? = some (.new id p) := by
    simp [Store.addCell]
  exact .deferred (hd hc (fun hk => Nat.lt_irrefl _ (hU.aside ht.inv.keeps hk)) hp)

/-- A cell whose building is started. -/
theorem later_start (h : U.Inv keeps t) (k : Nat) : U.Later keeps t (t.modifyCell k .start) := by
  have hg : t.Grows (t.modifyCell k .start) := .modifyCell fun _ _ => ⟨rfl, fun _ h => h⟩
  exact ⟨hg, h.modifyCell (hU.grows hg h.keeps) hg fun c hc =>
    ⟨(h.cells hc).described, fun hk _ _ hq hu => ((h.cells hc).built hk hq hu).mono hg⟩⟩

/-- A cell that is built to what is linked of all that its body corresponds to. -/
theorem later_finish (h : U.Inv keeps t) {c : Cell a} (hc : t.cells[k]? = some c) (hbuilt : c.built = none)
    (hq : ∀ u, U.Describes c.body u → U.Found t (.ok q) (U.names.naming.link u)) :
    U.Later keeps t (t.modifyCell k (·.finish q)) := by
  have hg : t.Grows (t.modifyCell k (·.finish q)) := .modifyCell fun c' hc' => ⟨rfl, fun q' hq' => by
    rw [Option.some.inj (hc'.symm.trans hc), hbuilt] at hq'
    cases hq'⟩
  refine ⟨hg, h.modifyCell (hU.grows hg h.keeps) hg fun c' hc' => ⟨(h.cells hc').described, ?_⟩⟩
  rintro - q' u hq' hu
  cases hq'
  exact (hq u (Option.some.inj (hc'.symm.trans hc) ▸ hu)).mono hg

end Stable

namespace Sound

variable (hU : U.Sound keeps)
include hU

omit hU in
theorem buildAll {ps ps' : List (Grammar a)}
    (h : List.Forall₂ (fun p u => ∀ t, U.Builds keeps t p.build (U.names.naming.link u)) ps ps') (t : Store a) :
    U.Follows keeps t (fun t => EndAlike (List.Forall₂ (U.Unfolds t))) (Grammar.buildAll ps)
      (U.names.naming.linkAll ps') := by
  induction h generalizing t with
  | nil => exact .pure fun _ _ => .nil
  | cons hp _ ih =>
    refine .bind (hp t) fun t₁ _ q l hq => .bind (ih t₁) fun t₂ h₂ qs ls hqs => .pure fun t₃ h₃ => ?_
    exact .cons (hq.mono (h₂.trans h₃)) (hqs.imp fun _ _ h => Unfolds.mono h₃ h)

omit hU in
/-- Descriptions whose parts are built. -/
theorem built_parts {mk : List (Grammar a) → Grammar a} {ps ps' : List (Grammar a)}
    (hmk : ∀ {t : Store a} {qs ls : List (Grammar a)}, qs.length = ls.length →
      (∀ k (h : k < qs.length) (h' : k < ls.length), U.Unfolds t qs[k] ls[k]) → U.Unfolds t (mk qs) (mk ls))
    (length : ps.length = ps'.length)
    (h : ∀ k (h : k < ps.length) (h' : k < ps'.length) (t : Store a),
      U.Builds keeps t ps[k].build (U.names.naming.link ps'[k])) (t : Store a) :
    U.Builds keeps t (do return mk (← Grammar.buildAll ps)) (do return mk (← U.names.naming.linkAll ps')) :=
  .bind (buildAll (List.forall₂_iff_get.2 ⟨length, h⟩) t) fun _ _ _ _ hqs =>
    have hqs := List.forall₂_iff_get.1 hqs
    .built (hmk hqs.1 hqs.2)

omit hU in
/-- Descriptions with bounds that are checked after their parts are built. -/
theorem bounded {mk mk' : Except Fault Bounds → Grammar a} (bounds : Except Fault Bounds)
    (h : ∀ b, U.Unfolds t (mk b) (mk' b)) :
    U.Builds keeps t (do return mk (.ok (← Run.ofExcept bounds))) (do return mk' (.ok (← bounds))) :=
  match bounds with
  | .ok b => .built (h (.ok b))
  | .error cause => .giveUp t cause

/-- What a description is built to corresponds to what its partner is linked to. -/
theorem build (h : U.Describes p u) (t : Store a) : U.Builds keeps t p.build (U.names.naming.link u) := by
  unfold Describes at h
  generalize hb : false = b at h
  induction h generalizing t with
  | leaf l => exact .built (.leaf l)
  | andThen _ _ hp hq =>
    exact .bind (hp t hb) fun t₁ _ _ _ hp => .bind (hq t₁ hb) fun _ h₂ _ _ hq => .built (.andThen (hp.mono h₂) hq)
  | skip _ _ hp hq =>
    exact .bind (hp t hb) fun t₁ _ _ _ hp => .bind (hq t₁ hb) fun _ h₂ _ _ hq => .built (.skip (hp.mono h₂) hq)
  | tuple length _ parts => exact built_parts .tuple length (fun k h h' t => parts k h h' t hb) t
  | sequence length _ parts => exact built_parts .sequence length (fun k h h' t => parts k h h' t hb) t
  | alt length _ parts => exact built_parts .alt length (fun k h h' t => parts k h h' t hb) t
  | times _ bounds hp => exact .bind (hp t hb) fun _ _ _ _ hp => bounded bounds (.times hp)
  | sepBy _ _ bounds hp hq =>
    exact .bind (hp t hb) fun t₁ _ _ _ hp => .bind (hq t₁ hb) fun _ h₂ _ _ hq =>
      bounded bounds (.sepBy (hp.mono h₂) hq)
  | manyUntil _ _ bounds hp hq =>
    exact .bind (hp t hb) fun t₁ _ _ _ hp => .bind (hq t₁ hb) fun _ h₂ _ _ hq =>
      bounded bounds (.manyUntil (hp.mono h₂) hq)
  | map _ f hp => exact .bind (hp t hb) fun _ _ _ _ hp => .built (.map hp f)
  | bind _ hf hp =>
    exact .bind (hp t hb) fun _ _ _ _ hp => .built (.bind hp fun v => (hf v).mono fun _ _ _ _ => .given)
  | mark _ hp => exact .bind (hp t hb) fun _ _ _ _ hp => .built (.mark hp)
  | desc _ label hp => exact .bind (hp t hb) fun _ _ _ _ hp => .built (.desc hp label)
  | shouldFail _ label hp => exact .bind (hp t hb) fun _ _ _ _ hp => .built (.shouldFail hp label)
  | peek _ hp => exact .bind (hp t hb) fun _ _ _ _ hp => .built (.peek hp)
  | traced _ name hp => exact .bind (hp t hb) fun _ _ _ _ hp => .built (.traced hp name)
  | raise cause => exact .giveUp t cause
  | lazy id hp => exact hU.allocate hp (fun hc hk hu => .lazy hc hk hu id) id t
  | deferred hd => subst hb; exact hU.source hd t

/-- A cell is found to be built to what corresponds to what is linked of a partner of its body. -/
theorem force {c : Cell a} (hc : t.cells[k]? = some c) (hk : ¬U.aside k) (hu : U.Describes c.body u) :
    U.Finds keeps t (Grammar.force k) (U.names.naming.link u) := fun env ht => by
  obtain ⟨c', hc', hbody, -⟩ := ht.grows.cells hc
  rw [← hbody] at hu
  rcases hbuilt : c'.built with _ | q
  · have hstart := hU.later_start ht.inv k
    have hadds := Grammar.onlyAdds_build c'.body { env with store := env.store.modifyCell k .start }
    have found {u} (hu : U.Describes c'.body u) :=
      (hU.build hu _).finds ⟨env.log, env.store.modifyCell k .start⟩ ⟨.refl _, hstart.inv⟩
    obtain ⟨ended, after, hrun, hafter, hended⟩ := found hu
    have hlater := hstart.grows.trans hafter.grows
    rw [Grammar.execute_force_of_unbuilt hc' hbuilt, hrun]
    rw [hrun] at hadds
    rcases ended with cause | q
    · exact ⟨_, _, rfl, ⟨hlater, hafter.inv⟩, hended⟩
    · have hstarted : (env.store.modifyCell k .start).cells[k]? = some c'.start := by
        rw [Store.modifyCell, Array.getElem?_modify, if_pos rfl, hc']
        rfl
      have hfinish := hU.later_finish hafter.inv (hadds.getElem? hstarted) hbuilt fun u hu => by
        obtain ⟨_, _, hrun', -, hended⟩ := found hu
        cases hrun.symm.trans hrun'
        exact hended
      exact ⟨_, _, rfl, ⟨hlater.trans hfinish.grows, hfinish.inv⟩, hended.mono hfinish.grows⟩
  · exact ⟨_, env, Grammar.execute_force_of_built hc' hbuilt, ⟨.refl _, ht.inv⟩,
      (ht.inv.cells hc').built hk hbuilt hu⟩

end Sound

/-- Deferred parts that correspond are found to be what corresponds. -/
theorem Faithful.findAlike (hU : U.Faithful keeps) (hd : U.Node t true d u) : U.FindAlike keeps t d u := by
  cases hd with
  | given hd => exact hU.finds hd t
  | lazy hc hk hu id => exact ⟨trivial, trivial, hU.force hc hk hu⟩
  | stands hc hk hu hd =>
    obtain ⟨hd, hfound⟩ := hU.stands hd
    exact ⟨trivial, hd, hfound ▸ hU.force hc hk hu⟩

/-! ### Parsers that correspond -/

variable (U keeps)

/-- Runs of both sessions: the first leaves a later store, and both end alike unless the second is given up with a
late cause. -/
def congruence (t : Store a) : Run.Congruence (Store a) (Store a) where
  holds x x' := ∀ env env' : Env (Store a), U.Later keeps t env.store →
    U.Later keeps env.store (x.execute env).2.store ∧
      (x'.outcome env' = x.outcome env ∨ ∃ cause, U.late cause ∧ x'.outcome env' = .error cause)
  ofExcept e env _ ht := ⟨⟨.refl _, ht.inv⟩, .inl rfl⟩
  bind {α β x x' f f'} hx hf env env' ht := by
    obtain ⟨hafter, hended⟩ := hx env env' ht
    simp only [Run.outcome, Run.execute_bind] at hf hended ⊢
    generalize x.execute env = ran at hafter hended ⊢
    generalize x'.execute env' = ran' at hended ⊢
    obtain ⟨ended, after⟩ := ran
    obtain ⟨ended', after'⟩ := ran'
    dsimp only at hended
    have next (v : α) := hf v after after' ⟨ht.grows.trans hafter.grows, hafter.inv⟩
    rcases ended with cause | v
    · rcases hended with rfl | ⟨cause, hc, rfl⟩
      · exact ⟨hafter, .inl rfl⟩
      · exact ⟨hafter, .inr ⟨cause, hc, rfl⟩⟩
    · refine ⟨⟨hafter.grows.trans (next v).1.grows, (next v).1.inv⟩, ?_⟩
      rcases hended with rfl | ⟨cause, hc, rfl⟩
      · exact (next v).2
      · exact .inr ⟨cause, hc, rfl⟩

variable {U keeps}

theorem records : (U.congruence keeps t).Records := fun _ _ _ ht => ⟨⟨.refl _, ht.inv⟩, .inl rfl⟩

/-- What is found in both sessions is entered. -/
theorem Follows.entering {x : Run (Store a) (Grammar a)} {e : Except Fault (Grammar a)}
    {enter enter' : Grammar a → Parser (Store a) a.Carrier Value} (hx : U.Finds keeps t x e)
    (h : ∀ t', t.Grows t' → ∀ q l, U.Unfolds t' q l → (U.congruence keeps t').Carries (enter q) (enter' l)) :
    (U.congruence keeps t).Carries (Interpreter.entering enter x) (Interpreter.entering enter' (Run.ofExcept e)) := by
  intro xs i env env' ht
  obtain ⟨ended, after, hrun, hafter, hended⟩ := hx env ht
  have next {q l} (hq : U.Unfolds after.store q l) :=
    h _ (ht.grows.trans hafter.grows) q l hq xs i after env' ⟨.refl _, hafter.inv⟩
  simp only [Run.outcome] at next
  simp only [Interpreter.entering, Run.outcome, Run.execute_bind, Run.execute_ofExcept, hrun]
  cases hended with
  | error cause => exact ⟨hafter, .inl rfl⟩
  | ok hq =>
    obtain ⟨hlast, hended⟩ := next hq
    exact ⟨⟨hafter.grows.trans hlast.grows, hlast.inv⟩, hended⟩
  | late hq hc =>
    obtain ⟨hlast, -⟩ := next hq
    exact ⟨⟨hafter.grows.trans hlast.grows, hlast.inv⟩, .inr ⟨_, hc, rfl⟩⟩

/-- Corresponding descriptions stand for parsers that end alike, unless the one without cells is given up with a late
cause. -/
theorem Faithful.carries (hU : U.Faithful keeps) (limit : Nat) (t : Store a) (h : U.Unfolds t q l) :
    (U.congruence keeps t).Carries (q.parserWithin limit) (U.names.cacheless.parserWithin limit l) := by
  induction limit generalizing q l t with
  | zero => exact fun _ _ => Run.Congruence.giveUp _ _
  | succ limit ih =>
    rw [← Interpreter.parserWithin_plain, Interpreter.parserWithin, Interpreter.parserWithin]
    simp only [← Interpreter.parserWithin_plain] at ih
    have enters {x e} (hx : U.Finds keeps t x e) := Follows.entering hx fun t' ht q l hq => ih t' hq
    refine Interpreter.carries_parserBy records (Leaf.carries records) (fun hp => enters (hU.build ?_ t).finds) (fun hd => ?_) h
    · exact hp.mono fun b hb d u hd => by
        cases Bool.eq_false_of_le_false hb
        cases hd
        assumption
    · obtain ⟨hd, hu, hfound⟩ := hU.findAlike hd
      rw [Interpreter.parserBy_of_deferred hd, Interpreter.parserBy_of_deferred hu]
      exact enters hfound

/-- A parser that is built and invoked ends as what is linked of a partner of its description, unless that is given up
with a late cause. -/
theorem Faithful.invoke (hU : U.Faithful keeps) (hp : U.Describes p u) (limit : Nat) (xs : List a.Carrier) (i : Nat)
    (env : Env (Store a)) (hinv : U.Inv keeps env.store) :
    U.Later keeps env.store ((Session.invokeWithin limit p xs i).execute env).2.store ∧
      (U.names.linkedOutcome limit u xs i = (Session.invokeWithin limit p xs i).outcome env ∨
        ∃ cause, U.late cause ∧ U.names.linkedOutcome limit u xs i = .error cause) :=
  (hU.build hp env.store).finds.entering (fun t _ _ _ hq => hU.carries limit t hq) xs i env
    ⟨.ofLevel .off, U.names⟩ ⟨.refl _, hinv⟩

end Unfolding

end Furthest
