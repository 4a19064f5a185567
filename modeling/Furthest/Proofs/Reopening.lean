import Furthest.Proofs.DescribedVariation
import Furthest.Proofs.Unfolding

/-!
# A session beside itself

`reopening` has a session beside itself: one invocation builds in the store, the other is interpreted without cells,
by what names stand for in a store that stays as it is. That needs a store that is closed (`Store.Scoped`):
descriptions have no addresses, and what is built has no address of a cell that is not there. `Store.Remembers` has
that cells hold what was linked of their bodies.

Main statements: `Store.Remembers.later`, which is what building keeps, and `invoke_exactly`, `cell_outcome` and
`invoke_outcome`, by which invocations end as if nothing was built.
-/

namespace Furthest

variable {α : Type} {a : Alphabet}

/-! ## Descriptions without addresses -/

namespace Grammar

/-- A reference to a rule, a definition or a declaration by its name. -/
def ByName : Grammar a → Prop
  | .rule _ | .call _ | .ref _ | .forward _ => True
  | _ => False

/-- Nothing in the description is an address of a store. -/
abbrev Source : Grammar a → Prop := Mentions ByName

/-- References correspond to themselves: names in what is to be built, and rules and addresses in what is built. The
addresses of cells are below a bound. -/
inductive Same (bound : Nat) : (built : Bool) → Grammar a → Grammar a → Prop
  | byName {d : Grammar a} (h : d.ByName) : Same bound false d d
  | call (name : Bytes) : Same bound true (.call name) (.call name)
  | declared (k : Nat) : Same bound true (.declared k) (.declared k)
  | cell {k : Nat} (h : k < bound) : Same bound true (.cell k) (.cell k)

/-- A description to be built has no address. -/
abbrev Plain (p : Grammar a) : Prop := Alike (Same 0) false p p

/-- A built description has no addresses of cells but those below a bound. -/
abbrev Within (bound : Nat) (q : Grammar a) : Prop := Alike (Same bound) true q q

theorem Same.eq {bound : Nat} {b : Bool} {d u : Grammar a} (h : Same bound b d u) : d = u := by
  cases h <;> rfl

theorem Same.mono {bound bound' : Nat} (h : bound ≤ bound') {b : Bool} {d u : Grammar a} (hd : Same bound b d u) :
    Same bound' b d u := by
  cases hd with
  | byName hd => exact .byName hd
  | call name => exact .call name
  | declared k => exact .declared k
  | cell hk => exact .cell (hk.trans_le h)

theorem Source.plain {p : Grammar a} (h : p.Source) : p.Plain := Mentions.alike (fun _ => .byName) h

theorem Within.mono {bound bound' : Nat} (h : bound ≤ bound') {q : Grammar a} (hq : q.Within bound) :
    q.Within bound' := Alike.mono (fun _ _ _ _ => .mono h) hq

end Grammar

open Grammar (Same)

/-- Nothing in the store has addresses of cells that are not there, and nothing that is to be built has an address. -/
structure Store.Scoped (s : Store a) : Prop where
  rules {name : Bytes} {p : Grammar a} (h : s.rules.lookup name = some p) : p.Plain
  definitions {name : Bytes} {q : Grammar a} (h : s.definitions.lookup name = some q) : q.Within s.cells.size
  declarations {k : Nat} {q : Grammar a} (h : s.declarations[k]? = some (.bound q)) : q.Within s.cells.size
  bodies {k : Nat} {c : Cell a} (hc : s.cells[k]? = some c) : c.body.Plain
  built {k : Nat} {c : Cell a} (hc : s.cells[k]? = some c) {q : Grammar a} (hq : c.built = some q) :
    q.Within s.cells.size

/-! ## A session beside itself -/

/-- A session beside itself, where nothing is built but what is built in one store. -/
def reopening (s : Store a) (aside : Nat → Prop) (late : Fault → Prop) : Unfolding a where
  names := s
  node := Same s.cells.size
  stands _ _ := False
  aside := aside
  late := late

namespace reopening

variable {s t : Store a} {aside : Nat → Prop} {late : Fault → Prop}

theorem names_eq : (reopening s aside late).names = s := rfl

theorem describes_iff {p u : Grammar a} : (reopening s aside late).Describes p u ↔ p = u ∧ p.Plain := by
  constructor
  · intro h
    obtain rfl := h.eq fun _ _ _ => Same.eq
    exact ⟨rfl, h.mono fun b hb d u hd => by
      cases Bool.eq_false_of_le_false hb
      cases hd with
      | byName hd => exact .byName hd⟩
  · rintro ⟨rfl, h⟩
    exact h.mono fun _ _ _ _ => Same.mono (Nat.zero_le _)

theorem unfolds_of_within {q : Grammar a} (h : q.Within s.cells.size) :
    (reopening s aside late).Unfolds t q q := Grammar.Alike.mono (fun _ _ _ _ => .given) h

/-- What a name stands for corresponds to itself. -/
theorem resolve {β : Type} {S : Store a → β → β → Prop} {names : List (Bytes × β)} {name : Bytes}
    (h : ∀ x, names.lookup name = some x → ∀ t', S t' x x) :
    (reopening s aside late).Follows s.Grows t (fun t => EndAlike (S t)) (Run.ofExcept (Store.resolve names name))
      (Store.resolve names name) := .ofExcept fun t' _ => Store.endAlike_resolve (by
    cases hx : names.lookup name with
    | none => exact .none
    | some x => exact .some (h x hx t'))

variable (hs : s.Scoped) (haside : ∀ k, aside k → s.isBuilt k = true)
include haside

theorem stable : (reopening s aside late).Stable s.Grows where
  grows h := fun hs => hs.trans h
  aside {t k} h hk := by
    have hbuilt := haside k hk
    unfold Store.isBuilt at hbuilt
    by_contra hlt
    rw [Array.getElem?_eq_none (h.size_le.trans (Nat.le_of_not_lt hlt))] at hbuilt
    cases hbuilt

include hs in
theorem sound : (reopening s aside late).Sound s.Grows where
  toStable := stable haside
  stands := nofun
  source {d u} h t := by
    cases h with
    | byName h =>
      cases d with
      | rule name =>
        refine .getStore fun t' ht => ht.inv.keeps.rules ▸ .bind
          (S := fun _ p u => (reopening s aside late).Describes p u) (resolve fun p hp _ => ?_) fun t₁ _ p u hu => ?_
        · exact describes_iff.2 ⟨rfl, hs.rules hp⟩
        · exact (stable haside).allocate hu (fun hc hk hu => .lazy hc hk hu none) none t₁
      | call name => exact .built (.deferred (.given (.call name)))
      | ref name =>
        refine .getStore fun t' ht => ht.inv.keeps.definitions ▸ resolve fun q hq _ => ?_
        exact unfolds_of_within (hs.definitions hq)
      | forward name =>
        refine .getStore fun t' ht => ht.inv.keeps.names ▸
          .bind (S := fun _ => Eq) (resolve fun k _ _ => rfl) fun t₁ _ k k' hk => ?_
        exact hk ▸ .built (.deferred (.given (.declared k)))
      | _ => exact h.elim

include hs in
/-- A reference finds what it stands for. -/
theorem finds {d u : Grammar a} (h : Same s.cells.size true d u) (t : Store a) :
    (reopening s aside late).FindAlike s.Grows t d u := by
  cases h with
  | call name =>
    refine ⟨trivial, trivial, Unfolding.Builds.finds (.getStore fun t' ht => ht.inv.keeps.rules ▸ .bind
      (S := fun _ p u => (reopening s aside late).Describes p u) (resolve fun p hp _ => ?_) fun t₁ _ p u hu => ?_)⟩
    · exact describes_iff.2 ⟨rfl, hs.rules hp⟩
    · exact (sound hs haside).build hu t₁
  | declared k =>
    refine ⟨trivial, trivial, Unfolding.Builds.finds (.getStore fun t' ht => ?_)⟩
    rw [ht.inv.keeps.declarations, Store.found, names_eq]
    rcases hd : s.declarations[k]? with _ | ⟨_ | q | _⟩
    · exact .giveUp _ _
    · exact .giveUp _ _
    · exact .built (unfolds_of_within (hs.declarations hd))
    · exact .giveUp _ _
  | @cell k hk =>
    refine ⟨trivial, trivial, fun env ht => ?_⟩
    have hc := Array.getElem?_eq_getElem hk
    obtain ⟨c', hc', hbody, hbuilt⟩ := ht.inv.keeps.cells hc
    generalize s.cells[k] = c at hc hbody hbuilt
    rcases hq : c.built with _ | q
    · have hfound : s.found (.cell k) = s.naming.link c.body := by simp only [Store.found, hc, hq]
      have hown : ¬aside k := fun hk => by
        have := haside k hk
        rw [Store.isBuilt_of_getElem? hc, hq] at this
        cases this
      refine hfound ▸ (sound hs haside).force hc' hown ?_ env ⟨.refl _, ht.inv⟩
      exact describes_iff.2 ⟨hbody, hbody ▸ hs.bodies hc⟩
    · have hfound : s.found (.cell k) = .ok q := by simp only [Store.found, hc, hq]
      exact hfound ▸ ⟨_, env, Grammar.execute_force_of_built hc' (hbuilt q hq), ⟨.refl _, ht.inv⟩,
        .ok (unfolds_of_within (hs.built hc hq))⟩

include hs in
theorem faithful : (reopening s aside late).Faithful s.Grows := ⟨sound hs haside, finds hs haside⟩

omit haside in
/-- What corresponds still does in a store that has the same cells and more. -/
theorem unfolds_mono {s' t' : Store a} {aside' : Nat → Prop} {late' : Fault → Prop} {q l : Grammar a}
    (hsize : s.cells.size ≤ s'.cells.size) (haside' : ∀ k, aside' k → aside k)
    (ht : ∀ {k : Nat} {c : Cell a}, t.cells[k]? = some c → ∃ c' : Cell a, t'.cells[k]? = some c' ∧ c'.body = c.body)
    (h : (reopening s aside late).Unfolds t q l) : (reopening s' aside' late').Unfolds t' q l :=
  Grammar.Alike.mono (fun b _ d u hd => by
    cases hd with
    | given hd => exact .given (hd.mono hsize)
    | lazy hc hk hu id =>
      obtain ⟨c', hc', hbody⟩ := ht hc
      exact .lazy hc' (fun hk' => hk (haside' _ hk')) (hbody ▸ describes_iff.2 (describes_iff.1 hu)) id
    | stands _ _ _ hd => exact hd.elim) h

omit haside in
/-- What a store has been built to is within the store. -/
theorem within_of_unfolds {q l : Grammar a} (hsize : s.cells.size ≤ t.cells.size)
    (h : (reopening s aside late).Unfolds t q l) : q.Within t.cells.size :=
  h.left fun b d u hd => by
    cases hd with
    | given hd =>
      obtain rfl := hd.eq
      exact hd.mono hsize
    | lazy hc => exact .cell (Array.getElem?_eq_some_iff.1 hc).1
    | stands _ _ _ hd => exact hd.elim

end reopening

/-! ## What is remembered -/

/-- What a cell was built to corresponds to a description, whatever the store stands for. -/
abbrev Opens (t : Store a) (q l : Grammar a) : Prop :=
  (reopening t (fun _ => False) fun _ => False).Unfolds t q l

/-- A session beside itself, where all is linked anew that is not built already. -/
abbrev exactly (s : Store a) : Unfolding a := reopening s (s.isBuilt · = true) fun _ => False

/-- Nothing in the store has addresses of cells that are not there, and cells were built to what was linked of their
bodies. -/
structure Store.Remembers (linked : Grammar a → Grammar a → Prop) (t : Store a) : Prop where
  closed : t.Scoped
  built {k : Nat} {c : Cell a} (hc : t.cells[k]? = some c) {q : Grammar a} (hq : c.built = some q) :
    ∃ l, linked c.body l ∧ Opens t q l

section

variable {s t : Store a} {linked linked' : Grammar a → Grammar a → Prop}

theorem inv_exactly (hs : s.Scoped) : (exactly s).Inv s.Grows s where
  keeps := .refl s
  cells {k c} hc := by
    refine ⟨⟨c.body, reopening.describes_iff.2 ⟨rfl, hs.bodies hc⟩⟩, fun hk q u hq hu => absurd ?_ hk⟩
    show s.isBuilt k = true
    rw [Store.isBuilt_of_getElem? hc, hq]
    rfl

/-- A cell of a later store was built before, or it was built to what was linked of its body. -/
theorem built_cases (h : (exactly s).Later s.Grows s t) {k : Nat} {c : Cell a}
    (hc : t.cells[k]? = some c) {q : Grammar a} (hq : c.built = some q) :
    (∃ c₀, s.cells[k]? = some c₀ ∧ c₀.body = c.body ∧ c₀.built = some q) ∨
      s.isBuilt k = false ∧ ∃ l, s.naming.link c.body = .ok l ∧ (exactly s).Unfolds t q l := by
  by_cases hk : s.isBuilt k = true
  · rcases hc₀ : s.cells[k]? with _ | c₀
    · rw [Store.isBuilt, hc₀] at hk
      cases hk
    · rw [Store.isBuilt_of_getElem? hc₀] at hk
      obtain ⟨q₀, hq₀⟩ := Option.isSome_iff_exists.1 hk
      obtain ⟨c', hc', hbody, hbuilt⟩ := h.grows.cells hc₀
      obtain rfl := Option.some.inj (hc.symm.trans hc')
      exact .inl ⟨c₀, rfl, hbody.symm, hq₀.trans ((hbuilt q₀ hq₀).symm.trans hq)⟩
  · have hbody := (h.inv.cells hc).described.elim fun u hu => (reopening.describes_iff.1 hu).2
    have hfound := (h.inv.cells hc).built hk hq (reopening.describes_iff.2 ⟨rfl, hbody⟩)
    refine .inr ⟨Bool.eq_false_of_not_eq_true hk, ?_⟩
    generalize hl : (exactly s).names.naming.link c.body = e at hfound
    cases hfound with
    | ok hq => exact ⟨_, hl, hq⟩
    | late _ hc => exact hc.elim

/-- A store that a scoped store grows to by building is scoped. -/
theorem Store.Scoped.later (hs : s.Scoped) (h : (exactly s).Later s.Grows s t) : t.Scoped where
  rules hp := hs.rules (h.grows.rules ▸ hp)
  definitions hq := (hs.definitions (h.grows.definitions ▸ hq)).mono h.grows.size_le
  declarations hq := (hs.declarations (h.grows.declarations ▸ hq)).mono h.grows.size_le
  bodies hc := (h.inv.cells hc).described.elim fun u hu => (reopening.describes_iff.1 hu).2
  built hc q hq := by
    rcases built_cases h hc hq with ⟨c₀, hc₀, -, hq₀⟩ | ⟨-, l, -, hl⟩
    · exact (hs.built hc₀ hq₀).mono h.grows.size_le
    · exact reopening.within_of_unfolds h.grows.size_le hl

/-- What was linked before still was, and what is built now is linked now. -/
theorem Store.Remembers.later (hs : s.Remembers linked) (h : (exactly s).Later s.Grows s t)
    (hlinked : ∀ p l, linked p l → linked' p l)
    (hnew : ∀ k, s.isBuilt k = false → t.isBuilt k = true → ∀ p l, s.naming.link p = .ok l → linked' p l) :
    t.Remembers linked' where
  closed := hs.closed.later h
  built {k c} hc q hq := by
    rcases built_cases h hc hq with ⟨c₀, hc₀, hbody, hq₀⟩ | ⟨hk, l, hlink, hl⟩
    · obtain ⟨l, hl, hopens⟩ := hs.built hc₀ hq₀
      refine ⟨l, hbody ▸ hlinked _ _ hl, reopening.unfolds_mono h.grows.size_le (fun _ => id) (fun hc => ?_) hopens⟩
      obtain ⟨c', hc', hbody, -⟩ := h.grows.cells hc
      exact ⟨c', hc', hbody⟩
    · have hbuilt : t.isBuilt k = true := by
        rw [Store.isBuilt_of_getElem? hc, hq]
        rfl
      exact ⟨l, hnew k hk hbuilt _ _ hlink,
        reopening.unfolds_mono h.grows.size_le (fun _ => False.elim) (fun hc => ⟨_, hc, rfl⟩) hl⟩

/-- Only the cells of a store matter for what cells were built to. -/
theorem Store.Remembers.of_cells (hs : s.Remembers linked) (hcells : t.cells = s.cells) (ht : t.Scoped) :
    t.Remembers linked where
  closed := ht
  built hc q hq := by
    rw [hcells] at hc
    obtain ⟨l, hl, hopens⟩ := hs.built hc hq
    have hsize : s.cells.size ≤ t.cells.size := hcells ▸ Nat.le_refl _
    exact ⟨l, hl, reopening.unfolds_mono hsize (fun _ => id) (fun hc => ⟨_, hcells ▸ hc, rfl⟩) hopens⟩

/-- A store with the cells of a scoped store, where other names stand for other things. -/
theorem Store.Scoped.of_cells (hs : s.Scoped) (hcells : t.cells = s.cells) (hrules : t.rules = s.rules)
    (hdefinitions : ∀ {name q}, t.definitions.lookup name = some q → q.Within s.cells.size)
    (hdeclarations : ∀ {k : Nat} {q : Grammar a}, t.declarations[k]? = some (.bound q) → q.Within s.cells.size) :
    t.Scoped where
  rules hp := hs.rules (hrules ▸ hp)
  definitions hq := hcells ▸ hdefinitions hq
  declarations hq := hcells ▸ hdeclarations hq
  bodies hc := hs.bodies (hcells ▸ hc)
  built hc _ hq := hcells ▸ hs.built (hcells ▸ hc) hq

theorem Store.Scoped.define (hs : s.Scoped) (name : Bytes) {q : Grammar a} (hq : q.Within s.cells.size) :
    (s.define name q).Scoped :=
  hs.of_cells rfl rfl (fun {name'} _ h => by
    rw [Store.define, List.lookup_cons] at h
    split at h
    · exact Option.some.inj h ▸ hq
    · exact hs.definitions h) hs.declarations

theorem Store.Scoped.setDeclaration (hs : s.Scoped) (k : Nat) {d : Declaration a}
    (hd : ∀ q, d = .bound q → q.Within s.cells.size) : (s.setDeclaration k d).Scoped :=
  hs.of_cells rfl rfl hs.definitions fun {k' q} h => by
    rw [Store.setDeclaration, Array.getElem?_setIfInBounds] at h
    split at h
    · split at h
      · exact hd q (Option.some.inj h)
      · cases h
    · exact hs.declarations h

theorem Store.Scoped.drop (hs : s.Scoped) (name : Bytes) : (s.drop name).Scoped := by
  unfold Store.drop
  split
  · have h := hs.setDeclaration ‹_› (d := .gone) nofun
    exact h.of_cells rfl rfl h.definitions h.declarations
  · exact hs

theorem Store.Scoped.declare (hs : s.Scoped) (name : Bytes) : (s.declare name).Scoped :=
  (hs.drop name).of_cells rfl rfl (hs.drop name).definitions fun {k q} h => by
    simp only [Store.declare, Array.getElem?_push] at h
    split at h
    · cases h
    · exact (hs.drop name).declarations h

/-- A source description is built, and what is built is within the store. -/
theorem build_exactly {p : Grammar a} (hp : p.Plain) (env : Env (Store a)) (hs : env.store.Scoped) :
    ∃ ended last, p.build.execute env = (ended, last) ∧
      (exactly env.store).Later env.store.Grows env.store last.store ∧
      EndAlike ((exactly env.store).Unfolds last.store) ended (env.store.naming.link p) :=
  (reopening.sound hs fun _ => id).build (reopening.describes_iff.2 ⟨rfl, hp⟩) env.store env
    ⟨.refl _, inv_exactly hs⟩

/-- Building is given up with the cause with which linking is. -/
theorem build_outcome_eq_error_iff {p : Grammar a} (hp : p.Plain) (env : Env (Store a)) (hs : env.store.Scoped)
    {cause : Fault} : p.build.outcome env = .error cause ↔ env.store.naming.link p = .error cause := by
  obtain ⟨ended, last, hrun, -, hended⟩ := build_exactly hp env hs
  rw [Run.outcome, hrun]
  generalize env.store.naming.link p = e at hended
  cases hended with
  | ok h => simp
  | error cause => rfl

/-- An invocation only builds, and ends as it does in a store that stays as it is. -/
theorem invoke_exactly {p : Grammar a} (hp : p.Plain) (env : Env (Store a)) (hs : env.store.Scoped) (limit : Nat)
    (xs : List a.Carrier) (i : Nat) :
    (exactly env.store).Later env.store.Grows env.store
        ((Session.invokeWithin limit p xs i).execute env).2.store ∧
      (Session.invokeWithin limit p xs i).outcome env = env.store.linkedOutcome limit p xs i := by
  obtain ⟨hlater, hended⟩ := (reopening.faithful hs fun _ => id).invoke
    (reopening.describes_iff.2 ⟨rfl, hp⟩) limit xs i env (inv_exactly hs)
  exact ⟨hlater, (hended.resolve_right fun ⟨_, hc, _⟩ => hc.elim).symm⟩

/-- A session in a store that has built more than another, beside the other. Where what a cell was built to is not
what is linked of its body, linking that is given up with a late cause. -/
theorem inv_reopening {late : Fault → Prop} (hs : t.Scoped) (hg : s.Grows t) (hsize : t.cells.size ≤ s.cells.size)
    (hbuilt : ∀ {k : Nat} {c : Cell a} {q : Grammar a}, t.cells[k]? = some c → c.built = some q →
      ∃ l, Opens t q l ∧ (s.naming.link c.body = .ok l ∨ ∃ cause, late cause ∧ s.naming.link c.body = .error cause)) :
    (reopening s (fun _ => False) late).Inv s.Grows t where
  keeps := hg
  cells {k c} hc := by
    refine ⟨⟨c.body, reopening.describes_iff.2 ⟨rfl, hs.bodies hc⟩⟩, fun _ q u hq hu => ?_⟩
    obtain rfl := (reopening.describes_iff.1 hu).1
    obtain ⟨l, hl, hlink⟩ := hbuilt hc hq
    have hl : (reopening s (fun _ => False) late).Unfolds t q l :=
      reopening.unfolds_mono hsize (fun _ => id) (fun hc => ⟨_, hc, rfl⟩) hl
    show Unfolding.Found _ t (.ok q) (s.naming.link c.body)
    rcases hlink with h | ⟨cause, hlate, h⟩
    · exact h ▸ .ok hl
    · exact h ▸ .late hl hlate

section

variable {late : Fault → Prop} {env : Env (Store a)} (hs : s.Scoped)
variable (hinv : (reopening s (fun _ => False) late).Inv s.Grows env.store)
variable (limit : Nat) (xs : List a.Carrier) (i : Nat)
include hs hinv

/-- The parser of a cell ends as what is linked of its body. -/
theorem cell_outcome {k : Nat} {c : Cell a} (hc : env.store.cells[k]? = some c) :
    s.linkedOutcome limit c.body xs i = ((Grammar.cell k).parserWithin (limit + 1) xs i).outcome env ∨
      ∃ cause, late cause ∧ s.linkedOutcome limit c.body xs i = .error cause := by
  have hU : (reopening s (fun _ => False) late).Faithful s.Grows := reopening.faithful hs fun _ => False.elim
  obtain ⟨u, hu⟩ := (hinv.cells hc).described
  obtain rfl := (reopening.describes_iff.1 hu).1
  have hcell : (reopening s (fun _ => False) late).Unfolds env.store (.cell k) (.lazy none c.body) :=
    .deferred (.lazy hc id hu none)
  exact (hU.carries (limit + 1) env.store hcell xs i env ⟨.ofLevel .off, s⟩ ⟨.refl _, hinv⟩).2

/-- A parser that is built and invoked ends as what is linked of its description. -/
theorem invoke_outcome {p : Grammar a} (hp : p.Plain) :
    s.linkedOutcome limit p xs i = (Session.invokeWithin limit p xs i).outcome env ∨
      ∃ cause, late cause ∧ s.linkedOutcome limit p xs i = .error cause := by
  have hU : (reopening s (fun _ => False) late).Faithful s.Grows := reopening.faithful hs fun _ => False.elim
  exact (hU.invoke (reopening.describes_iff.2 ⟨rfl, hp⟩) limit xs i env hinv).2

end

end

/-! ## Forgetting what was built -/

/-- The store with the same cells, none of which is built. -/
def Store.forgotten (s : Store a) : Store a := { s with cells := s.cells.map fun c => { c with built := none } }

section

variable {s : Store a}

theorem Store.getElem?_forgotten {k : Nat} {c : Cell a} (hc : s.forgotten.cells[k]? = some c) :
    ∃ c₀, s.cells[k]? = some c₀ ∧ c = { c₀ with built := none } := by
  rw [forgotten, Array.getElem?_map] at hc
  obtain ⟨c₀, hc₀, rfl⟩ := Option.map_eq_some_iff.1 hc
  exact ⟨c₀, hc₀, rfl⟩

theorem Store.Grows.forgotten (s : Store a) : s.forgotten.Grows s :=
  ⟨rfl, rfl, rfl, rfl, fun hc => by
    obtain ⟨c₀, hc₀, rfl⟩ := Store.getElem?_forgotten hc
    exact ⟨c₀, hc₀, rfl, nofun⟩⟩

theorem Store.size_forgotten (s : Store a) : s.forgotten.cells.size = s.cells.size := Array.size_map ..

theorem Store.Scoped.forgotten (hs : s.Scoped) : s.forgotten.Scoped where
  rules hp := hs.rules hp
  definitions hq := s.size_forgotten ▸ hs.definitions hq
  declarations hq := s.size_forgotten ▸ hs.declarations hq
  bodies hc := by
    obtain ⟨c₀, hc₀, rfl⟩ := Store.getElem?_forgotten hc
    exact (hs.bodies hc₀ :)
  built hc _ hq := by
    obtain ⟨c₀, -, rfl⟩ := Store.getElem?_forgotten hc
    cases hq

end

end Furthest
