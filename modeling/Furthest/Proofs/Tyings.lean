import Furthest.Proofs.Unfolding

/-!
# Ways to tie recursive rules

The rules of a table refer to each other by name. A reference is tied by a cell that the rule is built in on first
use, by building the rule on every use, or by a declaration that was bound to the rule. `RuleTable.start` is the
session of a table whose references are tied; each name may have a way of its own.

What is tied corresponds to what it was made of (`RuleTable.untying`): the session on one side, with its cells and
declarations, and on the other the table, where a reference is looked up and linked anew each time. Invocations in
sessions that tie in different ways thus end as one that is in no session.

Main statement: `tyings_agree`.
-/

namespace Furthest

variable {β : Type} {a : Alphabet}

/-! ## Tied tables -/

/-- A way to tie a reference to a rule. -/
inductive Tying where
  /-- The rule is built once, when it is first used. -/
  | onFirstUse
  /-- The rule is built whenever it is used. -/
  | onEveryUse
  /-- The rule is built before it is used, and a declaration is bound to it. -/
  | declared
deriving DecidableEq

/-- The description of a reference that is tied in some way. -/
def Tying.reference : Tying → Bytes → Grammar a
  | onFirstUse, name => .rule name
  | onEveryUse, name => .call name
  | declared, name => .forward name

namespace Grammar

/-- The description with every reference tied in the way of its name. -/
def tie (ways : Bytes → Tying) : Grammar a → Grammar a :=
  substitute fun
    | .call name => (ways name).reference name
    | d => d

/-- All that the description mentions are rules of some names. -/
abbrev RefersTo (names : List Bytes) : Grammar a → Prop := Mentions fun d => ∃ name ∈ names, d = .call name

end Grammar

/-- Rules that refer to each other by name, and are built without being given up. -/
structure RuleTable (a : Alphabet) where
  rules : List (Bytes × Grammar a)
  nodup : (rules.map Prod.fst).Nodup
  closed : ∀ r ∈ rules, r.2.RefersTo (rules.map Prod.fst)
  builds : ∀ r ∈ rules, ∃ q, r.2.build.outcome (Session.initial rules .off) = .ok q

/-- Another rule in brackets, or nothing. -/
def Grammar.bracketed (left right : UInt8) (name : Bytes) : Grammar .bytes :=
  .alt [.skip (.andThen (.one (.symbol left)) (.call name)) (.one (.symbol right)), .succeed .unit]

/-- Square brackets in round ones, and round ones in square ones. -/
def brackets : RuleTable .bytes where
  rules := [(ascii "round", .bracketed 40 41 (ascii "square")), (ascii "square", .bracketed 91 93 (ascii "round"))]
  nodup := by
    rw [List.map]
    decide
  closed := by
    simp [Grammar.bracketed, Grammar.Mentions, Grammar.MentionsAll, Grammar.succeed, Grammar.one]
  builds := List.forall_mem_cons.2 ⟨⟨_, rfl⟩, List.forall_mem_singleton.2 ⟨_, rfl⟩⟩

namespace RuleTable

variable (table : RuleTable a) (ways : Bytes → Tying)

def names : List Bytes := table.rules.map Prod.fst

/-- The description refers to rules of the table, and to nothing else. -/
abbrev Closed (p : Grammar a) : Prop := p.RefersTo table.names

/-- The rules that declarations are bound to. -/
def declared : List (Bytes × Grammar a) := table.rules.filter (ways ·.1 = .declared)

/-- The other rules, tied. -/
def undeclared : List (Bytes × Grammar a) :=
  (table.rules.filter (ways ·.1 ≠ .declared)).map fun r => (r.1, r.2.tie ways)

/-- A session of the rules, in which declarations are made first and then bound. -/
def start (level : Level) : Env (Store a) :=
  Session.after ((table.declared ways).map (fun r => .declare r.1) ++
      (table.declared ways).map fun r => .become r.1 (r.2.tie ways))
    (Session.initial (table.undeclared ways) level)

/-- The step invokes a parser that refers to the rules. -/
def Invokes (step : Session.Step a) : Prop :=
  ∃ p xs i, table.Closed p ∧ step = .invoke (p.tie ways) xs i

variable {table ways}

theorem lookup_eq_of_mem {rules : List (Bytes × β)} (hnd : (rules.map Prod.fst).Nodup) {r : Bytes × β}
    (hr : r ∈ rules) : rules.lookup r.1 = some r.2 := by
  induction rules with
  | nil => cases hr
  | cons r' rules ih =>
    obtain ⟨hr', hnd⟩ := List.nodup_cons.1 hnd
    rw [List.lookup_cons]
    rcases List.mem_cons.1 hr with rfl | hr
    · rw [BEq.rfl]
    · have hne : r.1 ≠ r'.1 := fun h => hr' (h ▸ List.mem_map_of_mem hr)
      rw [beq_eq_false_iff_ne.2 hne]
      exact ih hnd hr

/-- The rule of a name is the only one. -/
theorem eq_of_fst {r r' : Bytes × Grammar a} (hr : r ∈ table.rules) (hr' : r' ∈ table.rules) (h : r.1 = r'.1) :
    r = r' := by
  have hlookup := lookup_eq_of_mem table.nodup hr
  rw [h, lookup_eq_of_mem table.nodup hr'] at hlookup
  exact Prod.ext h (Option.some.inj hlookup).symm

theorem mem_names {r : Bytes × Grammar a} (h : r ∈ table.rules) : r.1 ∈ table.names := List.mem_map_of_mem h

theorem mem_declared {r : Bytes × Grammar a} :
    r ∈ table.declared ways ↔ r ∈ table.rules ∧ ways r.1 = .declared := by
  rw [declared, List.mem_filter, decide_eq_true_eq]

theorem nodup_declared : ((table.declared ways).map Prod.fst).Nodup :=
  table.nodup.sublist (List.filter_sublist.map _)

/-- The rule of a name is found, unless it is declared. -/
theorem lookup_undeclared {r : Bytes × Grammar a} (h : r ∈ table.rules) (hway : ways r.1 ≠ .declared) :
    (table.undeclared ways).lookup r.1 = some (r.2.tie ways) := by
  have hnd : ((table.undeclared ways).map Prod.fst).Nodup := by
    rw [undeclared, List.map_map]
    exact table.nodup.sublist (List.filter_sublist.map _)
  have hr : (r.1, r.2.tie ways) ∈ table.undeclared ways :=
    List.mem_map_of_mem (List.mem_filter.2 ⟨h, decide_eq_true hway⟩)
  exact lookup_eq_of_mem hnd hr

/-- Rules that are built on every use are as they are in the table. -/
theorem tie_onEveryUse {p : Grammar a} (hp : table.Closed p) : p.tie (fun _ => .onEveryUse) = p :=
  hp.substitute_eq fun _ ⟨_, _, h⟩ => h ▸ rfl

end RuleTable

/-! ## Declared names -/

namespace Store

theorem cells_setDeclaration (t : Store a) (k : Nat) (d : Declaration a) :
    (t.setDeclaration k d).cells = t.cells := rfl

section

variable {t : Store a} {name : Bytes} (h : t.names.lookup name = none)
include h

theorem declare_of_lookup_eq_none : t.declare name =
    { t with names := (name, t.declarations.size) :: t.names, declarations := t.declarations.push .unbound } := by
  rw [declare, drop, h]

theorem lookup_declare (name' : Bytes) : (t.declare name).names.lookup name' =
    if name' = name then some t.declarations.size else t.names.lookup name' := by
  rw [declare_of_lookup_eq_none h, List.lookup_cons]
  by_cases h : name' = name
  · rw [h, BEq.rfl, if_pos rfl]
  · rw [beq_eq_false_iff_ne.2 h, if_neg h]

end

end Store

/-! ## Tied and untied descriptions -/

namespace RuleTable

variable {table : RuleTable a} {ways : Bytes → Tying}

/-- How what is tied corresponds to references, where names that are declared have addresses. -/
inductive Ties (table : RuleTable a) (ways : Bytes → Tying) (addresses : List (Bytes × Nat)) :
    (built : Bool) → Grammar a → Grammar a → Prop
  | reference {name : Bytes} (h : name ∈ table.names) :
    Ties table ways addresses false ((ways name).reference name) (.call name)
  | call {name : Bytes} (h : name ∈ table.names) (hway : ways name = .onEveryUse) :
    Ties table ways addresses true (.call name) (.call name)
  | declared {name : Bytes} {k : Nat} (h : name ∈ table.names) (hway : ways name = .declared)
    (hk : addresses.lookup name = some k) : Ties table ways addresses true (.declared k) (.call name)

/-- A session of tied rules beside the table, in which nothing is built. -/
def untying (table : RuleTable a) (ways : Bytes → Tying) (addresses : List (Bytes × Nat)) : Unfolding a where
  names := .ofRules table.rules
  node := table.Ties ways addresses
  stands d u := ∃ name, (name, u) ∈ table.rules ∧ d = .call name
  aside _ := False
  late _ := False

variable {addresses : List (Bytes × Nat)}

theorem describes_tie {p : Grammar a} (hp : table.Closed p) :
    (table.untying ways addresses).Describes (p.tie ways) p :=
  hp.alike_substitute fun _ ⟨_, hname, h⟩ => h ▸ .reference hname

/-- Names that are declared stand for addresses, each for its own, and others for rules. -/
structure Names (table : RuleTable a) (ways : Bytes → Tying) (addresses : List (Bytes × Nat)) (t : Store a) :
    Prop where
  rules {r : Bytes × Grammar a} (h : r ∈ table.rules) (hway : ways r.1 ≠ .declared) :
    t.rules.lookup r.1 = some (r.2.tie ways)
  names : t.names = addresses
  found {name : Bytes} (h : name ∈ table.names) (hway : ways name = .declared) :
    ∃ k, addresses.lookup name = some k ∧ k < t.declarations.size
  apart {name name' : Bytes} {k : Nat} (h : addresses.lookup name = some k) (h' : addresses.lookup name' = some k) :
    name = name'

/-- A declaration is bound to what was built of a rule. -/
def Bound (table : RuleTable a) (ways : Bytes → Tying) (addresses : List (Bytes × Nat)) (t : Store a)
    (r : Bytes × Grammar a) : Prop :=
  ∃ k q l, addresses.lookup r.1 = some k ∧ t.declarations[k]? = some (.bound q) ∧
    (Store.ofRules table.rules).naming.link r.2 = .ok l ∧ (table.untying ways addresses).Unfolds t q l

/-- All that is declared is bound. -/
structure Ready (table : RuleTable a) (ways : Bytes → Tying) (addresses : List (Bytes × Nat)) (t : Store a) : Prop
    extends table.Names ways addresses t where
  bound {r : Bytes × Grammar a} (h : r ∈ table.rules) (hway : ways r.1 = .declared) : table.Bound ways addresses t r

variable {keeps : Store a → Prop} {t t' : Store a} {r : Bytes × Grammar a}

theorem Names.grows (h : t.Grows t') (ht : table.Names ways addresses t) : table.Names ways addresses t' where
  rules hr hway := h.rules ▸ ht.rules hr hway
  names := h.names ▸ ht.names
  found hname hway := h.declarations ▸ ht.found hname hway
  apart := ht.apart

theorem Names.inv (ht : table.Names ways addresses t) (hcells : t.cells = #[]) :
    (table.untying ways addresses).Inv (table.Names ways addresses) t := ⟨ht, by simp [hcells]⟩

theorem Bound.grows (h : t.Grows t') (ht : table.Bound ways addresses t r) : table.Bound ways addresses t' r := by
  obtain ⟨k, q, l, hk, hq, hl, hunfolds⟩ := ht
  exact ⟨k, q, l, hk, h.declarations ▸ hq, hl, hunfolds.mono h⟩

theorem Ready.grows (h : t.Grows t') (ht : table.Ready ways addresses t) : table.Ready ways addresses t' where
  toNames := ht.toNames.grows h
  bound hr hway := (ht.bound hr hway).grows h

theorem Names.setDeclaration (ht : table.Names ways addresses t) (k : Nat) (d : Declaration a) :
    table.Names ways addresses (t.setDeclaration k d) where
  rules := ht.rules
  names := ht.names
  found hname hway := by
    rw [Store.setDeclaration, Array.size_setIfInBounds]
    exact ht.found hname hway
  apart := ht.apart

/-- Another declaration is bound. -/
theorem Bound.setDeclaration (ht : table.Bound ways addresses t r) {k : Nat} (hk : addresses.lookup r.1 ≠ some k)
    (d : Declaration a) : table.Bound ways addresses (t.setDeclaration k d) r := by
  obtain ⟨k', q, l, hk', hq, hl, hunfolds⟩ := ht
  refine ⟨k', q, l, hk', ?_, hl, hunfolds.of_cells (t.cells_setDeclaration k d)⟩
  have hne : k ≠ k' := fun h => hk (h ▸ hk')
  rw [Store.setDeclaration, Array.getElem?_setIfInBounds_ne hne]
  exact hq

theorem bound_setDeclaration {k : Nat} {q l : Grammar a} (hk : addresses.lookup r.1 = some k)
    (hsize : k < t.declarations.size) (hl : (Store.ofRules table.rules).naming.link r.2 = .ok l)
    (hq : (table.untying ways addresses).Unfolds t q l) :
    table.Bound ways addresses (t.setDeclaration k (.bound q)) r := by
  refine ⟨k, q, l, hk, ?_, hl, hq.of_cells (t.cells_setDeclaration k _)⟩
  rw [Store.setDeclaration, Array.getElem?_setIfInBounds_self_of_lt hsize]

theorem found_call (hr : r ∈ table.rules) : (Store.ofRules table.rules).found (.call r.1) =
    (Store.ofRules table.rules).naming.link r.2 := by
  have hlookup : (Store.ofRules table.rules).rules.lookup r.1 = some r.2 := lookup_eq_of_mem table.nodup hr
  simp only [Store.found, Store.resolve, hlookup]
  rfl

section

variable (hnames : ∀ t, keeps t → table.Names ways addresses t) (hgrows : ∀ t t', t.Grows t' → keeps t → keeps t')
include hnames hgrows

/-- What is tied is built to what corresponds to the references that it was made of. -/
theorem sound : (table.untying ways addresses).Sound keeps where
  grows := hgrows _ _
  aside := fun _ => False.elim
  stands := by
    rintro d u ⟨name, hr, rfl⟩
    exact ⟨trivial, found_call hr⟩
  source := by
    rintro d u h t
    have hstable : (table.untying ways addresses).Stable keeps := ⟨hgrows _ _, fun _ => False.elim⟩
    cases h with
    | @reference name h =>
      obtain ⟨r, hr, rfl⟩ := List.mem_map.1 h
      cases hway : ways r.1 with
      | onFirstUse =>
        refine .getStore fun t' ht => ?_
        have hlookup := (hnames _ ht.inv.keeps).rules hr (hway ▸ by decide)
        simp only [Store.resolve, hlookup]
        exact hstable.allocate (describes_tie (table.closed r hr))
          (fun hc hk hu => .stands hc hk hu ⟨_, hr, rfl⟩) none t'
      | onEveryUse => exact .built (.deferred (.given (.call h hway)))
      | declared =>
        refine .getStore fun t' ht => ?_
        obtain ⟨k, hk, -⟩ := (hnames _ ht.inv.keeps).found h hway
        simp only [Store.resolve, (hnames _ ht.inv.keeps).names, hk]
        exact .built (.deferred (.given (.declared h hway hk)))

end

theorem sound_names : (table.untying ways addresses).Sound (table.Names ways addresses) :=
  sound (fun _ => id) fun _ _ => Names.grows

theorem sound_ready : (table.untying ways addresses).Sound (table.Ready ways addresses) :=
  sound (fun _ => Ready.toNames) fun _ _ => Ready.grows

/-- A reference finds the rule of the table. -/
theorem finds {d u : Grammar a} (h : table.Ties ways addresses true d u) (t : Store a) :
    (table.untying ways addresses).FindAlike (table.Ready ways addresses) t d u := by
  cases h with
  | @call name h hway =>
    obtain ⟨r, hr, rfl⟩ := List.mem_map.1 h
    refine ⟨trivial, trivial, Unfolding.Builds.finds (.getStore fun t' ht => ?_)⟩
    have hlookup := ht.inv.keeps.rules hr (hway ▸ by decide)
    simp only [Store.resolve, hlookup, untying, found_call hr]
    exact sound_ready.build (describes_tie (table.closed r hr)) t'
  | @declared name k h hway hk =>
    obtain ⟨r, hr, rfl⟩ := List.mem_map.1 h
    refine ⟨trivial, trivial, Unfolding.Builds.finds (.getStore fun t' ht => ?_)⟩
    obtain ⟨k', q, l, hk', hq, hl, hunfolds⟩ := ht.inv.keeps.bound hr hway
    obtain rfl := Option.some.inj (hk.symm.trans hk')
    simp only [hq, untying, found_call hr, hl]
    exact .built hunfolds

theorem faithful : (table.untying ways addresses).Faithful (table.Ready ways addresses) := ⟨sound_ready, finds⟩

/-! ## Sessions of tied rules -/

/-- Some names are declared, each for an address of its own. -/
structure Addressed (rules : List (Bytes × Grammar a)) (names : List Bytes) (t : Store a) : Prop where
  rules : t.rules = rules
  cells : t.cells = #[]
  found {name : Bytes} (h : name ∈ names) : ∃ k, t.names.lookup name = some k
  within {name : Bytes} {k : Nat} (h : t.names.lookup name = some k) : name ∈ names ∧ k < t.declarations.size
  apart {name name' : Bytes} {k : Nat} (h : t.names.lookup name = some k) (h' : t.names.lookup name' = some k) :
    name = name'

/-- A name that was not declared gets an address that no other has. -/
theorem Addressed.declare {rules : List (Bytes × Grammar a)} {names : List Bytes} (ht : Addressed rules names t)
    {name : Bytes} (h : name ∉ names) : Addressed rules (names ++ [name]) (t.declare name) := by
  have hnone : t.names.lookup name = none := by
    by_contra hsome
    obtain ⟨k, hk⟩ := Option.ne_none_iff_exists'.1 hsome
    exact h (ht.within hk).1
  have lookup_eq := Store.lookup_declare hnone
  have hsize : (t.declare name).declarations.size = t.declarations.size + 1 := by
    rw [Store.declare_of_lookup_eq_none hnone, Array.size_push]
  refine ⟨?_, ?_, fun {name'} h' => ?_, fun {name' k} hk => ?_, fun {name' name'' k} h' h'' => ?_⟩
  · rw [Store.declare_of_lookup_eq_none hnone, ← ht.rules]
  · rw [Store.declare_of_lookup_eq_none hnone, ← ht.cells]
  · rw [lookup_eq]
    split
    · exact ⟨_, rfl⟩
    · next hne => exact ht.found ((List.mem_append.1 h').resolve_right fun h => hne (List.mem_singleton.1 h))
  · rw [lookup_eq] at hk
    rw [hsize]
    split at hk
    · next heq => exact ⟨by simp [heq], Option.some.inj hk ▸ Nat.lt_succ_self _⟩
    · exact ⟨List.mem_append_left _ (ht.within hk).1, Nat.lt_succ_of_lt (ht.within hk).2⟩
  · have old {name : Bytes} (h : t.names.lookup name = some k) : t.declarations.size ≠ k :=
      (ht.within h).2.ne'
    rw [lookup_eq] at h' h''
    split at h' <;> split at h''
    · next heq heq' => rw [heq, heq']
    · exact absurd (Option.some.inj h') (old h'')
    · exact absurd (Option.some.inj h'') (old h')
    · exact ht.apart h' h''

/-- Declarations of several names. -/
theorem addressed_after {names : List Bytes} (hnd : names.Nodup) (rules : List (Bytes × Grammar a)) (level : Level) :
    Addressed rules names (Session.after (names.map .declare) (Session.initial rules level)).store := by
  induction names using List.reverseRecOn with
  | nil => exact ⟨rfl, rfl, nofun, nofun, nofun⟩
  | append_singleton names name ih =>
    obtain ⟨hnd, -, hname⟩ := List.nodup_append.1 hnd
    rw [List.map_append, Session.after_append]
    exact (ih hnd).declare fun h => hname name h name (List.mem_singleton_self name) rfl

/-- What a rule is linked to in the table. -/
theorem exists_link_eq (hr : r ∈ table.rules) : ∃ l, (Store.ofRules table.rules).naming.link r.2 = .ok l := by
  have hnames : table.Names (fun _ => .onEveryUse) [] (Store.ofRules table.rules) :=
    ⟨fun hr _ => by rw [tie_onEveryUse (table.closed _ hr)]; exact lookup_eq_of_mem table.nodup hr, rfl, nofun, nofun⟩
  have hdescribes : (table.untying (fun _ => .onEveryUse) []).Describes (r.2.tie fun _ => .onEveryUse) r.2 :=
    describes_tie (table.closed r hr)
  rw [tie_onEveryUse (table.closed r hr)] at hdescribes
  obtain ⟨ended, last, hrun, -, hended⟩ := sound_names.build hdescribes _ (Session.initial table.rules .off)
    ⟨.refl _, hnames.inv rfl⟩
  obtain ⟨q, hq⟩ := table.builds r hr
  rw [Run.outcome, hrun] at hq
  cases hq
  generalize hl : (table.untying (fun _ => .onEveryUse) []).names.naming.link r.2 = e at hended
  cases hended with
  | ok h => exact ⟨_, hl⟩

/-- A declaration is bound to what is built of a rule. Others stay bound. -/
theorem inv_become {env : Env (Store a)}
    (hinv : (table.untying ways addresses).Inv (table.Names ways addresses) env.store)
    (hr : r ∈ table.rules) (hway : ways r.1 = .declared) :
    let t := ((Session.become r.1 (r.2.tie ways)).execute env).2.store
    (table.untying ways addresses).Inv (table.Names ways addresses) t ∧ table.Bound ways addresses t r ∧
      ∀ r' ∈ table.rules, table.Bound ways addresses env.store r' → table.Bound ways addresses t r' := by
  intro t
  obtain ⟨l, hl⟩ := exists_link_eq hr
  obtain ⟨k, hk, hsize⟩ := hinv.keeps.found (mem_names hr) hway
  obtain ⟨ended, last, hrun, hlater, hended⟩ :=
    sound_names.build (describes_tie (table.closed r hr)) env.store env ⟨.refl _, hinv⟩
  rw [show (table.untying ways addresses).names.naming.link r.2 = .ok l from hl] at hended
  cases hended with
  | @ok q _ hq =>
    have hnames := hlater.inv.keeps
    have ht : t = last.store.setDeclaration k (.bound q) := by
      simp only [t, Session.become, Run.execute_bind, hrun, Run.execute_getStore, Run.execute_ofExcept, Store.resolve,
        hnames.names, hk, Run.execute_modifyStore]
    have hself := bound_setDeclaration hk (hlater.grows.declarations ▸ hsize) hl hq
    have hinv' := hlater.inv.of_cells (last.store.cells_setDeclaration k (.bound q)) (hnames.setDeclaration k _)
    rw [ht]
    refine ⟨hinv', hself, fun r' hr' hbound => ?_⟩
    by_cases hsame : r'.1 = r.1
    · exact eq_of_fst hr' hr hsame ▸ hself
    · exact (hbound.grows hlater.grows).setDeclaration (fun hk' => hsame (hnames.apart hk' hk)) _

/-- Names that are declared, before any declaration is bound. -/
theorem names_of_addressed (ht : Addressed (table.undeclared ways) ((table.declared ways).map Prod.fst) t) :
    table.Names ways t.names t where
  rules hr hway := by rw [ht.rules, lookup_undeclared hr hway]
  names := rfl
  found {name} hname hway := by
    obtain ⟨r, hr, rfl⟩ := List.mem_map.1 hname
    obtain ⟨k, hk⟩ := ht.found (List.mem_map_of_mem (mem_declared.2 ⟨hr, hway⟩))
    exact ⟨k, hk, (ht.within hk).2⟩
  apart := ht.apart

/-- Declarations are bound one after the other. -/
theorem inv_becomes {env : Env (Store a)}
    (hinv : (table.untying ways addresses).Inv (table.Names ways addresses) env.store)
    {rules : List (Bytes × Grammar a)} (hrules : ∀ r ∈ rules, r ∈ table.declared ways) :
    let t := (Session.after (rules.map fun r => .become r.1 (r.2.tie ways)) env).store
    (table.untying ways addresses).Inv (table.Names ways addresses) t ∧
      ∀ r ∈ rules, table.Bound ways addresses t r := by
  induction rules using List.reverseRecOn with
  | nil => exact ⟨hinv, nofun⟩
  | append_singleton rules r ih =>
    have hdeclared (r') (hr' : r' ∈ rules ++ [r]) := mem_declared.1 (hrules r' hr')
    obtain ⟨hr, hway⟩ := hdeclared r (by simp)
    obtain ⟨hinv, hbound⟩ := ih fun r' hr' => hrules r' (List.mem_append_left _ hr')
    obtain ⟨hinv', hself, hothers⟩ := inv_become hinv hr hway
    rw [List.map_append, Session.after_append]
    refine ⟨hinv', fun r' hr' => ?_⟩
    rcases List.mem_append.1 hr' with hr' | hr'
    · exact hothers r' (hdeclared r' (List.mem_append_left _ hr')).1 (hbound r' hr')
    · exact List.mem_singleton.1 hr' ▸ hself

/-- In a session that starts, all that is declared is bound. -/
theorem ready_start (table : RuleTable a) (ways : Bytes → Tying) (level : Level) :
    ∃ addresses, (table.untying ways addresses).Inv (table.Ready ways addresses) (table.start ways level).store := by
  have ht : Addressed (table.undeclared ways) ((table.declared ways).map Prod.fst) _ :=
    addressed_after nodup_declared (table.undeclared ways) level
  obtain ⟨hinv, hbound⟩ := inv_becomes ((names_of_addressed ht).inv ht.cells) fun _ => id
  rw [List.map_map] at hinv hbound
  rw [start, Session.after_append]
  exact ⟨_, ⟨hinv.keeps, fun hr hway => hbound _ (mem_declared.2 ⟨hr, hway⟩)⟩, hinv.cells⟩

/-- Invocations keep that all is bound. -/
theorem ready_after {env : Env (Store a)}
    (hinv : (table.untying ways addresses).Inv (table.Ready ways addresses) env.store)
    {steps : List (Session.Step a)} (hsteps : ∀ step ∈ steps, table.Invokes ways step) :
    (table.untying ways addresses).Inv (table.Ready ways addresses) (Session.after steps env).store := by
  let I (env : Env (Store a)) := (table.untying ways addresses).Inv (table.Ready ways addresses) env.store
  refine Session.after_induction (I := I) hinv fun step hstep env hinv => ?_
  obtain ⟨p, xs, i, hp, rfl⟩ := hsteps step hstep
  rw [Session.Step.execute_run_invoke]
  exact (faithful.invoke (describes_tie hp) _ xs i env hinv).1.inv

/-- Where all is bound, an invocation ends as in the table without a session. -/
theorem outcome_eq_linkedOutcome {env : Env (Store a)}
    (hinv : (table.untying ways addresses).Inv (table.Ready ways addresses) env.store) {p : Grammar a}
    (hp : table.Closed p) (limit : Nat) (xs : List a.Carrier) (i : Nat) :
    (Session.invokeWithin limit (p.tie ways) xs i).outcome env =
      (Store.ofRules table.rules).linkedOutcome limit p xs i := by
  have hended := (faithful.invoke (describes_tie hp) limit xs i env hinv).2
  exact (hended.resolve_right fun ⟨_, hlate, _⟩ => hlate.elim).symm

end RuleTable

/-- An invocation ends in some way: parsers that are entered deeper than some limit make no difference. -/
def Session.EndsWith (p : Grammar a) (xs : List a.Carrier) (i : Nat) (env : Env (Store a))
    (o : Except Fault (Result Value)) : Prop :=
  o ≠ .error .exhausted ∧ ∃ limit, ∀ limit' ≥ limit, (invokeWithin limit' p xs i).outcome env = o

/-- All ways to tie the references of a table agree, whatever was invoked before. The same invocation has the same
outcome under both, however deep parsers may be entered; and if it ends under one, it ends so under the other. -/
theorem tyings_agree (table : RuleTable a) (ways ways' : Bytes → Tying) (level level' : Level)
    {earlier earlier' : List (Session.Step a)} (hearlier : ∀ step ∈ earlier, table.Invokes ways step)
    (hearlier' : ∀ step ∈ earlier', table.Invokes ways' step) {p : Grammar a} (hp : table.Closed p)
    (xs : List a.Carrier) (i : Nat) :
    let env := Session.after earlier (table.start ways level)
    let env' := Session.after earlier' (table.start ways' level')
    (∀ limit, (Session.invokeWithin limit (p.tie ways) xs i).outcome env =
      (Session.invokeWithin limit (p.tie ways') xs i).outcome env') ∧
    ∀ o, Session.EndsWith (p.tie ways) xs i env o ↔ Session.EndsWith (p.tie ways') xs i env' o := by
  intro env env'
  obtain ⟨addresses, hready⟩ := RuleTable.ready_start table ways level
  obtain ⟨addresses', hready'⟩ := RuleTable.ready_start table ways' level'
  have hagree (limit : Nat) : (Session.invokeWithin limit (p.tie ways) xs i).outcome env =
      (Session.invokeWithin limit (p.tie ways') xs i).outcome env' := by
    rw [RuleTable.outcome_eq_linkedOutcome (RuleTable.ready_after hready hearlier) hp,
      RuleTable.outcome_eq_linkedOutcome (RuleTable.ready_after hready' hearlier') hp]
  exact ⟨hagree, fun o => by simp only [Session.EndsWith, hagree]⟩

/-- Brackets that are built on first use, where some were built before, and brackets that are declared. -/
theorem tyings_agree_of_brackets :
    let p : Grammar .bytes := .call (ascii "round")
    let earlier : List (Session.Step .bytes) := [.invoke (.rule (ascii "square")) (ascii "[(]") 0]
    let built := Session.invokeWithin 4 (p.tie fun _ => .onFirstUse) (ascii "([])") 0
    let declared := Session.invokeWithin 4 (p.tie fun _ => .declared) (ascii "([])") 0
    brackets.Closed p ∧ (∀ step ∈ earlier, brackets.Invokes (fun _ => .onFirstUse) step) ∧
      built.outcome (Session.after earlier (brackets.start (fun _ => .onFirstUse) .trace)) =
        declared.outcome (brackets.start (fun _ => .declared) .off) ∧
      declared.outcome (brackets.start (fun _ => .declared) .off) =
        .ok (.success .unit 4 (.raised 2 ⟨[[40]], by simp⟩)) := by
  intro p earlier built declared
  have hp : brackets.Closed p := ⟨_, by decide, rfl⟩
  have hearlier : ∀ step ∈ earlier, brackets.Invokes (fun _ => .onFirstUse) step :=
    List.forall_mem_singleton.2 ⟨.call (ascii "square"), ascii "[(]", 0, ⟨_, by decide, rfl⟩, rfl⟩
  have hagree := tyings_agree brackets (fun _ => .onFirstUse) (fun _ => .declared) .trace .off hearlier
    (List.forall_mem_nil _) hp (ascii "([])") 0
  exact ⟨hp, hearlier, hagree.1 4, rfl⟩

end Furthest
