import Furthest.Proofs.BindLaws
import Furthest.Proofs.Reopening

/-!
# Parsers that can be run again

A parser that is run again from the same cursor, after other parsers were run, may find more built in the store and more
written to the log. If it ends as before all the same, whatever is combined of such parsers ends as can be told from
their outcomes alone: `Run.Gives` has that of a run, `Result.continued` is what going on from an outcome ends with, and
`Result.choose` is what an ordered choice ends with.

Main statement: `Grammar.answers`, which has that described parsers can be run again, whatever is deferred in them.
While parsers run, the store only grows by building (`Store.Grown`), and then they end as if nothing was built.
-/

namespace Furthest

variable {σ ι α β : Type} {a : Alphabet}

/-! ## Runs that end alike again and again -/

/-- In steady environments, the computation ends in one way and leaves the environment steady. -/
def Run.Gives (steady : Env σ → Prop) (x : Run σ α) (e : Except Fault α) : Prop :=
  ∀ env, steady env → x.outcome env = e ∧ steady (x.execute env).2

namespace Run.Gives

variable {steady : Env σ → Prop}

theorem ofExcept (e : Except Fault α) : (Run.ofExcept e).Gives steady e := fun _ henv => ⟨rfl, henv⟩

theorem pure (v : α) : (Pure.pure v : Run σ α).Gives steady (.ok v) := ofExcept (.ok v)

theorem bind {x : Run σ α} {e : Except Fault α} {f : α → Run σ β} {g : α → Except Fault β} (hx : x.Gives steady e)
    (hf : ∀ v, (f v).Gives steady (g v)) : (x >>= f).Gives steady (e >>= g) := fun env henv => by
  obtain ⟨hended, hafter⟩ := hx env henv
  rw [outcome] at hended
  rw [outcome, execute_bind]
  generalize x.execute env = ran at hended hafter ⊢
  obtain ⟨ended, after⟩ := ran
  obtain rfl : ended = e := hended
  cases ended with
  | error cause => exact ⟨rfl, hafter⟩
  | ok v => exact hf v after hafter

end Run.Gives

theorem Parser.answers_iff {p : Parser σ ι α} {xs : List ι} {steady : Env σ → Prop}
    {f : Nat → Except Fault (Result α)} : p.Answers xs steady f ↔ ∀ i, (p xs i).Gives steady (f i) :=
  ⟨fun h i _ henv => ⟨h.outcome henv i, h.steady_after henv i⟩,
    fun h => ⟨fun henv i => (h i _ henv).1, fun henv i => (h i _ henv).2⟩⟩

/-! ## What is combined of repeatable parsers -/

namespace Result

/-- What going on from an outcome ends with, by what it is gone on with. -/
def continued (o : Except Fault (Result α)) (next : α → Nat → Except Fault (Result β)) : Except Fault (Result β) := do
  match ← o with
  | success v m r => return (← next v m).aggregate r
  | failure _ r => ofRecord r

/-- What an ordered choice ends with at a cursor, by the outcomes of its parsers and what was seen before. -/
def choose (i : Nat) : List (Except Fault (Result α)) → Record → Except Fault (Result α)
  | [], r => if r.isEngaged then ofRecord r else .ok (.fail i ∅)
  | o :: os, r => do
    match (← o).aggregate r with
    | success v n r => return success v n r
    | failure _ r => choose i os r

/-- A choice fails with the record that it has seen, if nothing else is left to try. -/
theorem choose_nil {r : Record} {k : Nat} (hk : r.index = some k) (i : Nat) :
    (choose i [] r : Except Fault (Result α)) = .ok (.failure k r) := by
  rw [choose, if_pos (Record.isEngaged_iff.2 ⟨k, hk⟩), ofRecord_eq_ok_iff.2 ⟨k, hk, rfl⟩]

end Result

namespace Run.Gives

variable {steady : Env σ → Prop} {xs : List ι} {i : Nat}

theorem parserBind {p : Parser σ ι α} {f : α → Parser σ ι β} {o : Except Fault (Result α)}
    {next : α → Nat → Except Fault (Result β)} (hp : (p xs i).Gives steady o)
    (hf : ∀ v m, (f v xs m).Gives steady (next v m)) : (p.bind f xs i).Gives steady (Result.continued o next) :=
  hp.bind fun o => by
    cases o with
    | success v m r => exact (hf v m).bind fun o => .pure (o.aggregate r)
    | failure c r => exact .ofExcept _

theorem altFrom {ps : List (Parser σ ι α)} {os : List (Except Fault (Result α))}
    (h : List.Forall₂ (fun p o => (p xs i).Gives steady o) ps os) (r : Record) :
    (Parser.altFrom xs i ps r).Gives steady (Result.choose i os r) := by
  induction h generalizing r with
  | nil =>
    unfold Parser.altFrom Result.choose
    split
    · exact .ofExcept _
    · exact .pure _
  | cons hp _ ih =>
    refine hp.bind fun o => ?_
    cases o with
    | success v n s => exact .pure _
    | failure c s => exact ih (s.merge r)

/-- A choice between parsers ends as is chosen between their outcomes. -/
theorem alt {ps : List (Parser σ ι α)} {os : List (Except Fault (Result α))}
    (h : List.Forall₂ (fun p o => (p xs i).Gives steady o) ps os) :
    (Parser.alt ps xs i).Gives steady (Result.choose i os ∅) := altFrom h ∅

theorem orElse {p q : Parser σ ι α} {o o' : Except Fault (Result α)} (hp : (p xs i).Gives steady o)
    (hq : (q xs i).Gives steady o') : (p.orElse q xs i).Gives steady (Result.choose i [o, o'] ∅) :=
  alt (.cons hp (.cons hq .nil))

end Run.Gives

/-! ## Described parsers -/

namespace Store

variable {s : Store a}

/-- The store of the environment is one that another store has grown to by building. -/
def Grown (s : Store a) (env : Env (Store a)) : Prop := (exactly s).Later s.Grows s env.store

theorem Scoped.grown {env : Env (Store a)} (hs : env.store.Scoped) : env.store.Grown env :=
  ⟨.refl _, inv_exactly hs⟩

/-- What a description stands for in a store that stays as it is. -/
def cachelessOutcome (s : Store a) (limit : Nat) (q : Grammar a) (xs : List a.Carrier) (i : Nat) :
    Except Fault (Result Value) :=
  (s.cacheless.parserWithin limit q xs i).outcome ⟨.ofLevel .off, s⟩

/-- Without cells, nothing is changed but the log. -/
theorem gives_cacheless (s : Store a) (limit : Nat) (q : Grammar a) (xs : List a.Carrier) (i : Nat) :
    (s.cacheless.parserWithin limit q xs i).Gives (fun _ => True) (s.cachelessOutcome limit q xs i) := by
  let K := steadily fun _ : Env (Store a) => True
  have hK : K.Records := fun _ _ _ _ _ => ⟨rfl, trivial, trivial⟩
  have hcarries : K.Carries (s.cacheless.parserWithin limit q) (s.cacheless.parserWithin limit q) :=
    Interpreter.carries_parserWithin hK (Leaf.carries hK) (fun _ => K.ofExcept _) (fun _ => K.ofExcept _) limit q
  exact fun env _ => ⟨(hcarries xs i env _ trivial trivial).1, trivial⟩

end Store

namespace Grammar

variable {s : Store a} {q : Grammar a}

/-- A described parser leaves a store that has grown by building, and ends as if nothing was built. -/
theorem gives_cachelessOutcome (hs : s.Scoped) (hq : q.Within s.cells.size) (limit : Nat) (xs : List a.Carrier)
    (i : Nat) : (q.parserWithin limit xs i).Gives s.Grown (s.cachelessOutcome limit q xs i) := fun env henv => by
  obtain ⟨hlater, hended⟩ := (reopening.faithful hs fun _ => id).carries limit s (reopening.unfolds_of_within hq) xs i
    env ⟨.ofLevel .off, s⟩ henv
  exact ⟨(hended.resolve_right fun ⟨_, hc, _⟩ => hc.elim).symm, henv.grows.trans hlater.grows, hlater.inv⟩

/-- A described parser can be run again: from every cursor it ends as before, whatever was built meanwhile. -/
theorem answers {env : Env (Store a)} (hs : env.store.Scoped) (hq : q.Within env.store.cells.size) (limit : Nat)
    (xs : List a.Carrier) :
    (q.parserWithin limit).Answers xs env.store.Grown fun i => (q.parserWithin limit xs i).outcome env :=
  Parser.answers_iff.2 fun i env' henv' => by
    have hgives := q.gives_cachelessOutcome hs hq limit xs i
    rw [(hgives env hs.grown).1]
    exact hgives env' henv'

/-- Outcomes of described parsers are well formed, also in a store that stays as it is. -/
theorem wellFormed_cachelessOutcome (hs : s.Scoped) (hq : q.Within s.cells.size) {limit : Nat} {xs : List a.Carrier}
    {i : Nat} {o : Result Value} (h : s.cachelessOutcome limit q xs i = .ok o) : o.WellFormed := by
  let env : Env (Store a) := ⟨.ofLevel .off, s⟩
  have hgrown : env.store.Grown env := Store.Scoped.grown hs
  have hrun := (q.gives_cachelessOutcome hs hq limit xs i env hgrown).1
  obtain ⟨e, -, he⟩ := combined_parserWithin limit q
  rw [h, ← he] at hrun
  exact e.wellFormed hrun

end Grammar

end Furthest
