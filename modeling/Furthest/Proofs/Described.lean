import Mathlib.Tactic.Choose
import Furthest.Grammar.Meaning
import Furthest.Proofs.ClosedClass
import Furthest.Proofs.Combination

/-!
# The parsers of the library are combinations

`Parser.Combined` has that a parser is what some combination builds. Derived parsers are, if those that they are
derived from are; so are the rules of the calculator, in which nothing is deferred, and the parsers that
descriptions stand for, which enter what is deferred to some depth and find it by runs that are `Run.Silent`. What
is proved of combinations thus holds of all of these.

Main statements: `Calculator.Rule.combined` and `Grammar.combined_parserWithin`.
-/

namespace Furthest

variable {σ ι α β γ ν : Type}

/-- The computation leaves the log as it is, and reads the store alone. -/
def Run.Silent (x : Run σ α) : Prop :=
  ∀ s, ∃ ended s', ∀ log, x.execute ⟨log, s⟩ = (ended, ⟨log, s'⟩)

namespace Run.Silent

theorem ofExcept (e : Except Fault α) : (Run.ofExcept e : Run σ α).Silent := fun s => ⟨e, s, fun _ => rfl⟩

theorem pure (v : α) : (Pure.pure v : Run σ α).Silent := ofExcept (.ok v)

theorem bind {x : Run σ α} {f : α → Run σ β} (hx : x.Silent) (hf : ∀ v, (f v).Silent) :
    (x >>= f).Silent := fun s => by
  obtain ⟨_ | v, s', hx⟩ := hx s
  · exact ⟨_, s', fun log => by rw [execute_bind, hx]⟩
  · obtain ⟨ended, s'', hf⟩ := hf v s'
    exact ⟨ended, s'', fun log => by rw [execute_bind, hx]; exact hf log⟩

theorem getStore : (Run.getStore : Run σ σ).Silent := fun s => ⟨.ok s, s, fun _ => rfl⟩

theorem modifyStore (f : σ → σ) : (Run.modifyStore f).Silent := fun s => ⟨.ok (), f s, fun _ => rfl⟩

end Run.Silent

/-- A combination builds the parser, and what is deferred in it is found by runs of a class. -/
def Parser.Combined (F : {γ : Type} → Run σ γ → Prop) (p : Parser σ ι α) : Prop :=
  ∃ e : Combination σ ι α, e.Finds F ∧ e.parser = p

namespace Parser.Combined

variable {F : {γ : Type} → Run σ γ → Prop} {p : Parser σ ι α} {q : Parser σ ι β}

theorem primitive (l : Primitive ι α) : Combined F l.parser := ⟨.primitive l, trivial, rfl⟩

theorem giveUp (cause : Fault) : (Parser.giveUp cause : Parser σ ι α).Combined F := ⟨.giveUp cause, trivial, rfl⟩

theorem andThen : p.Combined F → q.Combined F → (p.andThen q).Combined F := by
  rintro ⟨e, he, rfl⟩ ⟨f, hf, rfl⟩
  exact ⟨.andThen e f, ⟨he, hf⟩, rfl⟩

theorem skip : p.Combined F → q.Combined F → (p.skip q).Combined F := by
  rintro ⟨e, he, rfl⟩ ⟨f, hf, rfl⟩
  exact ⟨.skip e f, ⟨he, hf⟩, rfl⟩

theorem pair : p.Combined F → q.Combined F → (p.pair q).Combined F := by
  rintro ⟨e, he, rfl⟩ ⟨f, hf, rfl⟩
  exact ⟨.pair e f, ⟨he, hf⟩, rfl⟩

theorem times (b : Bounds) : p.Combined F → (p.times b).Combined F := by
  rintro ⟨e, he, rfl⟩
  exact ⟨.times e b, he, rfl⟩

theorem sepBy (b : Bounds) : p.Combined F → q.Combined F → (p.sepBy q b).Combined F := by
  rintro ⟨e, he, rfl⟩ ⟨f, hf, rfl⟩
  exact ⟨.sepBy e f b, ⟨he, hf⟩, rfl⟩

theorem manyUntil (b : Bounds) : p.Combined F → q.Combined F → (p.manyUntil q b).Combined F := by
  rintro ⟨e, he, rfl⟩ ⟨f, hf, rfl⟩
  exact ⟨.manyUntil e f b, ⟨he, hf⟩, rfl⟩

theorem tryMap (f : α → Except Fault β) : p.Combined F → (p.tryMap f).Combined F := by
  rintro ⟨e, he, rfl⟩
  exact ⟨.tryMap e f, he, rfl⟩

theorem map (f : α → β) (hp : p.Combined F) : (p.map f).Combined F := hp.tryMap _

theorem mark : p.Combined F → p.mark.Combined F := by
  rintro ⟨e, he, rfl⟩
  exact ⟨.mark e, he, rfl⟩

theorem desc (label : Bytes) : p.Combined F → (p.desc label).Combined F := by
  rintro ⟨e, he, rfl⟩
  exact ⟨.desc e label, he, rfl⟩

theorem shouldFail (label : Bytes) : p.Combined F → (p.shouldFail label).Combined F := by
  rintro ⟨e, he, rfl⟩
  exact ⟨.shouldFail e label, he, rfl⟩

theorem peek : p.Combined F → p.peek.Combined F := by
  rintro ⟨e, he, rfl⟩
  exact ⟨.peek e, he, rfl⟩

theorem traced (name : Bytes) : p.Combined F → (p.traced name).Combined F := by
  rintro ⟨e, he, rfl⟩
  exact ⟨.traced e name, he, rfl⟩

theorem bind {f : α → Parser σ ι β} (hp : p.Combined F) (hf : ∀ v, (f v).Combined F) : (p.bind f).Combined F := by
  obtain ⟨e, he, rfl⟩ := hp
  choose g hg hf using hf
  obtain rfl := funext hf
  exact ⟨.bind e g, ⟨he, hg⟩, rfl⟩

/-- What is entered is found when the parser is invoked. -/
theorem deferred {found : Run σ γ} (hfound : F found) {f : γ → Parser σ ι α} (hf : ∀ v, (f v).Combined F) :
    Combined F (fun xs i => do f (← found) xs i) := by
  choose g hg hf using hf
  obtain rfl := funext hf
  exact ⟨.deferred found g, ⟨hfound, hg⟩, rfl⟩

/-- What is entered depends on the input and the cursor. -/
theorem rule {f : List ι → Nat → Parser σ ι α} (hf : ∀ xs i, (f xs i).Combined F) :
    Combined F (fun xs i => f xs i xs i) := by
  choose g hg hf using hf
  obtain rfl := funext₂ hf
  exact ⟨.rule g, hg, rfl⟩

/-- The members of a list are what some combinations build. -/
theorem exists_map_eq {ps : List (Parser σ ι α)} (h : ∀ p ∈ ps, p.Combined F) :
    ∃ n, ∃ e : Fin n → Combination σ ι α, (∀ k, (e k).Finds F) ∧
      (List.finRange n).map (fun k => (e k).parser) = ps := by
  choose e he hp using fun k : Fin ps.length => h (ps.get k) (List.get_mem ps k)
  exact ⟨ps.length, e, he, by simp only [hp]; exact List.map_get_finRange ps⟩

theorem alt {ps : List (Parser σ ι α)} (h : ∀ p ∈ ps, p.Combined F) : (Parser.alt ps).Combined F := by
  obtain ⟨n, e, he, rfl⟩ := exists_map_eq h
  exact ⟨.alt e, he, rfl⟩

theorem sequence {ps : List (Parser σ ι α)} (h : ∀ p ∈ ps, p.Combined F) : (Parser.sequence ps).Combined F := by
  obtain ⟨n, e, he, rfl⟩ := exists_map_eq h
  exact ⟨.sequence e, he, rfl⟩

theorem tuple {ps : List (Parser σ ι α)} (h : ∀ p ∈ ps, p.Combined F) : (Parser.tuple ps).Combined F := by
  induction ps with
  | nil => exact primitive (.succeed [])
  | cons p ps ih =>
    obtain ⟨hp, hps⟩ := List.forall_mem_cons.1 h
    exact (hp.pair (ih hps)).map _

theorem satisfy (c : ItemClass ι) : (Parser.satisfy c : Parser σ ι ι).Combined F := primitive (.satisfy c)

/-- Combinations of parsers of bytes are a closed class. -/
theorem closed : Parser.Closed (σ := σ) fun p => p.Combined F where
  giveUp := giveUp
  satisfy := satisfy
  str literal := primitive (.str literal)
  andThen := andThen
  skip := skip
  pair := pair
  alt := alt
  times b := times b
  tryMap f := tryMap f
  desc label := desc label
  traced name := traced name
  remaining {_ p} h := rule (f := fun xs i => p (xs.length - i)) fun xs i => h (xs.length - i)

end Parser.Combined

/-- The rules of the calculator are combinations. -/
theorem Calculator.Rule.combined (A : Arithmetic ν) (r : Rule) : (r.parser A : Parser σ UInt8 ν).Combined F :=
  Parser.Combined.closed.rule A r

/-! ## Descriptions -/

theorem Leaf.combined {a : Alphabet} (l : Leaf a) : (l.parser : Parser σ a.Carrier Value).Combined F := by
  cases l with
  | succeed v => exact .primitive (.succeed v)
  | fail label => exact .primitive (.fail label)
  | position => exact (Parser.Combined.primitive .position).map _
  | eof => exact (Parser.Combined.primitive .eof).map _
  | satisfy c => cases a <;> exact (Parser.Combined.satisfy c).map _
  | str literal => exact (Parser.Combined.primitive (.str literal)).map _
  | strFrom literals => exact (Parser.Combined.closed.strFrom literals).map _
  | letter => exact Parser.Combined.closed.letter.map _
  | whitespace => exact Parser.Combined.closed.whitespace.map _
  | lineColumn => exact (Parser.Combined.primitive .lineColumn).map _
  | calculator rule => exact (rule.combined .binary).map _
  | opPair operators rule => exact (Parser.Combined.closed.opPair operators (rule.combined .binary)).map _

namespace Grammar

variable {a : Alphabet}

theorem combined_bounded (bounds : Except Fault Bounds)
    {repeating : Bounds → Parser (Store a) a.Carrier (List Value)} (h : ∀ b, (repeating b).Combined F) :
    (bounded bounds repeating).Combined F := by
  cases bounds with
  | ok b => exact (h b).map _
  | error cause => exact .giveUp cause

theorem combined_entering {enter : Grammar a → Meaning a} (h : ∀ p, (enter p).Combined Run.Silent)
    {found : Run (Store a) (Grammar a)} (hfound : found.Silent) : (entering enter found).Combined Run.Silent :=
  .deferred hfound h

/-- A class of runs that building is made of: those that change nothing, those that look at the store, those that
add a cell, and one after the other. -/
structure Building (F : {α : Type} → Run (Store a) α → Prop) : Prop where
  ofExcept {α : Type} (e : Except Fault α) : F (Run.ofExcept e)
  bind {α β : Type} {x : Run (Store a) α} {f : α → Run (Store a) β} : F x → (∀ v, F (f v)) → F (x >>= f)
  getStore : F Run.getStore
  allocate (id : Option Bytes) (p : Grammar a) : F (allocate id p)

namespace Building

variable {F : {α : Type} → Run (Store a) α → Prop}

theorem pure (hF : Building F) (v : α) : F (Pure.pure v : Run (Store a) α) := hF.ofExcept (.ok v)

mutual

/-- Building a description is of the class. -/
theorem build (hF : Building F) : (p : Grammar a) → F p.build
  | .leaf _ => hF.pure _
  | .andThen p q | .skip p q => hF.bind (hF.build p) fun _ => hF.bind (hF.build q) fun _ => hF.pure _
  | .tuple ps | .sequence ps | .alt ps => hF.bind (hF.buildAll ps) fun _ => hF.pure _
  | .times p _ => hF.bind (hF.build p) fun _ => hF.bind (hF.ofExcept _) fun _ => hF.pure _
  | .sepBy p q _ | .manyUntil p q _ =>
    hF.bind (hF.build p) fun _ => hF.bind (hF.build q) fun _ => hF.bind (hF.ofExcept _) fun _ => hF.pure _
  | .map p _ | .bind p _ | .mark p | .desc p _ | .shouldFail p _ | .peek p | .traced p _ =>
    hF.bind (hF.build p) fun _ => hF.pure _
  | .lazy id p => hF.allocate id p
  | .rule _ => hF.bind hF.getStore fun _ => hF.bind (hF.ofExcept _) (hF.allocate none)
  | .ref _ => hF.bind hF.getStore fun _ => hF.ofExcept _
  | .forward _ => hF.bind hF.getStore fun _ => hF.bind (hF.ofExcept _) fun _ => hF.pure _
  | .call _ | .cell _ | .declared _ => hF.pure _
  | .raise _ => hF.ofExcept _

theorem buildAll (hF : Building F) : (ps : List (Grammar a)) → F (Grammar.buildAll ps)
  | [] => hF.pure _
  | p :: ps => hF.bind (hF.build p) fun _ => hF.bind (hF.buildAll ps) fun _ => hF.pure _

end

end Building

/-- Building a description is silent. -/
theorem silent_build (p : Grammar a) : (build p).Silent :=
  Building.build (F := Run.Silent)
    ⟨.ofExcept, .bind, .getStore, fun _ _ => .bind .getStore fun _ => .bind (.modifyStore _) fun _ => .pure _⟩ p

theorem silent_force (address : Nat) : (force address : Run (Store a) (Grammar a)).Silent := by
  refine .bind .getStore fun s => ?_
  split
  · exact .ofExcept _
  · split
    · exact .pure _
    · exact .bind (.modifyStore _) fun _ => .bind (silent_build _) fun _ => .bind (.modifyStore _) fun _ => .pure _

theorem silent_definition (address : Nat) : (definition address : Run (Store a) (Grammar a)).Silent := by
  refine .bind .getStore fun s => ?_
  split
  · exact .ofExcept _
  · exact .ofExcept _
  · exact .ofExcept _
  · exact .pure _

mutual

/-- A description stands for a combination, if all that it enters does. -/
theorem combined_parserBy {enter : Grammar a → Meaning a} (h : ∀ p, (enter p).Combined Run.Silent) :
    (p : Grammar a) → (parserBy enter p).Combined Run.Silent
  | leaf l => l.combined
  | andThen p q => (combined_parserBy h p).andThen (combined_parserBy h q)
  | skip p q => (combined_parserBy h p).skip (combined_parserBy h q)
  | tuple ps => (Parser.Combined.tuple (combined_parsersBy h ps)).map _
  | sequence ps => (Parser.Combined.sequence (combined_parsersBy h ps)).map _
  | alt ps => .alt (combined_parsersBy h ps)
  | times p bounds => combined_bounded bounds fun b => (combined_parserBy h p).times b
  | sepBy p sep bounds =>
    combined_bounded bounds fun b => (combined_parserBy h p).sepBy b (combined_parserBy h sep)
  | manyUntil p stop bounds =>
    combined_bounded bounds fun b => (combined_parserBy h p).manyUntil b (combined_parserBy h stop)
  | map p f => (combined_parserBy h p).tryMap f
  | bind p f => (combined_parserBy h p).bind fun v => combined_entering h (silent_build (f v))
  | mark p => (combined_parserBy h p).mark.map _
  | desc p label => (combined_parserBy h p).desc label
  | shouldFail p label => ((combined_parserBy h p).shouldFail label).map _
  | peek p => (combined_parserBy h p).peek
  | traced p name => (combined_parserBy h p).traced name
  | lazy id p => combined_entering h (silent_build (lazy id p))
  | rule name => combined_entering h (silent_build (rule name))
  | call _ => combined_entering h (.bind .getStore fun _ => .bind (.ofExcept _) silent_build)
  | ref name => combined_entering h (silent_build (ref name))
  | forward name => combined_entering h (silent_build (forward name))
  | cell address => combined_entering h (silent_force address)
  | declared address => combined_entering h (silent_definition address)
  | raise cause => .giveUp cause

theorem combined_parsersBy {enter : Grammar a → Meaning a} (h : ∀ p, (enter p).Combined Run.Silent) :
    (ps : List (Grammar a)) → ∀ p ∈ parsersBy enter ps, p.Combined Run.Silent
  | [] => nofun
  | p :: ps => fun _ hq =>
    (List.mem_cons.1 hq).elim (fun hq => hq ▸ combined_parserBy h p) (combined_parsersBy h ps _)

end

/-- A description stands for a combination, which enters what is deferred up to the limit of nesting. -/
theorem combined_parserWithin (limit : Nat) (p : Grammar a) : (p.parserWithin limit).Combined Run.Silent := by
  induction limit generalizing p with
  | zero => exact .giveUp .exhausted
  | succ limit ih => exact combined_parserBy ih p

end Grammar

end Furthest
