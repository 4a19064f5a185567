import Furthest.Grammar.Meaning
import Furthest.Proofs.Congruence
import Furthest.Proofs.Described

/-!
# Interpretations of descriptions

An `Interpreter` has the parsers of leaves, what a description builds that is computed while a parser runs, and what
a deferred part stands for. `Interpreter.parserWithin` is the parser of a description for that choice, over any kind
of store; `Interpreter.parserWithin_plain` has that `Grammar.parserWithin` is the one that builds in the store and
finds what is there. Other interpreters note what is built, or find the same without a store.

`Grammar.Alike` has that two descriptions are the same but for what is deferred in them, such as a description and
another in which something else stands in place of what it mentions (`Grammar.substitute`).

Main statement: `Interpreter.carries_parserBy`, by which such descriptions stand for parsers that do the same, if what
is deferred in them does. So does one description for two interpreters (`Interpreter.carries_parserWithin`).
-/

namespace Furthest

variable {σ σ' : Type} {a : Alphabet}

/-- How the parts of a description that are not combined of others are interpreted. -/
structure Interpreter (σ : Type) (a : Alphabet) where
  leaf : Leaf a → Parser σ a.Carrier Value
  /-- What a description builds that is computed while a parser runs. -/
  make : Grammar a → Run σ (Grammar a)
  /-- What a deferred part stands for. -/
  find : Grammar a → Run σ (Grammar a)

namespace Interpreter

/-- The parser that a run finds or builds. -/
def entering (enter : Grammar a → Parser σ a.Carrier Value) (found : Run σ (Grammar a)) :
    Parser σ a.Carrier Value := fun xs i => do enter (← found) xs i

/-- The repetition of checked bounds. Bounds that fail the check give up. -/
def bounded (bounds : Except Fault Bounds) (repeating : Bounds → Parser σ a.Carrier (List Value)) :
    Parser σ a.Carrier Value :=
  match bounds with
  | .ok b => (repeating b).map .list
  | .error cause => Parser.giveUp cause

mutual

/-- The parser of a description. -/
def parserBy (I : Interpreter σ a) (enter : Grammar a → Parser σ a.Carrier Value) :
    Grammar a → Parser σ a.Carrier Value
  | .leaf l => I.leaf l
  | .andThen p q => (I.parserBy enter p).andThen (I.parserBy enter q)
  | .skip p q => (I.parserBy enter p).skip (I.parserBy enter q)
  | .tuple ps => (Parser.tuple (I.parsersBy enter ps)).map .tuple
  | .sequence ps => (Parser.sequence (I.parsersBy enter ps)).map .list
  | .alt ps => Parser.alt (I.parsersBy enter ps)
  | .times p bounds => bounded bounds (I.parserBy enter p).times
  | .sepBy p sep bounds => bounded bounds ((I.parserBy enter p).sepBy (I.parserBy enter sep))
  | .manyUntil p stop bounds => bounded bounds ((I.parserBy enter p).manyUntil (I.parserBy enter stop))
  | .map p f => (I.parserBy enter p).tryMap f
  | .bind p f => (I.parserBy enter p).bind fun v => entering enter (I.make (f v))
  | .mark p => (I.parserBy enter p).mark.map .ofMarked
  | .desc p label => (I.parserBy enter p).desc label
  | .shouldFail p label => ((I.parserBy enter p).shouldFail label).map fun _ => .unit
  | .peek p => (I.parserBy enter p).peek
  | .traced p name => (I.parserBy enter p).traced name
  | .raise cause => Parser.giveUp cause
  | d => entering enter (I.find d)

/-- The parsers of a list of descriptions. -/
def parsersBy (I : Interpreter σ a) (enter : Grammar a → Parser σ a.Carrier Value) :
    List (Grammar a) → List (Parser σ a.Carrier Value)
  | [] => []
  | p :: ps => I.parserBy enter p :: I.parsersBy enter ps

end

/-- The parser of a description in which parsers are entered at most `limit` deep. -/
def parserWithin (I : Interpreter σ a) : (limit : Nat) → Grammar a → Parser σ a.Carrier Value
  | 0, _ => Parser.giveUp .exhausted
  | limit + 1, p => I.parserBy (I.parserWithin limit) p

theorem parsersBy_eq_map (I : Interpreter σ a) (enter : Grammar a → Parser σ a.Carrier Value)
    (ps : List (Grammar a)) : I.parsersBy enter ps = ps.map (I.parserBy enter) := by
  induction ps with
  | nil => rfl
  | cons p ps ih => rw [parsersBy, ih, List.map_cons]

end Interpreter

/-- What a deferred part stands for in the store. -/
def Grammar.found : Grammar a → Run (Store a) (Grammar a)
  | .call name => do build (← Run.ofExcept (Store.resolve (← Run.getStore).rules name))
  | .cell address => force address
  | .declared address => definition address
  | p => p.build

namespace Interpreter

/-- Builds in the store, and finds what is there. -/
def plain : Interpreter (Store a) a := ⟨Leaf.parser, Grammar.build, Grammar.found⟩

mutual

theorem parserBy_plain (enter : Grammar a → Grammar.Meaning a) :
    (p : Grammar a) → plain.parserBy enter p = Grammar.parserBy enter p
  | .leaf _ => rfl
  | .andThen p q => by rw [parserBy, Grammar.parserBy, parserBy_plain enter p, parserBy_plain enter q]
  | .skip p q => by rw [parserBy, Grammar.parserBy, parserBy_plain enter p, parserBy_plain enter q]
  | .tuple ps => by rw [parserBy, Grammar.parserBy, parsersBy_plain enter ps]
  | .sequence ps => by rw [parserBy, Grammar.parserBy, parsersBy_plain enter ps]
  | .alt ps => by rw [parserBy, Grammar.parserBy, parsersBy_plain enter ps]
  | .times p _ => by rw [parserBy, Grammar.parserBy, parserBy_plain enter p]; rfl
  | .sepBy p q _ => by rw [parserBy, Grammar.parserBy, parserBy_plain enter p, parserBy_plain enter q]; rfl
  | .manyUntil p q _ => by rw [parserBy, Grammar.parserBy, parserBy_plain enter p, parserBy_plain enter q]; rfl
  | .map p _ => by rw [parserBy, Grammar.parserBy, parserBy_plain enter p]
  | .bind p _ => by rw [parserBy, Grammar.parserBy, parserBy_plain enter p]; rfl
  | .mark p => by rw [parserBy, Grammar.parserBy, parserBy_plain enter p]
  | .desc p _ => by rw [parserBy, Grammar.parserBy, parserBy_plain enter p]
  | .shouldFail p _ => by rw [parserBy, Grammar.parserBy, parserBy_plain enter p]
  | .peek p => by rw [parserBy, Grammar.parserBy, parserBy_plain enter p]
  | .traced p _ => by rw [parserBy, Grammar.parserBy, parserBy_plain enter p]
  | .lazy .. | .rule _ | .call _ | .ref _ | .forward _ | .cell _ | .declared _ => rfl
  | .raise _ => rfl

theorem parsersBy_plain (enter : Grammar a → Grammar.Meaning a) :
    (ps : List (Grammar a)) → plain.parsersBy enter ps = Grammar.parsersBy enter ps
  | [] => rfl
  | p :: ps => by rw [parsersBy, Grammar.parsersBy, parserBy_plain enter p, parsersBy_plain enter ps]

end

/-- The parser of a description is that of the interpreter that builds in the store. -/
theorem parserWithin_plain (limit : Nat) (p : Grammar a) : plain.parserWithin limit p = p.parserWithin limit := by
  induction limit generalizing p with
  | zero => rfl
  | succ limit ih =>
    rw [parserWithin, parserBy_plain, Grammar.parserWithin]
    congr 1
    exact funext ih

end Interpreter

/-! ## Descriptions that are alike -/

namespace Grammar

/-- A part that is found or built when a parser runs. -/
def Deferred : Grammar a → Prop
  | .lazy .. | .rule _ | .call _ | .ref _ | .forward _ | .cell _ | .declared _ => True
  | _ => False

/-- Two descriptions that are the same, what is deferred apart. Deferred parts of two descriptions that are built
correspond in one way, and in another way in descriptions that are to be built: what functions return, and what is
built on first use. -/
inductive Alike (node : (built : Bool) → Grammar a → Grammar a → Prop) : (built : Bool) → Grammar a → Grammar a → Prop
  | leaf {b : Bool} (l : Leaf a) : Alike node b (.leaf l) (.leaf l)
  | andThen {b : Bool} {p p' q q' : Grammar a} (hp : Alike node b p p') (hq : Alike node b q q') :
    Alike node b (.andThen p q) (.andThen p' q')
  | skip {b : Bool} {p p' q q' : Grammar a} (hp : Alike node b p p') (hq : Alike node b q q') :
    Alike node b (.skip p q) (.skip p' q')
  | tuple {b : Bool} {ps ps' : List (Grammar a)} (length : ps.length = ps'.length)
    (parts : ∀ k (h : k < ps.length) (h' : k < ps'.length), Alike node b ps[k] ps'[k]) :
    Alike node b (.tuple ps) (.tuple ps')
  | sequence {b : Bool} {ps ps' : List (Grammar a)} (length : ps.length = ps'.length)
    (parts : ∀ k (h : k < ps.length) (h' : k < ps'.length), Alike node b ps[k] ps'[k]) :
    Alike node b (.sequence ps) (.sequence ps')
  | alt {b : Bool} {ps ps' : List (Grammar a)} (length : ps.length = ps'.length)
    (parts : ∀ k (h : k < ps.length) (h' : k < ps'.length), Alike node b ps[k] ps'[k]) :
    Alike node b (.alt ps) (.alt ps')
  | times {b : Bool} {p p' : Grammar a} (hp : Alike node b p p') (bounds : Except Fault Bounds) :
    Alike node b (.times p bounds) (.times p' bounds)
  | sepBy {b : Bool} {p p' sep sep' : Grammar a} (hp : Alike node b p p') (hsep : Alike node b sep sep')
    (bounds : Except Fault Bounds) : Alike node b (.sepBy p sep bounds) (.sepBy p' sep' bounds)
  | manyUntil {b : Bool} {p p' stop stop' : Grammar a} (hp : Alike node b p p') (hstop : Alike node b stop stop')
    (bounds : Except Fault Bounds) : Alike node b (.manyUntil p stop bounds) (.manyUntil p' stop' bounds)
  | map {b : Bool} {p p' : Grammar a} (hp : Alike node b p p') (f : Value → Except Fault Value) :
    Alike node b (.map p f) (.map p' f)
  | bind {b : Bool} {p p' : Grammar a} {f f' : Value → Grammar a} (hp : Alike node b p p')
    (hf : ∀ v, Alike node false (f v) (f' v)) : Alike node b (.bind p f) (.bind p' f')
  | mark {b : Bool} {p p' : Grammar a} (hp : Alike node b p p') : Alike node b (.mark p) (.mark p')
  | desc {b : Bool} {p p' : Grammar a} (hp : Alike node b p p') (label : Bytes) :
    Alike node b (.desc p label) (.desc p' label)
  | shouldFail {b : Bool} {p p' : Grammar a} (hp : Alike node b p p') (label : Bytes) :
    Alike node b (.shouldFail p label) (.shouldFail p' label)
  | peek {b : Bool} {p p' : Grammar a} (hp : Alike node b p p') : Alike node b (.peek p) (.peek p')
  | traced {b : Bool} {p p' : Grammar a} (hp : Alike node b p p') (name : Bytes) :
    Alike node b (.traced p name) (.traced p' name)
  | raise {b : Bool} (cause : Fault) : Alike node b (.raise cause) (.raise cause)
  | lazy {p p' : Grammar a} (id : Option Bytes) (hp : Alike node false p p') :
    Alike node false (.lazy id p) (.lazy id p')
  | deferred {b : Bool} {d d' : Grammar a} (h : node b d d') : Alike node b d d'

namespace Alike

variable {node node' : (built : Bool) → Grammar a → Grammar a → Prop} {b : Bool} {p p' : Grammar a}

/-- Deferred parts may correspond in more ways. Those of built descriptions do not matter where nothing is built. -/
theorem mono (h : ∀ b' ≤ b, ∀ d d', node b' d d' → node' b' d d') (hp : Alike node b p p') : Alike node' b p p' := by
  induction hp with
  | leaf l => exact .leaf l
  | andThen _ _ hp hq => exact .andThen (hp h) (hq h)
  | skip _ _ hp hq => exact .skip (hp h) (hq h)
  | tuple length _ parts => exact .tuple length fun k hk hk' => parts k hk hk' h
  | sequence length _ parts => exact .sequence length fun k hk hk' => parts k hk hk' h
  | alt length _ parts => exact .alt length fun k hk hk' => parts k hk hk' h
  | times _ bounds hp => exact .times (hp h) bounds
  | sepBy _ _ bounds hp hsep => exact .sepBy (hp h) (hsep h) bounds
  | manyUntil _ _ bounds hp hstop => exact .manyUntil (hp h) (hstop h) bounds
  | map _ f hp => exact .map (hp h) f
  | bind _ _ hp hf => exact .bind (hp h) fun v => hf v fun b hb => h b (hb.trans (Bool.false_le _))
  | mark _ hp => exact .mark (hp h)
  | desc _ label hp => exact .desc (hp h) label
  | shouldFail _ label hp => exact .shouldFail (hp h) label
  | peek _ hp => exact .peek (hp h)
  | traced _ name hp => exact .traced (hp h) name
  | raise cause => exact .raise cause
  | lazy id _ hp => exact .lazy id (hp h)
  | deferred hd => exact .deferred (h _ le_rfl _ _ hd)

/-- A description is like itself, if its deferred parts correspond to themselves. -/
theorem left (h : ∀ b d d', node b d d' → node' b d d) (hp : Alike node b p p') : Alike node' b p p := by
  induction hp with
  | leaf l => exact .leaf l
  | andThen _ _ hp hq => exact .andThen hp hq
  | skip _ _ hp hq => exact .skip hp hq
  | tuple length _ parts => exact .tuple rfl fun k hk _ => parts k hk (length ▸ hk)
  | sequence length _ parts => exact .sequence rfl fun k hk _ => parts k hk (length ▸ hk)
  | alt length _ parts => exact .alt rfl fun k hk _ => parts k hk (length ▸ hk)
  | times _ bounds hp => exact .times hp bounds
  | sepBy _ _ bounds hp hsep => exact .sepBy hp hsep bounds
  | manyUntil _ _ bounds hp hstop => exact .manyUntil hp hstop bounds
  | map _ f hp => exact .map hp f
  | bind _ _ hp hf => exact .bind hp hf
  | mark _ hp => exact .mark hp
  | desc _ label hp => exact .desc hp label
  | shouldFail _ label hp => exact .shouldFail hp label
  | peek _ hp => exact .peek hp
  | traced _ name hp => exact .traced hp name
  | raise cause => exact .raise cause
  | lazy id _ hp => exact .lazy id hp
  | deferred hd => exact .deferred (h _ _ _ hd)

/-- Descriptions that are alike are the same, if deferred parts correspond to themselves alone. -/
theorem eq (h : ∀ b d d', node b d d' → d = d') (hp : Alike node b p p') : p = p' := by
  induction hp with
  | leaf _ | raise _ => rfl
  | andThen _ _ hp hq | skip _ _ hp hq | sepBy _ _ _ hp hq | manyUntil _ _ _ hp hq => rw [hp, hq]
  | tuple length _ parts | sequence length _ parts | alt length _ parts => rw [List.ext_getElem length parts]
  | times _ _ hp | map _ _ hp | mark _ hp | desc _ _ hp | shouldFail _ _ hp | peek _ hp | traced _ _ hp
    | lazy _ _ hp => rw [hp]
  | bind _ _ hp hf => rw [hp, funext hf]
  | deferred hd => exact h _ _ _ hd

mutual

/-- Every description is like itself, if every deferred part corresponds to itself. -/
theorem refl (h : ∀ b d, d.Deferred → node b d d) : (b : Bool) → (p : Grammar a) → Alike node b p p
  | _, .leaf l => .leaf l
  | b, .andThen p q => .andThen (refl h b p) (refl h b q)
  | b, .skip p q => .skip (refl h b p) (refl h b q)
  | b, .tuple ps => .tuple rfl (reflAll h b ps)
  | b, .sequence ps => .sequence rfl (reflAll h b ps)
  | b, .alt ps => .alt rfl (reflAll h b ps)
  | b, .times p bounds => .times (refl h b p) bounds
  | b, .sepBy p sep bounds => .sepBy (refl h b p) (refl h b sep) bounds
  | b, .manyUntil p stop bounds => .manyUntil (refl h b p) (refl h b stop) bounds
  | b, .map p f => .map (refl h b p) f
  | b, .bind p f => .bind (refl h b p) fun v => refl h false (f v)
  | b, .mark p => .mark (refl h b p)
  | b, .desc p label => .desc (refl h b p) label
  | b, .shouldFail p label => .shouldFail (refl h b p) label
  | b, .peek p => .peek (refl h b p)
  | b, .traced p name => .traced (refl h b p) name
  | _, .raise cause => .raise cause
  | _, .lazy .. | _, .rule _ | _, .call _ | _, .ref _ | _, .forward _ | _, .cell _ | _, .declared _ =>
    .deferred (h _ _ trivial)

theorem reflAll (h : ∀ b d, d.Deferred → node b d d) (b : Bool) :
    (ps : List (Grammar a)) → ∀ k (_ _ : k < ps.length), Alike node b ps[k] ps[k]
  | p :: _, 0, _, _ => refl h b p
  | _ :: ps, k + 1, hk, _ => reflAll h b ps k (Nat.lt_of_succ_lt_succ hk) (Nat.lt_of_succ_lt_succ hk)

end

end Alike

mutual

/-- Whatever is mentioned in a description by a name or an address is of a class, also in what is built on first use
and in what functions return. -/
def Mentions (P : Grammar a → Prop) : Grammar a → Prop
  | .leaf _ | .raise _ => True
  | .andThen p q | .skip p q | .sepBy p q _ | .manyUntil p q _ => p.Mentions P ∧ q.Mentions P
  | .tuple ps | .sequence ps | .alt ps => MentionsAll P ps
  | .times p _ | .map p _ | .mark p | .desc p _ | .shouldFail p _ | .peek p | .traced p _ | .lazy _ p => p.Mentions P
  | .bind p f => p.Mentions P ∧ ∀ v, (f v).Mentions P
  | d => P d

/-- Whatever is mentioned in some descriptions is of a class. -/
def MentionsAll (P : Grammar a → Prop) : List (Grammar a) → Prop
  | [] => True
  | p :: ps => p.Mentions P ∧ MentionsAll P ps

end

mutual

/-- The description with others in place of what it mentions by a name or an address, also in what is built on first
use and in what functions return. -/
def substitute (f : Grammar a → Grammar a) : Grammar a → Grammar a
  | .leaf l => .leaf l
  | .raise cause => .raise cause
  | .andThen p q => .andThen (p.substitute f) (q.substitute f)
  | .skip p q => .skip (p.substitute f) (q.substitute f)
  | .tuple ps => .tuple (substituteAll f ps)
  | .sequence ps => .sequence (substituteAll f ps)
  | .alt ps => .alt (substituteAll f ps)
  | .times p bounds => .times (p.substitute f) bounds
  | .sepBy p sep bounds => .sepBy (p.substitute f) (sep.substitute f) bounds
  | .manyUntil p stop bounds => .manyUntil (p.substitute f) (stop.substitute f) bounds
  | .map p g => .map (p.substitute f) g
  | .bind p g => .bind (p.substitute f) fun v => (g v).substitute f
  | .mark p => .mark (p.substitute f)
  | .desc p label => .desc (p.substitute f) label
  | .shouldFail p label => .shouldFail (p.substitute f) label
  | .peek p => .peek (p.substitute f)
  | .traced p name => .traced (p.substitute f) name
  | .lazy id p => .lazy id (p.substitute f)
  | d => f d

/-- Some descriptions with others in place of what they mention. -/
def substituteAll (f : Grammar a → Grammar a) : List (Grammar a) → List (Grammar a)
  | [] => []
  | p :: ps => p.substitute f :: substituteAll f ps

end

theorem length_substituteAll (f : Grammar a → Grammar a) (ps : List (Grammar a)) :
    (substituteAll f ps).length = ps.length := by
  induction ps with
  | nil => rfl
  | cons p ps ih => rw [substituteAll, List.length_cons, ih, List.length_cons]

mutual

/-- A description is like itself with others in place of what it mentions, if those correspond. -/
theorem Mentions.alike_substitute {P : Grammar a → Prop} {node : (built : Bool) → Grammar a → Grammar a → Prop}
    {f : Grammar a → Grammar a} (h : ∀ d, P d → node false (f d) d) :
    (p : Grammar a) → p.Mentions P → Alike node false (p.substitute f) p
  | .leaf l, _ => .leaf l
  | .andThen p q, hp => .andThen (alike_substitute h p hp.1) (alike_substitute h q hp.2)
  | .skip p q, hp => .skip (alike_substitute h p hp.1) (alike_substitute h q hp.2)
  | .tuple ps, hp => .tuple (length_substituteAll f ps) (allAlike_substitute h ps hp)
  | .sequence ps, hp => .sequence (length_substituteAll f ps) (allAlike_substitute h ps hp)
  | .alt ps, hp => .alt (length_substituteAll f ps) (allAlike_substitute h ps hp)
  | .times p bounds, hp => .times (alike_substitute h p hp) bounds
  | .sepBy p sep bounds, hp => .sepBy (alike_substitute h p hp.1) (alike_substitute h sep hp.2) bounds
  | .manyUntil p stop bounds, hp => .manyUntil (alike_substitute h p hp.1) (alike_substitute h stop hp.2) bounds
  | .map p g, hp => .map (alike_substitute h p hp) g
  | .bind p g, hp => .bind (alike_substitute h p hp.1) fun v => alike_substitute h (g v) (hp.2 v)
  | .mark p, hp => .mark (alike_substitute h p hp)
  | .desc p label, hp => .desc (alike_substitute h p hp) label
  | .shouldFail p label, hp => .shouldFail (alike_substitute h p hp) label
  | .peek p, hp => .peek (alike_substitute h p hp)
  | .traced p name, hp => .traced (alike_substitute h p hp) name
  | .raise cause, _ => .raise cause
  | .lazy id p, hp => .lazy id (alike_substitute h p hp)
  | .rule _, hp | .call _, hp | .ref _, hp | .forward _, hp | .cell _, hp | .declared _, hp => .deferred (h _ hp)

theorem Mentions.allAlike_substitute {P : Grammar a → Prop} {node : (built : Bool) → Grammar a → Grammar a → Prop}
    {f : Grammar a → Grammar a} (h : ∀ d, P d → node false (f d) d) :
    (ps : List (Grammar a)) → MentionsAll P ps → ∀ k (_ : k < (substituteAll f ps).length) (_ : k < ps.length),
      Alike node false (substituteAll f ps)[k] ps[k]
  | p :: _, hps, 0, _, _ => alike_substitute h p hps.1
  | _ :: ps, hps, k + 1, hk, hk' =>
    allAlike_substitute h ps hps.2 k (Nat.lt_of_succ_lt_succ hk) (Nat.lt_of_succ_lt_succ hk')

end

theorem Mentions.substitute_eq {P : Grammar a → Prop} {f : Grammar a → Grammar a} (h : ∀ d, P d → f d = d)
    {p : Grammar a} (hp : p.Mentions P) : p.substitute f = p :=
  have hlike : Alike (fun _ => Eq) false (p.substitute f) p := hp.alike_substitute h
  hlike.eq fun _ _ _ => id

/-- A description that is to be built is like itself, if whatever it mentions corresponds to itself. -/
theorem Mentions.alike {P : Grammar a → Prop} {node : (built : Bool) → Grammar a → Grammar a → Prop}
    (h : ∀ d, P d → node false d d) {p : Grammar a} (hp : p.Mentions P) : Alike node false p p := by
  have hlike : Alike node false (p.substitute id) p := hp.alike_substitute h
  rwa [hp.substitute_eq (f := id) fun _ _ => rfl] at hlike

end Grammar

/-! ## Parsers of descriptions that are alike -/

/-- The parser of a leaf is related to itself. -/
theorem Leaf.carries {K : Run.Congruence σ σ} (hK : K.Records) (l : Leaf a) : K.Carries l.parser l.parser := by
  obtain ⟨e, he, hp⟩ := Leaf.combined (F := fun x => K.holds x x) l
  rw [← hp]
  exact e.carries hK he

namespace Interpreter

variable {I : Interpreter σ a} {I' : Interpreter σ' a} {enter : Grammar a → Parser σ a.Carrier Value}
variable {enter' : Grammar a → Parser σ' a.Carrier Value} {K : Run.Congruence σ σ'}

theorem parserBy_of_deferred {d : Grammar a} (h : d.Deferred) : I.parserBy enter d = entering enter (I.find d) := by
  cases d with
  | lazy _ _ | rule _ | call _ | ref _ | forward _ | cell _ | declared _ => rfl
  | _ => exact h.elim

theorem carries_bounded (bounds : Except Fault Bounds) {repeating : Bounds → Parser σ a.Carrier (List Value)}
    {repeating' : Bounds → Parser σ' a.Carrier (List Value)} (h : ∀ b, K.Carries (repeating b) (repeating' b)) :
    K.Carries (bounded bounds repeating) (bounded bounds repeating') := by
  cases bounds with
  | ok b => exact (h b).map _
  | error cause => exact fun _ _ => K.giveUp cause

theorem carries_parsersBy {ps ps' : List (Grammar a)} (length : ps.length = ps'.length)
    (parts : ∀ k (h : k < ps.length) (h' : k < ps'.length),
      K.Carries (I.parserBy enter ps[k]) (I'.parserBy enter' ps'[k])) :
    List.Forall₂ K.Carries (I.parsersBy enter ps) (I'.parsersBy enter' ps') := by
  rw [parsersBy_eq_map, parsersBy_eq_map, List.forall₂_map_left_iff, List.forall₂_map_right_iff,
    List.forall₂_iff_get]
  exact ⟨length, parts⟩

/-- Descriptions that are alike stand for parsers whose invocations are related, if those of leaves are, of what is
made while they run, and of what their deferred parts stand for. -/
theorem carries_parserBy {node : (built : Bool) → Grammar a → Grammar a → Prop} (hK : K.Records)
    (leaf : ∀ l, K.Carries (I.leaf l) (I'.leaf l))
    (make : ∀ {p p'}, Grammar.Alike node false p p' →
      K.Carries (entering enter (I.make p)) (entering enter' (I'.make p')))
    (find : ∀ {d d'}, node true d d' → K.Carries (I.parserBy enter d) (I'.parserBy enter' d'))
    {p p' : Grammar a} (h : Grammar.Alike node true p p') :
    K.Carries (I.parserBy enter p) (I'.parserBy enter' p') := by
  generalize hb : true = b at h
  induction h with
  | leaf l => exact leaf l
  | andThen _ _ hp hq => exact (hp hb).andThen (hq hb)
  | skip _ _ hp hq => exact (hp hb).skip (hq hb)
  | tuple length _ parts =>
    exact (Run.Congruence.Carries.tuple (carries_parsersBy length fun k h h' => parts k h h' hb)).map _
  | sequence length _ parts =>
    exact (Run.Congruence.Carries.sequence (carries_parsersBy length fun k h h' => parts k h h' hb)).map _
  | alt length _ parts => exact .alt (carries_parsersBy length fun k h h' => parts k h h' hb)
  | times _ bounds hp => exact carries_bounded bounds (hp hb).times
  | sepBy _ _ bounds hp hsep => exact carries_bounded bounds ((hp hb).sepBy (hsep hb))
  | manyUntil _ _ bounds hp hstop => exact carries_bounded bounds ((hp hb).manyUntil (hstop hb))
  | map _ f hp => exact (hp hb).tryMap f
  | bind _ hf hp => exact (hp hb).bind fun v => make (hf v)
  | mark _ hp => exact (hp hb).mark.map _
  | desc _ label hp => exact (hp hb).desc label
  | shouldFail _ label hp => exact ((hp hb).shouldFail label).map _
  | peek _ hp => exact (hp hb).peek
  | traced _ name hp => exact (hp hb).traced hK name
  | raise cause => exact fun _ _ => K.giveUp cause
  | lazy _ _ => cases hb
  | deferred hd => subst hb; exact find hd

/-- The parsers of a description for two interpreters are related, if their parts are. -/
theorem carries_parserWithin (hK : K.Records) (leaf : ∀ l, K.Carries (I.leaf l) (I'.leaf l))
    (make : ∀ p, K.holds (I.make p) (I'.make p)) (find : ∀ d, K.holds (I.find d) (I'.find d)) (limit : Nat)
    (p : Grammar a) : K.Carries (I.parserWithin limit p) (I'.parserWithin limit p) := by
  induction limit generalizing p with
  | zero => exact fun _ _ => K.giveUp .exhausted
  | succ limit ih =>
    have enters {x x'} (h : K.holds x x') :
        K.Carries (entering (I.parserWithin limit) x) (entering (I'.parserWithin limit) x') := fun xs i =>
      K.bind h fun p => ih p xs i
    have hp : Grammar.Alike (fun _ d d' => d.Deferred ∧ d = d') true p p := .refl (fun _ _ hd => ⟨hd, rfl⟩) true p
    refine carries_parserBy hK leaf (fun hp => ?_) (fun hd => ?_) hp
    · obtain rfl := hp.eq fun _ _ _ h => h.2
      exact enters (make _)
    · obtain ⟨hd, rfl⟩ := hd
      rw [parserBy_of_deferred hd, parserBy_of_deferred hd]
      exact enters (find _)

end Interpreter

end Furthest
