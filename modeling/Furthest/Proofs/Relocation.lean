import Furthest.Proofs.CursorBounds
import Furthest.Proofs.DescribedVariation

/-!
# Parsers do not see what is before the cursor

A parser that neither reads nor notes its cursor, `Combination.Unplaced`, ends alike in an input and in one that
has more items before the cursor: cursors and indexes are further by the count of these items, and nothing else
differs. So it is with the rules of the calculator and with descriptions whose deferred parts do not read their
cursor either. A grammar can thus go on with the rest that `parsePartial` left, and finds there what it would
have found in place.

Main statement: `translation_invariance`.
-/

namespace Furthest

variable {σ ι α β γ : Type}

/-! ## Parsers that do not read their cursor -/

/-- Two values are the same, and satisfy a condition. -/
def SameWith (K : α → Prop) (v v' : α) : Prop := v' = v ∧ K v

/-- The value of the parser does not tell where it was invoked. -/
def Primitive.Unplaced : {ι α : Type} → Primitive ι α → Prop
  | _, _, position | _, _, lineColumn => False
  | _, _, _ => True

namespace Combination

/-- No part of the parser reads or notes its cursor. What is deferred depends on the store alone, which
satisfies a condition; what is built for an input and a cursor depends on the input after the cursor alone. -/
def Unplaced (K : σ → Prop) : {α : Type} → Combination σ ι α → Prop
  | _, primitive l => l.Unplaced
  | _, giveUp _ => True
  | _, andThen p q => p.Unplaced K ∧ q.Unplaced K
  | _, skip p q => p.Unplaced K ∧ q.Unplaced K
  | _, pair p q => p.Unplaced K ∧ q.Unplaced K
  | _, sequence ps => ∀ k, (ps k).Unplaced K
  | _, alt ps => ∀ k, (ps k).Unplaced K
  | _, times p _ => p.Unplaced K
  | _, sepBy p sep _ => p.Unplaced K ∧ sep.Unplaced K
  | _, manyUntil p stop _ => p.Unplaced K ∧ stop.Unplaced K
  | _, tryMap p _ => p.Unplaced K
  | _, bind p f => p.Unplaced K ∧ ∀ v, (f v).Unplaced K
  | _, mark _ => False
  | _, desc p _ => p.Unplaced K
  | _, shouldFail p _ => p.Unplaced K
  | _, peek p => p.Unplaced K
  | _, traced p _ => p.Unplaced K
  | _, deferred found enter =>
    ∃ good, found.Couples (SameWith K) (SameWith good) found ∧ ∀ v, good v → (enter v).Unplaced K
  | _, rule body =>
    (∀ before xs i, body (before ++ xs) (before.length + i) = body xs i) ∧ ∀ xs i, (body xs i).Unplaced K

end Combination

/-- More items before the cursor, and nothing else. -/
def Variation.relocation (before : List ι) : Variation ι := ⟨before, False⟩

variable {K : σ → Prop} {before : List ι}

theorem Primitive.Unplaced.varies {l : Primitive ι α} (h : l.Unplaced) : l.Varies (.relocation before) l := by
  cases l with
  | succeed v => exact .succeed v
  | fail label => exact .fail (.inr rfl)
  | position | lineColumn => exact h.elim
  | eof => exact .eof
  | satisfy c => exact .satisfy rfl (.inr rfl)
  | str literal => exact .str literal

/-- A parser that does not read its cursor is the same wherever it is invoked. -/
theorem Combination.Unplaced.varies {e : Combination σ ι α} (h : e.Unplaced K) :
    e.Varies (.relocation before) (SameWith K) e := by
  induction e with
  | primitive l => exact .primitive (Primitive.Unplaced.varies h)
  | giveUp cause => exact .giveUp cause
  | andThen p q hp hq => exact .andThen (hp h.1) (hq h.2)
  | skip p q hp hq => exact .skip (hp h.1) (hq h.2)
  | pair p q hp hq => exact .pair (hp h.1) (hq h.2)
  | sequence ps hp => exact .sequence fun k => hp k (h k)
  | alt ps hp => exact .alt fun k => hp k (h k)
  | times p b hp => exact .times (hp h) b
  | sepBy p sep b hp hsep => exact .sepBy (hp h.1) (hsep h.2) b
  | manyUntil p stop b hp hstop => exact .manyUntil (hp h.1) (hstop h.2) b
  | tryMap p f hp => exact .tryMap (hp h) f
  | bind p f hp hf => exact .bind (hp h.1) fun v => hf v (h.2 v)
  | mark p => exact h.elim
  | desc p label hp => exact .desc (hp h) (.inr rfl)
  | shouldFail p label hp => exact .shouldFail (hp h) (.inr rfl)
  | peek p hp => exact .peek (hp h)
  | traced p name hp => exact .tracedRight (.tracedLeft (hp h) name) name
  | deferred found enter hp =>
    obtain ⟨good, hfound, hgood⟩ := h
    exact .deferred _ hfound fun v v' hv => hv.1 ▸ hp v (hgood v hv.2)
  | rule body hp =>
    refine .rule fun xs i => ?_
    rw [Variation.relocation, Variation.offset, h.1]
    exact hp xs i (h.2 xs i)

/-! ## Descriptions -/

/-- The value of the leaf does not tell where it was invoked. -/
def Leaf.Unplaced : {a : Alphabet} → Leaf a → Prop
  | _, position | _, lineColumn => False
  | _, _ => True

namespace Grammar

variable {a : Alphabet}

mutual

/-- No part of a described parser reads or notes its cursor, those apart that are found in the store. -/
def Unplaced : Grammar a → Prop
  | leaf l => l.Unplaced
  | andThen p q | skip p q | sepBy p q _ | manyUntil p q _ => p.Unplaced ∧ q.Unplaced
  | tuple ps | sequence ps | alt ps => AllUnplaced ps
  | times p _ | map p _ | desc p _ | shouldFail p _ | peek p | traced p _ | lazy _ p => p.Unplaced
  | bind p f => p.Unplaced ∧ ∀ v, (f v).Unplaced
  | mark _ => False
  | rule _ | call _ | ref _ | forward _ | cell _ | declared _ | raise _ => True

/-- No part of some described parsers reads or notes its cursor. -/
def AllUnplaced : List (Grammar a) → Prop
  | [] => True
  | p :: ps => p.Unplaced ∧ AllUnplaced ps

end

end Grammar

variable {a : Alphabet} {ahead : List a.Carrier}

theorem Leaf.Unplaced.varies {l : Leaf a} (h : l.Unplaced) : l.Varies (.relocation ahead) l := by
  cases l with
  | succeed v => exact .succeed v
  | fail label => exact .fail (.inr rfl)
  | position | lineColumn => exact h.elim
  | eof => exact .eof
  | satisfy c => exact .satisfy rfl (.inr rfl)
  | str literal => exact .str literal
  | strFrom literals => exact .strFrom literals
  | letter => exact .letter
  | whitespace => exact .whitespace
  | calculator rule => exact .calculator rule
  | opPair operators rule => exact .opPair operators rule

namespace Grammar

mutual

/-- A described parser that does not read its cursor is the same wherever it is invoked. -/
theorem varies_of_unplaced : (p : Grammar a) → p.Unplaced → p.Varies (.relocation ahead) p
  | leaf _, h => .leaf (Leaf.Unplaced.varies h)
  | andThen p q, h => .andThen (varies_of_unplaced p h.1) (varies_of_unplaced q h.2)
  | skip p q, h => .skip (varies_of_unplaced p h.1) (varies_of_unplaced q h.2)
  | tuple ps, h => .tuple rfl (variesAll_of_unplaced ps h)
  | sequence ps, h => .sequence rfl (variesAll_of_unplaced ps h)
  | alt ps, h => .alt rfl (variesAll_of_unplaced ps h)
  | times p bounds, h => .times (varies_of_unplaced p h) bounds
  | sepBy p sep bounds, h => .sepBy (varies_of_unplaced p h.1) (varies_of_unplaced sep h.2) bounds
  | manyUntil p stop bounds, h => .manyUntil (varies_of_unplaced p h.1) (varies_of_unplaced stop h.2) bounds
  | map p f, h => .map (varies_of_unplaced p h) f
  | bind p f, h => .bind (varies_of_unplaced p h.1) fun v => varies_of_unplaced (f v) (h.2 v)
  | desc p _, h => .desc (varies_of_unplaced p h) (.inr rfl)
  | shouldFail p _, h => .shouldFail (varies_of_unplaced p h) (.inr rfl)
  | peek p, h => .peek (varies_of_unplaced p h)
  | traced p name, h => .tracedRight (.tracedLeft (varies_of_unplaced p h) name) name
  | lazy id p, h => .lazy id id (varies_of_unplaced p h)
  | rule name, _ => .rule name
  | call name, _ => .call name
  | ref name, _ => .ref name
  | forward name, _ => .forward name
  | cell address, _ => .cell address
  | declared address, _ => .declared address
  | raise cause, _ => .raise cause

theorem variesAll_of_unplaced : (ps : List (Grammar a)) → AllUnplaced ps →
    ∀ {p p'}, (p, p') ∈ ps.zip ps → p.Varies (.relocation ahead) p'
  | [], _, _, _, h => nomatch h
  | p :: ps, h, _, _, hq => by
    rcases List.mem_cons.1 hq with hq | hq
    · cases hq
      exact varies_of_unplaced p h.1
    · exact variesAll_of_unplaced ps h.2 hq

end

end Grammar

/-- What is found in the store does not read its cursor. -/
structure Store.Unplaced (s : Store a) : Prop where
  rules (name : Bytes) : ∀ p ∈ s.rules.lookup name, p.Unplaced
  definitions (name : Bytes) : ∀ p ∈ s.definitions.lookup name, p.Unplaced
  bodies (address : Nat) : ∀ c ∈ s.cells[address]?, c.body.Unplaced
  built (address : Nat) : ∀ c ∈ s.cells[address]?, ∀ p ∈ c.built, p.Unplaced
  declarations (address : Nat) : ∀ p, s.declarations[address]? = some (.bound p) → p.Unplaced

/-- What an optional value is related to, if it is related to itself. -/
theorem optionRel_self {S : α → α → Prop} {x : Option α} (h : ∀ v ∈ x, S v v) : Option.Rel S x x := by
  cases x with
  | none => exact .none
  | some v => exact .some (h v rfl)

theorem Store.Unplaced.varies {s : Store a} (h : s.Unplaced) : s.Varies (.relocation ahead) s where
  rules name := optionRel_self fun p hp => Grammar.varies_of_unplaced p (h.rules name p hp)
  definitions name := optionRel_self fun p hp => Grammar.varies_of_unplaced p (h.definitions name p hp)
  size := rfl
  cells address := optionRel_self fun c hc =>
    ⟨Grammar.varies_of_unplaced _ (h.bodies address c hc),
      optionRel_self fun p hp => Grammar.varies_of_unplaced p (h.built address c hc p hp)⟩
  names name := optionRel_self fun _ _ => rfl
  declarations address := optionRel_self fun d hd => by
    cases d with
    | unbound => exact .unbound
    | gone => exact .gone
    | bound p => exact .bound (Grammar.varies_of_unplaced p (h.declarations address p hd))

/-! ## Relocated invocations -/

/-- From one store, the parser ends in an input with more items before the cursor as it does without them, but
for the cursors and indexes that are further by their count. -/
def Parser.Relocates (K : σ → Prop) (p : Parser σ ι α) : Prop :=
  ∀ (before xs : List ι) (i : Nat) (env env' : Env σ), env'.store = env.store → K env.store →
    (p (before ++ xs) (before.length + i)).outcome env' =
      ((p xs i).outcome env).map (Result.shift before.length)

theorem Variation.Agree.eq_shift {o o' : Result α} (h : (relocation before).Agree o o') :
    o' = o.shift before.length := by
  have seen {r r' : Record} (h : (relocation before).SeesAlike r r') : r' = r.shift before.length :=
    h.shift.resolve_left id
  cases h with
  | success v n h => rw [seen h]; rfl
  | failure hc h _ => rw [hc.resolve_left id, seen h]; rfl

theorem Parser.relocates {R : List ι → σ → σ → Prop} {p : Parser σ ι α} (hR : ∀ before s, K s → R before s s)
    (h : ∀ before, (Variation.relocation before).Joins (R before) p p) : p.Relocates K := by
  intro before xs i env env' hstore hK
  obtain ⟨ho, -⟩ := h before xs i env env' (by rw [hstore]; exact hR before _ hK)
  have h' : Except.map id _ = Except.map (Result.shift before.length) _ := ho.map_eq fun _ _ ho => ho.eq_shift
  rwa [Except.map_id] at h'

namespace Parser.Relocates

variable {p : Parser σ ι α}

/-- In what is left of an input, a parser ends as it does in place. -/
theorem drop (hp : p.Relocates K) {xs : List ι} {n : Nat} (hn : n ≤ xs.length) {env env' : Env σ}
    (hstore : env'.store = env.store) (hK : K env.store) :
    (p xs n).outcome env' = ((p (xs.drop n) 0).outcome env).map (Result.shift n) := by
  have h := hp (xs.take n) (xs.drop n) 0 env env' hstore hK
  rwa [List.take_append_drop, List.length_take_of_le hn] at h

/-- What is left of an input is parsed as it is in place. -/
theorem parsePartial_drop [Item ι] (hp : p.Relocates K) {xs : List ι} {n : Nat} (hn : n ≤ xs.length)
    {env env' : Env σ} (hstore : env'.store = env.store) (hK : K env.store) (v : α) (rest : List ι) :
    (p.parsePartial (xs.drop n)).outcome env = .ok (.ok (v, rest)) ↔
      ∃ m r, (p xs n).outcome env' = .ok (.success v m r) ∧ rest = xs.drop m := by
  rw [hp.drop hn hstore hK, parsePartial_eq, Run.outcome_bind_pure]
  rcases (p (xs.drop n) 0).outcome env with cause | ⟨w, m, r⟩ | ⟨c, r⟩
  · simp [Except.map]
  · have hrest : xs.drop (n + m) = rest ↔ rest = xs.drop (n + m) := eq_comm
    simpa [Except.map, partOf, Result.shift] using fun _ => hrest
  · simp [Except.map, partOf, Result.shift]

end Parser.Relocates

theorem Combination.Unplaced.relocates {e : Combination σ ι α} (h : e.Unplaced K) : e.parser.Relocates K :=
  Parser.relocates (R := fun _ => SameWith K) (fun _ _ hK => ⟨rfl, hK⟩) fun _ => h.varies.joins

/-- Parsers that neither read nor note their cursor, the rules of the calculator and descriptions of such parsers
among them, end after more items as they do without these. The rest that `parsePartial` leaves is parsed as it
is in place. -/
theorem translation_invariance {ν : Type} [Item ι] :
    (∀ e : Combination σ ι α, e.Unplaced K → e.parser.Relocates K) ∧
      (∀ (A : Arithmetic ν) (rule : Calculator.Rule),
        (rule.parser A : Parser σ UInt8 ν).Relocates fun _ => True) ∧
      (∀ {a : Alphabet} (p : Grammar a) (limit : Nat), p.Unplaced →
        (p.parserWithin limit).Relocates Store.Unplaced) ∧
      ∀ p : Parser σ ι α, p.Relocates K → ∀ (first : Combination σ ι β) (xs : List ι) (env : Env σ) (v : β)
        (rest : List ι), (first.parser.parsePartial xs).outcome env = .ok (.ok (v, rest)) →
        ∃ n r, (first.parser xs 0).outcome env = .ok (.success v n r) ∧ n ≤ xs.length ∧ rest = xs.drop n ∧
          ∀ env₁ env₂ : Env σ, env₂.store = env₁.store → K env₁.store →
            (p xs n).outcome env₂ = ((p rest 0).outcome env₁).map (Result.shift n) ∧
            ∀ w left, (p.parsePartial rest).outcome env₁ = .ok (.ok (w, left)) ↔
              ∃ m s, (p xs n).outcome env₂ = .ok (.success w m s) ∧ left = xs.drop m := by
  refine ⟨fun e h => h.relocates, fun A rule => ?_, fun p limit h => ?_, fun p hp first xs env v rest h => ?_⟩
  · exact Parser.relocates (R := fun _ _ _ => True) (fun _ _ _ => trivial) fun _ =>
      Variation.Joins.closed.rule A rule
  · exact Parser.relocates (R := fun _ => Store.Varies _) (fun _ _ hs => hs.varies) fun _ =>
      (Grammar.varies_of_unplaced p h).joins limit
  · have hwithin := first.ended_within (Nat.zero_le xs.length) env
    rw [Parser.parsePartial_eq, Run.outcome_bind_pure] at h
    rcases ho : (first.parser xs 0).outcome env with cause | ⟨w, n, r⟩ | ⟨c, r⟩ <;> rw [ho] at h hwithin <;> cases h
    obtain ⟨-, hn, -⟩ := hwithin
    exact ⟨n, r, rfl, hn, rfl, fun env₁ env₂ hstore hK => ⟨hp.drop hn hstore hK,
      hp.parsePartial_drop hn hstore hK⟩⟩

/-- Digits one after the other, each by a class of items that is found in the store. -/
theorem translation_invariance_of_deferred :
    let e : Combination (ItemClass UInt8) UInt8 UInt8 := .deferred Run.getStore fun c => .primitive (.satisfy c)
    let env : Env (ItemClass UInt8) := ⟨.ofLevel .off, .digit⟩
    e.Unplaced (fun _ => True) ∧
      (e.parser [49, 50, 97] 0).outcome env = .ok (.success 49 1 ∅) ∧
      (e.parser.parsePartial [49, 50, 97]).outcome env = .ok (.ok (49, [50, 97])) ∧
      (e.parser [50, 97] 0).outcome env = .ok (.success 50 1 ∅) ∧
      (e.parser [49, 50, 97] 1).outcome env = .ok (.success 50 2 ∅) := by
  intro e env
  have he : e.Unplaced (fun _ => True) := ⟨fun _ => True, .getStore, fun _ _ => trivial⟩
  have hfirst : (e.parser [49, 50, 97] 0).outcome env = .ok (.success 49 1 ∅) := rfl
  have hpart : (e.parser.parsePartial [49, 50, 97]).outcome env = .ok (.ok (49, [50, 97])) := rfl
  have hrest : (e.parser [50, 97] 0).outcome env = .ok (.success 50 1 ∅) := rfl
  obtain ⟨hplaced, -, -, hresume⟩ := translation_invariance (ν := Unit) (K := fun _ : ItemClass UInt8 => True)
    (ι := UInt8) (α := UInt8) (β := UInt8)
  obtain ⟨n, r, hn, -, -, hcontinue⟩ := hresume e.parser (hplaced e he) e _ env _ _ hpart
  cases hfirst.symm.trans hn
  refine ⟨he, hfirst, hpart, hrest, ?_⟩
  rw [(hcontinue env env rfl trivial).1, hrest]
  rfl

end Furthest
