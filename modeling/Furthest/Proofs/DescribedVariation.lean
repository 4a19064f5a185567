import Mathlib.Data.Option.Defs
import Furthest.Grammar.Meaning
import Furthest.Proofs.Variation

/-!
# Descriptions that vary

What `Combination.Varies` is for combinations, `Grammar.Varies` is for descriptions, and `Store.Varies` for the
stores that their deferred parts are found in. Descriptions that vary are built alike, and what is built and
entered varies again: the deferred parts are looked up under the same names and at the same addresses.

Main statements: `Grammar.Varies.build` and `Grammar.Varies.joins`.
-/

namespace Furthest

variable {σ : Type} {a : Alphabet} {V : Variation a.Carrier}

/-! ## Leaves -/

/-- Two leaves that vary. -/
inductive Leaf.Varies : {a : Alphabet} → Variation a.Carrier → Leaf a → Leaf a → Prop
  | succeed {a : Alphabet} {V : Variation a.Carrier} (v : Value) : Varies V (succeed v) (succeed v)
  | fail {a : Alphabet} {V : Variation a.Carrier} {label label' : Bytes} (h : V.rewords ∨ label' = label) :
    Varies V (fail label) (fail label')
  | position {a : Alphabet} {V : Variation a.Carrier} (h : V.before = []) : Varies V position position
  | eof {a : Alphabet} {V : Variation a.Carrier} : Varies V eof eof
  | satisfy {a : Alphabet} {V : Variation a.Carrier} {c c' : ItemClass a.Carrier}
    (accepts : c'.accepts = c.accepts) (h : V.rewords ∨ c'.label = c.label) : Varies V (satisfy c) (satisfy c')
  | str {V : Variation UInt8} (literal : Bytes) : Varies (a := .bytes) V (str literal) (str literal)
  | strFrom {V : Variation UInt8} (literals : List Bytes) :
    Varies (a := .bytes) V (strFrom literals) (strFrom literals)
  | letter {V : Variation UInt8} : Varies (a := .bytes) V letter letter
  | whitespace {V : Variation UInt8} : Varies (a := .bytes) V whitespace whitespace
  | lineColumn {V : Variation UInt8} (h : V.before = []) : Varies (a := .bytes) V lineColumn lineColumn
  | calculator {V : Variation UInt8} (rule : Calculator.Rule) :
    Varies (a := .bytes) V (calculator rule) (calculator rule)
  | opPair {V : Variation UInt8} (operators : Bytes) (rule : Calculator.Rule) :
    Varies (a := .bytes) V (opPair operators rule) (opPair operators rule)

/-- Leaves that vary agree. -/
theorem Leaf.Varies.joins {R : σ → σ → Prop} {l l' : Leaf a} (h : l.Varies V l') : V.Joins R l.parser l'.parser := by
  cases h with
  | succeed v => exact .succeed v
  | fail h => exact (Primitive.Varies.fail h).joins
  | position h => exact (Primitive.Varies.position h).joins.map _
  | eof => exact Primitive.Varies.eof.joins.map _
  | satisfy accepts h => exact (Primitive.Varies.joins (l := .satisfy _) (.satisfy accepts h)).map _
  | str literal => exact (Primitive.Varies.str literal).joins.map _
  | strFrom literals => exact (Variation.Joins.closed.strFrom literals).map _
  | letter => exact Variation.Joins.closed.letter.map _
  | whitespace => exact Variation.Joins.closed.whitespace.map _
  | lineColumn h => exact (Primitive.Varies.lineColumn h).joins.map _
  | calculator rule => exact (Variation.Joins.closed.rule .binary rule).map _
  | opPair operators rule =>
    exact (Variation.Joins.closed.opPair operators (Variation.Joins.closed.rule .binary rule)).map _

/-! ## Descriptions -/

/-- Two descriptions of parsers that are built alike, up to a variation. -/
inductive Grammar.Varies (V : Variation a.Carrier) : Grammar a → Grammar a → Prop
  | leaf {l l' : Leaf a} (h : l.Varies V l') : Varies V (leaf l) (leaf l')
  | andThen {p p' q q' : Grammar a} (hp : Varies V p p') (hq : Varies V q q') :
    Varies V (andThen p q) (andThen p' q')
  | skip {p p' q q' : Grammar a} (hp : Varies V p p') (hq : Varies V q q') : Varies V (skip p q) (skip p' q')
  | tuple {ps ps' : List (Grammar a)} (length : ps.length = ps'.length)
    (parts : ∀ {p p'}, (p, p') ∈ ps.zip ps' → Varies V p p') : Varies V (tuple ps) (tuple ps')
  | sequence {ps ps' : List (Grammar a)} (length : ps.length = ps'.length)
    (parts : ∀ {p p'}, (p, p') ∈ ps.zip ps' → Varies V p p') : Varies V (sequence ps) (sequence ps')
  | alt {ps ps' : List (Grammar a)} (length : ps.length = ps'.length)
    (parts : ∀ {p p'}, (p, p') ∈ ps.zip ps' → Varies V p p') : Varies V (alt ps) (alt ps')
  | times {p p' : Grammar a} (hp : Varies V p p') (bounds : Except Fault Bounds) :
    Varies V (times p bounds) (times p' bounds)
  | sepBy {p p' sep sep' : Grammar a} (hp : Varies V p p') (hsep : Varies V sep sep')
    (bounds : Except Fault Bounds) : Varies V (sepBy p sep bounds) (sepBy p' sep' bounds)
  | manyUntil {p p' stop stop' : Grammar a} (hp : Varies V p p') (hstop : Varies V stop stop')
    (bounds : Except Fault Bounds) : Varies V (manyUntil p stop bounds) (manyUntil p' stop' bounds)
  | map {p p' : Grammar a} (hp : Varies V p p') (f : Value → Except Fault Value) :
    Varies V (map p f) (map p' f)
  | bind {p p' : Grammar a} {f f' : Value → Grammar a} (hp : Varies V p p') (hf : ∀ v, Varies V (f v) (f' v)) :
    Varies V (bind p f) (bind p' f')
  | mark {p p' : Grammar a} (hV : V.before = []) (hp : Varies V p p') : Varies V (mark p) (mark p')
  | desc {p p' : Grammar a} {label label' : Bytes} (hp : Varies V p p') (h : V.rewords ∨ label' = label) :
    Varies V (desc p label) (desc p' label')
  | shouldFail {p p' : Grammar a} {label label' : Bytes} (hp : Varies V p p')
    (h : V.rewords ∨ label' = label) : Varies V (shouldFail p label) (shouldFail p' label')
  | peek {p p' : Grammar a} (hp : Varies V p p') : Varies V (peek p) (peek p')
  | descLeft {p p' : Grammar a} (hV : V.rewords) (hp : Varies V p p') (label : Bytes) :
    Varies V (desc p label) p'
  | descRight {p p' : Grammar a} (hV : V.rewords) (hp : Varies V p p') (label : Bytes) :
    Varies V p (desc p' label)
  | tracedLeft {p p' : Grammar a} (hp : Varies V p p') (name : Bytes) : Varies V (traced p name) p'
  | tracedRight {p p' : Grammar a} (hp : Varies V p p') (name : Bytes) : Varies V p (traced p' name)
  | lazy {p p' : Grammar a} (id id' : Option Bytes) (hp : Varies V p p') : Varies V (lazy id p) (lazy id' p')
  | rule (name : Bytes) : Varies V (rule name) (rule name)
  | call (name : Bytes) : Varies V (call name) (call name)
  | ref (name : Bytes) : Varies V (ref name) (ref name)
  | forward (name : Bytes) : Varies V (forward name) (forward name)
  | cell (address : Nat) : Varies V (cell address) (cell address)
  | declared (address : Nat) : Varies V (declared address) (declared address)
  | raise (cause : Fault) : Varies V (raise cause) (raise cause)

/-! ## Stores -/

/-- Two cells that vary. -/
structure Cell.Varies (V : Variation a.Carrier) (c c' : Cell a) : Prop where
  body : c.body.Varies V c'.body
  built : Option.Rel (Grammar.Varies V) c.built c'.built

/-- Two declarations that vary. -/
inductive Declaration.Varies (V : Variation a.Carrier) : Declaration a → Declaration a → Prop
  | unbound : Varies V unbound unbound
  | bound {p p' : Grammar a} (h : p.Varies V p') : Varies V (bound p) (bound p')
  | gone : Varies V gone gone

/-- Two stores that vary: names and addresses stand for descriptions that vary. -/
structure Store.Varies (V : Variation a.Carrier) (s s' : Store a) : Prop where
  rules (name : Bytes) : Option.Rel (Grammar.Varies V) (s.rules.lookup name) (s'.rules.lookup name)
  definitions (name : Bytes) :
    Option.Rel (Grammar.Varies V) (s.definitions.lookup name) (s'.definitions.lookup name)
  size : s.cells.size = s'.cells.size
  cells (address : Nat) : Option.Rel (Cell.Varies V) s.cells[address]? s'.cells[address]?
  names (name : Bytes) : Option.Rel Eq (s.names.lookup name) (s'.names.lookup name)
  declarations (address : Nat) :
    Option.Rel (Declaration.Varies V) s.declarations[address]? s'.declarations[address]?

namespace Store.Varies

variable {s s' : Store a}

theorem addCell (h : s.Varies V s') {c c' : Cell a} (hc : c.Varies V c') :
    (s.addCell c).Varies V (s'.addCell c') where
  rules := h.rules
  definitions := h.definitions
  size := by simp [Store.addCell, h.size]
  cells address := by
    simp only [Store.addCell, Array.getElem?_push, h.size]
    split
    · exact .some hc
    · exact h.cells address
  names := h.names
  declarations := h.declarations

theorem modifyCell (h : s.Varies V s') (address : Nat) {f f' : Cell a → Cell a}
    (hf : ∀ c c', c.Varies V c' → (f c).Varies V (f' c')) :
    (s.modifyCell address f).Varies V (s'.modifyCell address f') where
  rules := h.rules
  definitions := h.definitions
  size := by simp [Store.modifyCell, h.size]
  cells i := by
    have hc := h.cells i
    simp only [Store.modifyCell, Array.getElem?_modify]
    generalize s.cells[i]? = c at hc ⊢
    generalize s'.cells[i]? = c' at hc ⊢
    split
    · cases hc with
      | none => exact .none
      | some hc => exact .some (hf _ _ hc)
    · exact hc
  names := h.names
  declarations := h.declarations

end Store.Varies

/-- What a name stands for, or that it stands for nothing. -/
theorem Store.endAlike_resolve {α : Type} {S : α → α → Prop} {names names' : List (Bytes × α)}
    {name : Bytes} (h : Option.Rel S (names.lookup name) (names'.lookup name)) :
    EndAlike S (resolve names name) (resolve names' name) := by
  unfold resolve
  generalize names.lookup name = x at h ⊢
  generalize names'.lookup name = x' at h ⊢
  cases h with
  | some h => exact .ok h
  | none => exact .error .unknownName

/-! ## Building -/

namespace Grammar

/-- Runs that build or find descriptions that vary. -/
def BuildsAlike (V : Variation a.Carrier) (x x' : Run (Store a) (Grammar a)) : Prop :=
  x.Couples (Store.Varies V) (Varies V) x'

theorem allocate_alike {id id' : Option Bytes} {p p' : Grammar a} (h : p.Varies V p') :
    BuildsAlike V (allocate id p) (allocate id' p') :=
  .bind .getStore fun _ _ hs => .bind (.modifyStore fun _ _ ht => ht.addCell ⟨h, .none⟩) fun _ _ _ =>
    .pure (hs.size ▸ .cell _)

/-- The rule of a name. -/
theorem resolve_rule {s s' : Store a} (h : s.Varies V s') (name : Bytes) :
    BuildsAlike V (Run.ofExcept (Store.resolve s.rules name)) (Run.ofExcept (Store.resolve s'.rules name)) :=
  .ofExcept (Store.endAlike_resolve (h.rules name))

theorem buildAll_alike {ps ps' : List (Grammar a)}
    (h : List.Forall₂ (fun p p' => BuildsAlike V p.build p'.build) ps ps') :
    (buildAll ps).Couples (Store.Varies V) (List.Forall₂ (Varies V)) (buildAll ps') := by
  induction h with
  | nil => simp only [buildAll]; exact .pure .nil
  | cons hp _ ih =>
    simp only [buildAll]
    exact .bind hp fun _ _ hq => .bind ih fun _ _ hqs => .pure (.cons hq hqs)

/-- Descriptions whose parts are built alike. -/
theorem parts_alike {mk : List (Grammar a) → Grammar a} {ps ps' : List (Grammar a)}
    (hmk : ∀ {qs qs' : List (Grammar a)}, qs.length = qs'.length →
      (∀ {q q'}, (q, q') ∈ qs.zip qs' → q.Varies V q') → (mk qs).Varies V (mk qs'))
    (length : ps.length = ps'.length)
    (parts : ∀ {p p'}, (p, p') ∈ ps.zip ps' → BuildsAlike V p.build p'.build) :
    BuildsAlike V (do return mk (← buildAll ps)) (do return mk (← buildAll ps')) :=
  .bind (buildAll_alike (List.forall₂_iff_zip.2 ⟨length, parts⟩)) fun _ _ h =>
    have h := List.forall₂_iff_zip.1 h
    .pure (hmk h.1 h.2)

/-- Descriptions with bounds that are checked after their parts are built. -/
theorem bounded_alike {mk mk' : Except Fault Bounds → Grammar a} (bounds : Except Fault Bounds)
    (h : ∀ b, (mk b).Varies V (mk' b)) :
    BuildsAlike V (do return mk (.ok (← Run.ofExcept bounds))) (do return mk' (.ok (← Run.ofExcept bounds))) := by
  cases bounds with
  | ok b => exact .pure (h (.ok b))
  | error cause => exact .giveUp cause

/-- Descriptions that vary are built alike. -/
theorem Varies.build {p p' : Grammar a} (h : p.Varies V p') : BuildsAlike V p.build p'.build := by
  induction h with
  | leaf h => exact .pure (.leaf h)
  | andThen _ _ hp hq => exact .bind hp fun _ _ hp => .bind hq fun _ _ hq => .pure (.andThen hp hq)
  | skip _ _ hp hq => exact .bind hp fun _ _ hp => .bind hq fun _ _ hq => .pure (.skip hp hq)
  | tuple length _ parts => exact parts_alike .tuple length parts
  | sequence length _ parts => exact parts_alike .sequence length parts
  | alt length _ parts => exact parts_alike .alt length parts
  | times _ bounds hp => exact .bind hp fun _ _ hp => bounded_alike bounds (.times hp)
  | sepBy _ _ bounds hp hq =>
    exact .bind hp fun _ _ hp => .bind hq fun _ _ hq => bounded_alike bounds (.sepBy hp hq)
  | manyUntil _ _ bounds hp hq =>
    exact .bind hp fun _ _ hp => .bind hq fun _ _ hq => bounded_alike bounds (.manyUntil hp hq)
  | map _ f hp => exact .bind hp fun _ _ hp => .pure (.map hp f)
  | bind _ hf hp => exact .bind hp fun _ _ hp => .pure (.bind hp hf)
  | mark hV _ hp => exact .bind hp fun _ _ hp => .pure (.mark hV hp)
  | desc _ h hp => exact .bind hp fun _ _ hp => .pure (.desc hp h)
  | shouldFail _ h hp => exact .bind hp fun _ _ hp => .pure (.shouldFail hp h)
  | peek _ hp => exact .bind hp fun _ _ hp => .pure (.peek hp)
  | descLeft hV _ label hp => exact .bind_left hp fun _ _ hp => .pure (.descLeft hV hp label)
  | descRight hV _ label hp => exact .bind_right hp fun _ _ hp => .pure (.descRight hV hp label)
  | tracedLeft _ name hp => exact .bind_left hp fun _ _ hp => .pure (.tracedLeft hp name)
  | tracedRight _ name hp => exact .bind_right hp fun _ _ hp => .pure (.tracedRight hp name)
  | lazy id id' h => exact allocate_alike h
  | rule name => exact .bind .getStore fun _ _ hs => .bind (resolve_rule hs name) fun _ _ h => allocate_alike h
  | ref name => exact .bind .getStore fun _ _ hs => .ofExcept (Store.endAlike_resolve (hs.definitions name))
  | forward name =>
    refine .bind .getStore fun _ _ hs => .bind (.ofExcept (Store.endAlike_resolve (S := Eq) ?_)) fun _ _ h =>
      .pure (h ▸ .declared _)
    exact hs.names name
  | call name => exact .pure (.call name)
  | cell address => exact .pure (.cell address)
  | declared address => exact .pure (.declared address)
  | raise cause => exact .giveUp cause

/-- A cell is forced to descriptions that vary. -/
theorem force_alike (address : Nat) : BuildsAlike V (force address) (force address) :=
  .bind .getStore fun s s' hs => by
    have hc := hs.cells address
    generalize s.cells[address]? = c at hc ⊢
    generalize s'.cells[address]? = c' at hc ⊢
    cases hc with
    | none => exact .giveUp .unknownName
    | @some c c' hc =>
      obtain ⟨id, body, starts, built⟩ := c
      obtain ⟨id', body', starts', built'⟩ := c'
      obtain ⟨hbody, hbuilt⟩ := hc
      cases hbuilt with
      | some h => exact .pure h
      | none =>
        have start (s s' : Store a) (ht : s.Varies V s') := ht.modifyCell address fun _ _ hc =>
          (⟨hc.body, hc.built⟩ : Cell.Varies V (Cell.start _) (Cell.start _))
        refine .bind (.modifyStore start) fun _ _ _ => .bind hbody.build fun p p' hp => ?_
        have finish (s s' : Store a) (ht : s.Varies V s') := ht.modifyCell address fun _ _ hc =>
          (⟨hc.body, .some hp⟩ : Cell.Varies V (Cell.finish _ p) (Cell.finish _ p'))
        exact .bind (.modifyStore finish) fun _ _ _ => .pure hp

/-- A declaration is bound to descriptions that vary. -/
theorem definition_alike (address : Nat) : BuildsAlike V (definition address) (definition address) :=
  .bind .getStore fun s s' hs => by
    have hd := hs.declarations address
    generalize s.declarations[address]? = d at hd ⊢
    generalize s'.declarations[address]? = d' at hd ⊢
    cases hd with
    | none => exact .giveUp .unknownName
    | some hd =>
      cases hd with
      | unbound => exact .giveUp .declarationUnbound
      | gone => exact .giveUp .declarationGone
      | bound h => exact .pure h

/-! ## Parsers of descriptions -/

/-- Descriptions that vary are entered alike, and by parsers that agree. -/
def EntersAlike (V : Variation a.Carrier) (enter enter' : Grammar a → Meaning a) : Prop :=
  ∀ p p', p.Varies V p' → V.Joins (Store.Varies V) (enter p) (enter' p')

section

variable {enter enter' : Grammar a → Meaning a}

theorem joins_entering (h : EntersAlike V enter enter') {found found' : Run (Store a) (Grammar a)}
    (hfound : BuildsAlike V found found') :
    V.Joins (Store.Varies V) (entering enter found) (entering enter' found') := .deferred hfound h

theorem joins_bounded (bounds : Except Fault Bounds)
    {repeating repeating' : Bounds → Parser (Store a) a.Carrier (List Value)}
    (h : ∀ b, V.Joins (Store.Varies V) (repeating b) (repeating' b)) :
    V.Joins (Store.Varies V) (bounded bounds repeating) (bounded bounds repeating') := by
  cases bounds with
  | ok b => exact (h b).map _
  | error cause => exact .giveUp cause

theorem parsersBy_eq_map (enter : Grammar a → Meaning a) (ps : List (Grammar a)) :
    parsersBy enter ps = ps.map (parserBy enter) := by
  induction ps with
  | nil => rfl
  | cons p ps ih => rw [parsersBy, ih, List.map_cons]

theorem joins_parsersBy {ps ps' : List (Grammar a)} (length : ps.length = ps'.length)
    (parts : ∀ {p p'}, (p, p') ∈ ps.zip ps' →
      V.Joins (Store.Varies V) (parserBy enter p) (parserBy enter' p')) :
    List.Forall₂ (V.Joins (Store.Varies V)) (parsersBy enter ps) (parsersBy enter' ps') := by
  rw [parsersBy_eq_map, parsersBy_eq_map, List.forall₂_map_left_iff, List.forall₂_map_right_iff,
    List.forall₂_iff_zip]
  exact ⟨length, parts⟩

/-- Descriptions that vary stand for parsers that agree, if all that is entered does. -/
theorem Varies.joins_parserBy {p p' : Grammar a} (h : p.Varies V p') (henter : EntersAlike V enter enter') :
    V.Joins (Store.Varies V) (parserBy enter p) (parserBy enter' p') := by
  induction h with
  | leaf h => exact h.joins
  | andThen _ _ hp hq => exact hp.andThen hq
  | skip _ _ hp hq => exact hp.skip hq
  | tuple length _ parts => exact (Variation.Joins.tuple (joins_parsersBy length parts)).map _
  | sequence length _ parts => exact (Variation.Joins.sequence (joins_parsersBy length parts)).map _
  | alt length _ parts => exact .alt (joins_parsersBy length parts)
  | times _ bounds hp => exact joins_bounded bounds hp.times
  | sepBy _ _ bounds hp hsep => exact joins_bounded bounds (hp.sepBy hsep)
  | manyUntil _ _ bounds hp hstop => exact joins_bounded bounds (hp.manyUntil hstop)
  | map _ f hp => exact hp.tryMap f
  | bind _ hf hp => exact hp.bind fun v => joins_entering henter (hf v).build
  | mark hV _ hp => exact (hp.mark hV).map _
  | desc _ h hp => exact hp.desc h
  | shouldFail _ h hp => exact (hp.shouldFail h).map _
  | peek _ hp => exact hp.peek
  | descLeft hV _ label hp => exact hp.desc_left hV label
  | descRight hV _ label hp => exact hp.desc_right hV label
  | tracedLeft _ name hp => exact hp.traced_left name
  | tracedRight _ name hp => exact hp.traced_right name
  | lazy id id' h => exact joins_entering henter (allocate_alike h)
  | rule name => exact joins_entering henter (Varies.rule name).build
  | call name =>
    exact joins_entering henter (.bind .getStore fun _ _ hs => .bind (resolve_rule hs name) fun _ _ h => h.build)
  | ref name => exact joins_entering henter (Varies.ref name).build
  | forward name => exact joins_entering henter (Varies.forward name).build
  | cell address => exact joins_entering henter (force_alike address)
  | declared address => exact joins_entering henter (definition_alike address)
  | raise cause => exact .giveUp cause

/-- Descriptions that vary stand for parsers that agree, to any depth of nesting. -/
theorem Varies.joins {p p' : Grammar a} (h : p.Varies V p') (limit : Nat) :
    V.Joins (Store.Varies V) (p.parserWithin limit) (p'.parserWithin limit) := by
  induction limit generalizing p p' with
  | zero => exact .giveUp .exhausted
  | succ limit ih => exact h.joins_parserBy fun _ _ hp => ih hp

end

end Grammar

end Furthest
