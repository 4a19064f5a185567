import Furthest.Proofs.ClosedClass
import Furthest.Proofs.Coupling

/-!
# Parsers that vary

`Combination.Varies` relates two parsers that are built alike, up to a variation: where labels may differ, those
of leaves, of `desc` and of `shouldFail` do, and parsers are named by `desc` on one side only; where there is
more input before the cursor, no part reads how far the cursor is. Parsers are traced or not, and what is deferred
is found in related stores.

Main statements: `Combination.Varies.joins`, which has that parsers that vary agree, and
`Variation.Joins.closed`, by which the rules of the calculator agree with themselves.
-/

namespace Furthest

variable {σ σ' ι α β γ ν : Type} {V : Variation ι} {R : σ → σ' → Prop}

/-! ## Parsers that invoke no other -/

/-- Two primitive parsers that vary. -/
inductive Primitive.Varies : {ι α : Type} → Variation ι → Primitive ι α → Primitive ι α → Prop
  | succeed {ι α : Type} {V : Variation ι} (v : α) : Varies V (succeed v) (succeed v)
  | fail {ι α : Type} {V : Variation ι} {label label' : Bytes} (h : V.rewords ∨ label' = label) :
    Varies V (fail label : Primitive ι α) (fail label')
  | position {ι : Type} {V : Variation ι} (h : V.before = []) : Varies V position position
  | eof {ι : Type} {V : Variation ι} : Varies V eof eof
  | satisfy {ι : Type} {V : Variation ι} {c c' : ItemClass ι} (accepts : c'.accepts = c.accepts)
    (h : V.rewords ∨ c'.label = c.label) : Varies V (satisfy c) (satisfy c')
  | str {V : Variation UInt8} (literal : Bytes) : Varies V (str literal) (str literal)
  | lineColumn {V : Variation UInt8} (h : V.before = []) : Varies V lineColumn lineColumn

/-- Primitive parsers that vary agree. -/
theorem Primitive.Varies.joins {l l' : Primitive ι α} (h : l.Varies V l') : V.Joins R l.parser l'.parser := by
  intro xs i
  cases h with
  | succeed v => exact .pure (.success v i .empty)
  | fail h => exact .pure (.fail i h)
  | position h | lineColumn h =>
    refine .pure ?_
    simp only [Variation.offset_eq_zero h, h, Nat.zero_add, List.nil_append]
    exact .here h _ i .empty
  | eof =>
    refine .pure ?_
    simp only [Variation.length_le_offset]
    split
    · exact .success () i .empty
    · exact .fail i (.inr rfl)
  | satisfy accepts h =>
    refine .pure ?_
    simp only [Variation.getElem?_offset, accepts]
    split
    · split
      · exact .success _ (i + 1) .empty
      · exact .fail i h
    · exact .fail i h
  | str literal =>
    simp only [Primitive.parser, Parser.str, Variation.length_lt_offset, Variation.drop_offset]
    split
    · exact .giveUp .beyondEnd
    · split
      · rw [Nat.add_assoc]
        exact .pure (.success literal (i + literal.length) .empty)
      · exact .pure (.fail i (.inr rfl))

/-! ## Combinations -/

/-- Two parsers that are built alike, up to a variation. What is deferred is found in related stores. -/
inductive Combination.Varies (V : Variation ι) (R : σ → σ' → Prop) :
    {α : Type} → Combination σ ι α → Combination σ' ι α → Prop
  | primitive {α : Type} {l l' : Primitive ι α} (h : l.Varies V l') : Varies V R (primitive l) (primitive l')
  | giveUp {α : Type} (cause : Fault) : Varies V R (giveUp cause : Combination σ ι α) (giveUp cause)
  | andThen {α β : Type} {p p' q q' : _} (hp : Varies V R (α := α) p p') (hq : Varies V R (α := β) q q') :
    Varies V R (andThen p q) (andThen p' q')
  | skip {α β : Type} {p p' q q' : _} (hp : Varies V R (α := α) p p') (hq : Varies V R (α := β) q q') :
    Varies V R (skip p q) (skip p' q')
  | pair {α β : Type} {p p' q q' : _} (hp : Varies V R (α := α) p p') (hq : Varies V R (α := β) q q') :
    Varies V R (pair p q) (pair p' q')
  | sequence {α : Type} {n : Nat} {ps ps' : Fin n → _} (hp : ∀ k, Varies V R (α := α) (ps k) (ps' k)) :
    Varies V R (sequence ps) (sequence ps')
  | alt {α : Type} {n : Nat} {ps ps' : Fin n → _} (hp : ∀ k, Varies V R (α := α) (ps k) (ps' k)) :
    Varies V R (alt ps) (alt ps')
  | times {α : Type} {p p' : _} (hp : Varies V R (α := α) p p') (b : Bounds) :
    Varies V R (times p b) (times p' b)
  | sepBy {α β : Type} {p p' sep sep' : _} (hp : Varies V R (α := α) p p') (hsep : Varies V R (α := β) sep sep')
    (b : Bounds) : Varies V R (sepBy p sep b) (sepBy p' sep' b)
  | manyUntil {α β : Type} {p p' stop stop' : _} (hp : Varies V R (α := α) p p')
    (hstop : Varies V R (α := β) stop stop') (b : Bounds) :
    Varies V R (manyUntil p stop b) (manyUntil p' stop' b)
  | tryMap {α β : Type} {p p' : _} (hp : Varies V R (α := α) p p') (f : α → Except Fault β) :
    Varies V R (tryMap p f) (tryMap p' f)
  | bind {α β : Type} {p p' : _} {f f' : α → _} (hp : Varies V R (α := α) p p')
    (hf : ∀ v, Varies V R (α := β) (f v) (f' v)) : Varies V R (bind p f) (bind p' f')
  | mark {α : Type} {p p' : _} (hV : V.before = []) (hp : Varies V R (α := α) p p') :
    Varies V R (mark p) (mark p')
  | desc {α : Type} {p p' : _} {label label' : Bytes} (hp : Varies V R (α := α) p p')
    (h : V.rewords ∨ label' = label) : Varies V R (desc p label) (desc p' label')
  | shouldFail {α : Type} {p p' : _} {label label' : Bytes} (hp : Varies V R (α := α) p p')
    (h : V.rewords ∨ label' = label) : Varies V R (shouldFail p label) (shouldFail p' label')
  | peek {α : Type} {p p' : _} (hp : Varies V R (α := α) p p') : Varies V R (peek p) (peek p')
  /-- Only the first parser is named. -/
  | descLeft {α : Type} {p p' : _} (hV : V.rewords) (hp : Varies V R (α := α) p p') (label : Bytes) :
    Varies V R (desc p label) p'
  /-- Only the second parser is named. -/
  | descRight {α : Type} {p p' : _} (hV : V.rewords) (hp : Varies V R (α := α) p p') (label : Bytes) :
    Varies V R p (desc p' label)
  /-- Only the first parser is traced. -/
  | tracedLeft {α : Type} {p p' : _} (hp : Varies V R (α := α) p p') (name : Bytes) :
    Varies V R (traced p name) p'
  /-- Only the second parser is traced. -/
  | tracedRight {α : Type} {p p' : _} (hp : Varies V R (α := α) p p') (name : Bytes) :
    Varies V R p (traced p' name)
  /-- What the first finds and what the second finds are related, and so are the parsers that are entered. -/
  | deferred {α γ γ' : Type} {found : Run σ γ} {found' : Run σ' γ'} {enter : γ → _} {enter' : γ' → _}
    (S : γ → γ' → Prop) (hfound : found.Couples R S found')
    (h : ∀ v v', S v v' → Varies V R (α := α) (enter v) (enter' v')) :
    Varies V R (deferred found enter) (deferred found' enter')
  | rule {α : Type} {body body' : List ι → Nat → _}
    (h : ∀ xs i, Varies V R (α := α) (body xs i) (body' (V.before ++ xs) (V.offset + i))) :
    Varies V R (rule body) (rule body')

/-- Parsers that vary agree. -/
theorem Combination.Varies.joins {e : Combination σ ι α} {e' : Combination σ' ι α} (h : e.Varies V R e') :
    V.Joins R e.parser e'.parser := by
  induction h with
  | primitive h => exact h.joins
  | giveUp cause => exact .giveUp cause
  | andThen _ _ hp hq => exact hp.andThen hq
  | skip _ _ hp hq => exact hp.skip hq
  | pair _ _ hp hq => exact hp.pair hq
  | sequence _ hp => exact .sequence (Variation.Joins.forall₂_map hp _)
  | alt _ hp => exact .alt (Variation.Joins.forall₂_map hp _)
  | times _ b hp => exact hp.times b
  | sepBy _ _ b hp hsep => exact hp.sepBy hsep b
  | manyUntil _ _ b hp hstop => exact hp.manyUntil hstop b
  | tryMap _ f hp => exact hp.tryMap f
  | bind _ _ hp hf => exact hp.bind hf
  | mark hV _ hp => exact hp.mark hV
  | desc _ h hp => exact hp.desc h
  | shouldFail _ h hp => exact hp.shouldFail h
  | peek _ hp => exact hp.peek
  | descLeft hV _ label hp => exact hp.desc_left hV label
  | descRight hV _ label hp => exact hp.desc_right hV label
  | tracedLeft _ name hp => exact hp.traced_left name
  | tracedRight _ name hp => exact hp.traced_right name
  | deferred _ hfound _ hp => exact .deferred hfound hp
  | rule _ hp => exact fun xs i => hp xs i xs i

/-! ## Derived parsers -/

namespace Variation.Joins

variable {p : Parser σ ι α} {p' : Parser σ' ι α} {q : Parser σ ι β} {q' : Parser σ' ι β}

theorem satisfy (c : ItemClass ι) : V.Joins R (Parser.satisfy c) (Parser.satisfy c) :=
  Primitive.Varies.joins (l := .satisfy c) (.satisfy rfl (.inr rfl))

theorem map (hp : V.Joins R p p') (f : α → β) : V.Joins R (p.map f) (p'.map f) := hp.tryMap _

theorem traced (hp : V.Joins R p p') (name : Bytes) : V.Joins R (p.traced name) (p'.traced name) :=
  (hp.traced_left name).traced_right name

theorem tuple {ps : List (Parser σ ι α)} {ps' : List (Parser σ' ι α)} (hp : List.Forall₂ (V.Joins R) ps ps') :
    V.Joins R (Parser.tuple ps) (Parser.tuple ps') := by
  induction hp with
  | nil => exact succeed []
  | cons hp _ ih => exact (hp.pair ih).map _

/-- The parsers that agree with themselves are a closed class. -/
theorem closed {V : Variation UInt8} {R : σ → σ → Prop} : Parser.Closed (σ := σ) fun p => V.Joins R p p where
  giveUp := giveUp
  satisfy := satisfy
  str literal := (Primitive.Varies.str literal).joins
  andThen := andThen
  skip := skip
  pair := pair
  alt h := alt (List.forall₂_same.2 h)
  times b h := h.times b
  tryMap f h := h.tryMap f
  desc _ h := h.desc (.inr rfl)
  traced name h := h.traced name
  remaining {α p} h xs i := by
    show Run.Couples R V.Agree (p (xs.length - i) xs i) (p ((V.before ++ xs).length - (V.offset + i)) _ _)
    rw [length_sub_offset]
    exact h _ xs i

end Variation.Joins

end Furthest
