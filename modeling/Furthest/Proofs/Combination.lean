import Mathlib.Data.List.FinRange
import Furthest.Parser.Input
import Furthest.Parser.Text

/-!
# How a parser was combined

A `Combination` is a parser of the library together with the way it was built: primitive parsers at the
leaves, and one constructor for each way to combine parsers, with functions of any kind to change values, to
go on from them and to look up what is deferred. `Combination.parser` is the parser that was built. What is
proved by induction over combinations holds of every parser of the library.

A parser that refers to itself is entered again by `deferred` or `rule`. A combination is finite in depth, so
it stands for the parser up to a depth of nesting, below which `giveUp` stands for what is not unfolded; an
invocation that ends has unfolded only so much.
-/

namespace Furthest

variable {σ ι α β : Type}

/-- A parser that invokes no other. -/
inductive Primitive : Type → Type → Type 1 where
  | succeed {ι α : Type} (v : α) : Primitive ι α
  | fail {ι α : Type} (label : Bytes) : Primitive ι α
  | position {ι : Type} : Primitive ι Nat
  | eof {ι : Type} : Primitive ι Unit
  | satisfy {ι : Type} (c : ItemClass ι) : Primitive ι ι
  | str (literal : Bytes) : Primitive UInt8 Bytes
  | lineColumn : Primitive UInt8 LineColumn

namespace Primitive

/-- The parser itself. -/
def parser : {ι α : Type} → Primitive ι α → Parser σ ι α
  | _, _, succeed v => Parser.succeed v
  | _, _, fail label => Parser.fail label
  | _, _, position => Parser.position
  | _, _, eof => Parser.eof
  | _, _, satisfy c => Parser.satisfy c
  | _, _, str literal => Parser.str literal
  | _, _, lineColumn => Parser.lineColumn

/-- What is expected where the parser fails. The parsers that never fail expect nothing. -/
def label : {ι α : Type} → Primitive ι α → Bytes
  | _, _, fail label => label
  | _, _, eof => Parser.endLabel
  | _, _, satisfy c => c.label
  | _, _, str literal => literal
  | _, _, _ => []

/-- How an invocation ends: the environment plays no part in it. -/
def ended (l : Primitive ι α) (xs : List ι) (i : Nat) : Except Fault (Result α) :=
  (l.parser xs i).outcome ⟨.ofLevel .off, ()⟩

theorem execute_primitive (l : Primitive ι α) (xs : List ι) (i : Nat) (env : Env σ) :
    (l.parser xs i).execute env = (l.ended xs i, env) := by
  cases l with
  | str literal =>
    simp only [ended, Run.outcome, parser, Parser.str]
    repeat' split
    all_goals rfl
  | _ => rfl

theorem parser_eq_ofExcept (l : Primitive ι α) (xs : List ι) (i : Nat) :
    (l.parser xs i : Run σ (Result α)) = Run.ofExcept (l.ended xs i) :=
  funext fun env => l.execute_primitive xs i env

/-- A primitive parser succeeds within the input and has seen no failure, or fails at the cursor with its
label. Only text that is compared beyond the end is given up. -/
theorem ended_cases (l : Primitive ι α) (xs : List ι) (i : Nat) :
    (∃ v n, l.ended xs i = .ok (.success v n ∅) ∧ i ≤ n ∧ (i ≤ xs.length → n ≤ xs.length)) ∨
      l.ended xs i = .ok (.fail i (.singleton l.label)) ∨
      xs.length < i ∧ l.ended xs i = .error .beyondEnd := by
  cases l with
  | succeed v => exact .inl ⟨v, i, rfl, Nat.le_refl i, id⟩
  | fail label => exact .inr (.inl rfl)
  | position => exact .inl ⟨i, i, rfl, Nat.le_refl i, id⟩
  | lineColumn => exact .inl ⟨_, i, rfl, Nat.le_refl i, id⟩
  | eof =>
    by_cases h : xs.length ≤ i
    · exact .inl ⟨(), i, by simp [ended, Run.outcome, parser, Parser.eof, h], Nat.le_refl i, id⟩
    · exact .inr (.inl (by simp [ended, Run.outcome, parser, Parser.eof, h, label]))
  | satisfy c =>
    rcases hx : xs[i]? with _ | x
    · exact .inr (.inl (by simp [ended, Run.outcome, parser, Parser.satisfy, hx, label]))
    have hi : i < xs.length := (List.getElem?_eq_some_iff.1 hx).1
    by_cases h : c.accepts x
    · exact .inl ⟨x, i + 1, by simp [ended, Run.outcome, parser, Parser.satisfy, hx, h], by omega, fun _ => hi⟩
    · exact .inr (.inl (by simp [ended, Run.outcome, parser, Parser.satisfy, hx, h, label]))
  | str literal =>
    by_cases hi : xs.length < i
    · exact .inr (.inr ⟨hi, by simp [ended, Run.outcome, parser, Parser.str, hi]⟩)
    by_cases h : literal.isPrefixOf (xs.drop i)
    · have hle := (List.isPrefixOf_iff_prefix.1 h).length_le
      rw [List.length_drop] at hle
      exact .inl ⟨literal, i + literal.length, by simp [ended, Run.outcome, parser, Parser.str, hi, h], by omega,
        fun _ => by omega⟩
    · exact .inr (.inl (by simp [ended, Run.outcome, parser, Parser.str, hi, h, label]))

end Primitive

/-- A parser of the library, with the way it was built. -/
inductive Combination (σ ι : Type) : Type → Type 1 where
  | primitive {α : Type} (l : Primitive ι α) : Combination σ ι α
  | giveUp {α : Type} (cause : Fault) : Combination σ ι α
  | andThen {α β : Type} (p : Combination σ ι α) (q : Combination σ ι β) : Combination σ ι β
  | skip {α β : Type} (p : Combination σ ι α) (q : Combination σ ι β) : Combination σ ι α
  | pair {α β : Type} (p : Combination σ ι α) (q : Combination σ ι β) : Combination σ ι (α × β)
  | sequence {α : Type} {n : Nat} (ps : Fin n → Combination σ ι α) : Combination σ ι (List α)
  | alt {α : Type} {n : Nat} (ps : Fin n → Combination σ ι α) : Combination σ ι α
  | times {α : Type} (p : Combination σ ι α) (b : Bounds) : Combination σ ι (List α)
  | sepBy {α β : Type} (p : Combination σ ι α) (sep : Combination σ ι β) (b : Bounds) :
    Combination σ ι (List α)
  | manyUntil {α β : Type} (p : Combination σ ι α) (stop : Combination σ ι β) (b : Bounds) :
    Combination σ ι (List α)
  | tryMap {α β : Type} (p : Combination σ ι α) (f : α → Except Fault β) : Combination σ ι β
  | bind {α β : Type} (p : Combination σ ι α) (f : α → Combination σ ι β) : Combination σ ι β
  | mark {α : Type} (p : Combination σ ι α) : Combination σ ι (Marked α)
  | desc {α : Type} (p : Combination σ ι α) (label : Bytes) : Combination σ ι α
  | shouldFail {α : Type} (p : Combination σ ι α) (label : Bytes) : Combination σ ι Unit
  | peek {α : Type} (p : Combination σ ι α) : Combination σ ι α
  | traced {α : Type} (p : Combination σ ι α) (name : Bytes) : Combination σ ι α
  /-- What is entered is found in the store, or built there, when the parser is invoked. -/
  | deferred {α γ : Type} (found : Run σ γ) (enter : γ → Combination σ ι α) : Combination σ ι α
  /-- What is entered is built for the input and the cursor at hand. -/
  | rule {α : Type} (body : List ι → Nat → Combination σ ι α) : Combination σ ι α

namespace Combination

/-- The parser that was built. -/
def parser : {α : Type} → Combination σ ι α → Parser σ ι α
  | _, primitive l => l.parser
  | _, giveUp cause => Parser.giveUp cause
  | _, andThen p q => p.parser.andThen q.parser
  | _, skip p q => p.parser.skip q.parser
  | _, pair p q => p.parser.pair q.parser
  | _, sequence ps => Parser.sequence ((List.finRange _).map fun k => (ps k).parser)
  | _, alt ps => Parser.alt ((List.finRange _).map fun k => (ps k).parser)
  | _, times p b => p.parser.times b
  | _, sepBy p sep b => p.parser.sepBy sep.parser b
  | _, manyUntil p stop b => p.parser.manyUntil stop.parser b
  | _, tryMap p f => p.parser.tryMap f
  | _, bind p f => p.parser.bind fun v => (f v).parser
  | _, mark p => p.parser.mark
  | _, desc p label => p.parser.desc label
  | _, shouldFail p label => p.parser.shouldFail label
  | _, peek p => p.parser.peek
  | _, traced p name => p.parser.traced name
  | _, deferred found enter => fun xs i => do (enter (← found)).parser xs i
  | _, rule body => fun xs i => (body xs i).parser xs i

/-- A list of combinations by its indexes. -/
theorem map_finRange_eq (es : List (Combination σ ι α)) :
    (List.finRange es.length).map (fun k => (es.get k).parser) = es.map parser := by
  show (List.finRange es.length).map (parser ∘ es.get) = _
  rw [← List.map_map, List.map_get_finRange]

/-- Whatever is deferred is found by runs of a class. -/
def Finds (F : {γ : Type} → Run σ γ → Prop) : {α : Type} → Combination σ ι α → Prop
  | _, primitive _ | _, giveUp _ => True
  | _, andThen p q | _, skip p q | _, pair p q => p.Finds F ∧ q.Finds F
  | _, sequence ps | _, alt ps => ∀ k, (ps k).Finds F
  | _, times p _ => p.Finds F
  | _, sepBy p sep _ => p.Finds F ∧ sep.Finds F
  | _, manyUntil p stop _ => p.Finds F ∧ stop.Finds F
  | _, tryMap p _ => p.Finds F
  | _, bind p f => p.Finds F ∧ ∀ v, (f v).Finds F
  | _, mark p | _, desc p _ | _, shouldFail p _ | _, peek p | _, traced p _ => p.Finds F
  | _, deferred found enter => F found ∧ ∀ v, (enter v).Finds F
  | _, rule body => ∀ xs i, (body xs i).Finds F

end Combination

end Furthest
