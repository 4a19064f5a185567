import Mathlib.Data.List.FinRange
import Furthest.Proofs.CursorBounds
import Furthest.Proofs.Notes

/-!
# Failures have an index

`Result.Obtainable` has the outcomes that the operations on outcomes make: their failures have an index, which can
only be raised. An `Assembly` is a parser that is combined of callables of any kind; all that is asked of a callable
is that what it ends with is obtainable. The type of an assembly has the causes with which its callables may be given
up, and `Assembly.noting` runs it and notes the cause with which one is. `Run.Blames` has that a run that is given up
was given up by a callable, and that what it ends with is obtainable: no combinator makes a failure of a record without
an index, or asks for an index that is missing.

Main statement: `failures_keep_index`.
-/

namespace Furthest

variable {σ ι α β γ : Type}

/-! ## Outcomes that can be made -/

namespace Result

/-- An outcome that the operations on outcomes make, in any number and order. -/
inductive Obtainable : {α : Type} → Result α → Prop
  | success {α : Type} (v : α) (next : Nat) (r : Record) : Obtainable (.success v next r)
  | fail {α : Type} (index : Nat) (labels : Labels) : Obtainable (.fail index labels : Result α)
  | ofRecord {α : Type} {r : Record} {o : Result α} (h : ofRecord r = .ok o) : Obtainable o
  | aggregate {α : Type} {o : Result α} (h : Obtainable o) (other : Record) : Obtainable (o.aggregate other)
  | failedAs {α β : Type} {o : Result α} {o' : Result β} (h : Obtainable o) (ho : o.failedAs = .ok o') : Obtainable o'

/-- A failure that is made of a record has the index of the record. -/
theorem isEngaged_of_ofRecord {r : Record} {o : Result α} (h : ofRecord r = .ok o) : o.furthest.isEngaged := by
  obtain ⟨k, hk, rfl⟩ := ofRecord_eq_ok_iff.1 h
  exact Record.isEngaged_iff.2 ⟨k, hk⟩

namespace Obtainable

/-- A failure that can be made has an index. -/
theorem isEngaged {o : Result α} (h : o.Obtainable) : o.isSuccess ∨ o.furthest.isEngaged := by
  induction h with
  | success v next r => exact .inl rfl
  | fail index labels => exact .inr rfl
  | ofRecord h => exact .inr (isEngaged_of_ofRecord h)
  | aggregate _ other ih =>
    rw [isSuccess_aggregate, furthest_aggregate, Record.isEngaged_merge, Bool.or_eq_true]
    exact ih.imp_right .inl
  | failedAs _ ho => exact .inr (isEngaged_of_ofRecord ho)

theorem index_of_failure {c : Nat} {r : Record} (h : (failure c r : Result α).Obtainable) : ∃ k, r.index = some k :=
  Record.isEngaged_iff.1 (h.isEngaged.resolve_left nofun)

theorem map {o : Result α} (h : o.Obtainable) (f : α → β) : (o.map f).Obtainable := by
  have made {α β : Type} {r : Record} {o : Result α} (h : Result.ofRecord r = .ok o) (f : α → β) :
      (o.map f).Obtainable := by
    obtain ⟨k, hk, rfl⟩ := ofRecord_eq_ok_iff.1 h
    exact .ofRecord (r := r) (ofRecord_eq_ok_iff.2 ⟨k, hk, rfl⟩)
  induction h with
  | success v next r => exact .success (f v) next r
  | fail index labels => exact .fail index labels
  | ofRecord h => exact made h f
  | @aggregate _ o _ other ih =>
    have hmap : (o.aggregate other).map f = (o.map f).aggregate other := by cases o <;> rfl
    exact hmap ▸ (ih f).aggregate other
  | failedAs _ ho => exact made ho f

end Obtainable

/-- Another record can only raise the index of an outcome. -/
theorem index_aggregate {o : Result α} {k : Nat} (h : o.index = .ok k) (other : Record) :
    ∃ k', (o.aggregate other).index = .ok k' ∧ k ≤ k' := by
  have hk : o.furthest.index = some k := by
    unfold index at h
    split at h <;> cases h
    assumption
  rw [index, furthest_aggregate, Record.index_merge, hk]
  cases other.index with
  | none => exact ⟨k, rfl, Nat.le_refl k⟩
  | some j => exact ⟨max k j, rfl, Nat.le_max_left k j⟩

end Result

open Result (Obtainable)

/-! ## Parsers of callables -/

/-- What is ended with satisfies a condition, and the cause of giving up is one of those that are allowed. -/
def Fault.Ends (causes : Fault → Prop) (holds : α → Prop) : Except Fault α → Prop
  | .ok v => holds v
  | .error cause => causes cause

/-- Whatever the parser ends with is obtainable. It may be given up with some causes alone. -/
def Parser.Genuine (causes : Fault → Prop) (p : Parser σ ι α) : Prop :=
  ∀ xs i env, Fault.Ends causes Obtainable ((p xs i).outcome env)

theorem Primitive.genuine (l : Primitive ι α) : (l.parser : Parser σ ι α).Genuine (· = .beyondEnd) :=
  fun xs i env => by
    rw [Run.outcome, l.execute_primitive]
    rcases l.ended_cases xs i with ⟨v, n, h, -⟩ | h | ⟨-, h⟩ <;> rw [h]
    · exact .success v n ∅
    · exact .fail i _
    · rfl

/-- A parser that is combined of callables, which may be given up with some causes. -/
inductive Assembly (σ ι : Type) (causes : Fault → Prop) : Type → Type 1 where
  | callable {α : Type} (p : Parser σ ι α) (h : p.Genuine causes) : Assembly σ ι causes α
  | andThen {α β : Type} (p : Assembly σ ι causes α) (q : Assembly σ ι causes β) : Assembly σ ι causes β
  | skip {α β : Type} (p : Assembly σ ι causes α) (q : Assembly σ ι causes β) : Assembly σ ι causes α
  | pair {α β : Type} (p : Assembly σ ι causes α) (q : Assembly σ ι causes β) : Assembly σ ι causes (α × β)
  | sequence {α : Type} {n : Nat} (ps : Fin n → Assembly σ ι causes α) : Assembly σ ι causes (List α)
  | alt {α : Type} {n : Nat} (ps : Fin n → Assembly σ ι causes α) : Assembly σ ι causes α
  | times {α : Type} (p : Assembly σ ι causes α) (b : Bounds) : Assembly σ ι causes (List α)
  | sepBy {α β : Type} (p : Assembly σ ι causes α) (sep : Assembly σ ι causes β) (b : Bounds) :
    Assembly σ ι causes (List α)
  | manyUntil {α β : Type} (p : Assembly σ ι causes α) (stop : Assembly σ ι causes β) (b : Bounds) :
    Assembly σ ι causes (List α)
  | tryMap {α β : Type} (p : Assembly σ ι causes α) (f : α → Except Fault β)
      (h : ∀ v, Fault.Ends causes (fun _ => True) (f v)) : Assembly σ ι causes β
  | bind {α β : Type} (p : Assembly σ ι causes α) (f : α → Assembly σ ι causes β) : Assembly σ ι causes β
  | mark {α : Type} (p : Assembly σ ι causes α) : Assembly σ ι causes (Marked α)
  | desc {α : Type} (p : Assembly σ ι causes α) (label : Bytes) : Assembly σ ι causes α
  | shouldFail {α : Type} (p : Assembly σ ι causes α) (label : Bytes) : Assembly σ ι causes Unit
  | peek {α : Type} (p : Assembly σ ι causes α) : Assembly σ ι causes α
  | traced {α : Type} (p : Assembly σ ι causes α) (name : Bytes) : Assembly σ ι causes α
  /-- What is entered is found in the store, or built there, when the parser is invoked. -/
  | deferred {α γ : Type} (found : Run σ γ) (h : ∀ env, Fault.Ends causes (fun _ => True) (found.outcome env))
      (enter : γ → Assembly σ ι causes α) : Assembly σ ι causes α
  /-- What is entered is built for the input and the cursor at hand. -/
  | rule {α : Type} (body : List ι → Nat → Assembly σ ι causes α) : Assembly σ ι causes α

/-- Runs a computation, and notes the cause if it is given up. -/
def Run.blamed (x : Run σ α) : Run (Noted Fault σ) α := x.unnoted.notingFault id

/-- Changes the value by a function that may decline it, and notes the cause if it does. -/
def Parser.tryMapBlamed (p : Parser (Noted Fault σ) ι α) (f : α → Except Fault β) : Parser (Noted Fault σ) ι β :=
  fun xs i => do (← p xs i).proceed fun v next r => return .success (← (Run.ofExcept (f v)).blamed) next r

variable {causes : Fault → Prop}

namespace Assembly

/-- The parser that was built. -/
def parser : {α : Type} → Assembly σ ι causes α → Parser σ ι α
  | _, callable p _ => p
  | _, andThen p q => p.parser.andThen q.parser
  | _, skip p q => p.parser.skip q.parser
  | _, pair p q => p.parser.pair q.parser
  | _, sequence ps => Parser.sequence ((List.finRange _).map fun k => (ps k).parser)
  | _, alt ps => Parser.alt ((List.finRange _).map fun k => (ps k).parser)
  | _, times p b => p.parser.times b
  | _, sepBy p sep b => p.parser.sepBy sep.parser b
  | _, manyUntil p stop b => p.parser.manyUntil stop.parser b
  | _, tryMap p f _ => p.parser.tryMap f
  | _, bind p f => p.parser.bind fun v => (f v).parser
  | _, mark p => p.parser.mark
  | _, desc p label => p.parser.desc label
  | _, shouldFail p label => p.parser.shouldFail label
  | _, peek p => p.parser.peek
  | _, traced p name => p.parser.traced name
  | _, deferred found _ enter => fun xs i => do (enter (← found)).parser xs i
  | _, rule body => fun xs i => (body xs i).parser xs i

/-- The parser that was built, noting the cause with which a callable is given up. The combinators are those of the
library, and note nothing. -/
def noting : {α : Type} → Assembly σ ι causes α → Parser (Noted Fault σ) ι α
  | _, callable p _ => fun xs i => (p xs i).blamed
  | _, andThen p q => p.noting.andThen q.noting
  | _, skip p q => p.noting.skip q.noting
  | _, pair p q => p.noting.pair q.noting
  | _, sequence ps => Parser.sequence ((List.finRange _).map fun k => (ps k).noting)
  | _, alt ps => Parser.alt ((List.finRange _).map fun k => (ps k).noting)
  | _, times p b => p.noting.times b
  | _, sepBy p sep b => p.noting.sepBy sep.noting b
  | _, manyUntil p stop b => p.noting.manyUntil stop.noting b
  | _, tryMap p f _ => p.noting.tryMapBlamed f
  | _, bind p f => p.noting.bind fun v => (f v).noting
  | _, mark p => p.noting.mark
  | _, desc p label => p.noting.desc label
  | _, shouldFail p label => p.noting.shouldFail label
  | _, peek p => p.noting.peek
  | _, traced p name => p.noting.traced name
  | _, deferred found _ enter => fun xs i => do (enter (← found.blamed)).noting xs i
  | _, rule body => fun xs i => (body xs i).noting xs i

end Assembly

/-! ## Runs that are given up by callables -/

/-- The cause with which a computation was given up, if it was. -/
def Fault.ofEnded : Except Fault α → List Fault
  | .ok _ => []
  | .error cause => [cause]

/-- The second run does what the first does, and a callable notes the cause if it is given up, which is one that is
allowed. A value that they end with satisfies a condition. -/
def Run.Blames (causes : Fault → Prop) (x : Run σ α) (x' : Run (Noted Fault σ) α) (holds : α → Prop) : Prop :=
  ∀ env notes,
    x'.execute (env.noting notes) =
        ((x.execute env).1, (x.execute env).2.noting (notes ++ Fault.ofEnded (x.execute env).1)) ∧
      Fault.Ends causes holds (x.execute env).1

/-- The invocations of the second parser do what those of the first do, and are given up by callables alone. -/
def Parser.Blames (causes : Fault → Prop) (p : Parser σ ι α) (p' : Parser (Noted Fault σ) ι α) : Prop :=
  ∀ xs i, Run.Blames causes (p xs i) (p' xs i) Obtainable

namespace Run.Blames

variable {x : Run σ α} {x' : Run (Noted Fault σ) α} {f : α → Run σ β} {f' : α → Run (Noted Fault σ) β}
variable {holds : α → Prop} {after : β → Prop}

theorem pure {v : α} (h : holds v) : Run.Blames causes (Pure.pure v : Run σ α) (Pure.pure v) holds :=
  fun env notes => ⟨by simp [Fault.ofEnded], h⟩

theorem blamed (h : ∀ env, Fault.Ends causes holds (x.outcome env)) : Run.Blames causes x x.blamed holds :=
  fun env notes => by
    refine ⟨?_, h env⟩
    rw [Run.blamed, execute_notingFault, execute_unnoted]
    rcases x.execute env with ⟨cause | v, env'⟩
    · rfl
    · simp [Fault.ofEnded]

theorem bind (hx : Run.Blames causes x x' holds) (hf : ∀ v, holds v → Run.Blames causes (f v) (f' v) after) :
    Run.Blames causes (x >>= f) (x' >>= f') after := fun env notes => by
  obtain ⟨hrun, hends⟩ := hx env notes
  simp only [execute_bind, hrun]
  rcases hended : x.execute env with ⟨cause | v, env'⟩ <;> rw [hended] at hends
  · exact ⟨rfl, hends⟩
  · simpa only [Fault.ofEnded, List.append_nil] using hf v hends env' notes

theorem record (e : Entry) : Run.Blames causes (Run.record e : Run σ Unit) (Run.record e) fun _ => True :=
  fun env notes => ⟨by simp [Env.noting, Fault.ofEnded], trivial⟩

/-- A failure is made of a record that has an index. -/
theorem ofRecord {r : Record} (h : r.isEngaged) :
    Run.Blames causes (Run.ofExcept (Result.ofRecord r) : Run σ (Result α)) (Run.ofExcept (Result.ofRecord r))
      Obtainable := by
  obtain ⟨k, hk⟩ := Record.isEngaged_iff.1 h
  have hmade : Result.ofRecord r = .ok (.failure k r : Result α) := Result.ofRecord_eq_ok_iff.2 ⟨k, hk, rfl⟩
  rw [hmade]
  exact .pure (.ofRecord hmade)

theorem proceed {o : Result α} {f : α → Nat → Record → Run σ (Result β)}
    {f' : α → Nat → Record → Run (Noted Fault σ) (Result β)} (ho : o.Obtainable)
    (hf : ∀ v n r, Run.Blames causes (f v n r) (f' v n r) Obtainable) :
    Run.Blames causes (o.proceed f) (o.proceed f') Obtainable := by
  cases o with
  | success v n r => exact hf v n r
  | failure c r => exact .ofRecord (ho.isEngaged.resolve_left nofun)

end Run.Blames

namespace Parser.Blames

variable {p : Parser σ ι α} {p' : Parser (Noted Fault σ) ι α} {q : Parser σ ι β} {q' : Parser (Noted Fault σ) ι β}

theorem andThen (hp : p.Blames causes p') (hq : q.Blames causes q') :
    (p.andThen q).Blames causes (p'.andThen q') := fun xs i =>
  .bind (hp xs i) fun _ ho => .proceed ho fun _ n _ => .bind (hq xs n) fun _ ho' => .pure (ho'.aggregate _)

theorem skip (hp : p.Blames causes p') (hq : q.Blames causes q') : (p.skip q).Blames causes (p'.skip q') := fun xs i =>
  .bind (hp xs i) fun o ho => by
    cases o with
    | failure c r => exact .pure ho
    | success v n r =>
      exact .bind (hq xs n) fun _ ho' => .proceed (ho'.aggregate r) fun _ m f => .pure (.success v m f)

theorem pair (hp : p.Blames causes p') (hq : q.Blames causes q') : (p.pair q).Blames causes (p'.pair q') := fun xs i =>
  .bind (hp xs i) fun _ ho => .proceed ho fun v n r => .bind (hq xs n) fun _ ho' =>
    .proceed (ho'.aggregate r) fun w m f => .pure (.success (v, w) m f)

theorem tryMap {f : α → Except Fault β} (hp : p.Blames causes p') (hf : ∀ v, Fault.Ends causes (fun _ => True) (f v)) :
    (p.tryMap f).Blames causes (p'.tryMapBlamed f) := fun xs i =>
  .bind (hp xs i) fun _ ho => .proceed ho fun v n r =>
    .bind (.blamed fun _ => hf v) fun w _ => .pure (.success w n r)

theorem bind {f : α → Parser σ ι β} {f' : α → Parser (Noted Fault σ) ι β} (hp : p.Blames causes p')
    (hf : ∀ v, (f v).Blames causes (f' v)) : (p.bind f).Blames causes (p'.bind f') := fun xs i =>
  .bind (hp xs i) fun _ ho => .proceed ho fun v n _ => .bind (hf v xs n) fun _ ho' => .pure (ho'.aggregate _)

theorem mark (hp : p.Blames causes p') : p.mark.Blames causes p'.mark := fun xs i =>
  .bind (hp xs i) fun _ ho => .proceed ho fun v n r => .pure (.success (Marked.mk i v n) n r)

theorem desc (hp : p.Blames causes p') (label : Bytes) : (p.desc label).Blames causes (p'.desc label) := fun xs i =>
  .bind (hp xs i) fun o ho => by
    cases o with
    | success v n r => exact .pure ho
    | failure c r => exact .pure (.fail i _)

theorem shouldFail (hp : p.Blames causes p') (label : Bytes) :
    (p.shouldFail label).Blames causes (p'.shouldFail label) :=
  fun xs i => .bind (hp xs i) fun o _ => by
    cases o with
    | success v n r => exact .pure (.fail i _)
    | failure c r => exact .pure (.success () i ∅)

theorem peek (hp : p.Blames causes p') : p.peek.Blames causes p'.peek := fun xs i =>
  .bind (hp xs i) fun o ho => by
    cases o with
    | success v n r => exact .pure (.success v i r)
    | failure c r => exact .pure ho

/-- The entry for a failed attempt asks for an index, which is there. -/
theorem traced (hp : p.Blames causes p') (name : Bytes) : (p.traced name).Blames causes (p'.traced name) := fun xs i =>
  .bind (.record _) fun _ _ => .bind (hp xs i) fun o ho => by
    obtain ⟨entry, hentry⟩ := exists_outcomeEntry ho.isEngaged name i
    rw [hentry]
    show Run.Blames causes (Run.record entry >>= fun _ => Pure.pure o) (Run.record entry >>= fun _ => Pure.pure o) _
    exact .bind (.record entry) fun _ _ => .pure ho

/-! ## Lists of parsers -/

variable {xs : List ι} {κ : Type} {ps : κ → Parser σ ι α} {ps' : κ → Parser (Noted Fault σ) ι α}

theorem sequenceFrom (hp : ∀ k, (ps k).Blames causes (ps' k)) (ks : List κ) (i : Nat) (r : Record) :
    (Parser.sequenceFrom xs (ks.map ps) i r).Blames causes (Parser.sequenceFrom xs (ks.map ps') i r) Obtainable := by
  induction ks generalizing i r with
  | nil => exact .pure (.success [] i r)
  | cons k ks ih =>
    exact .bind (hp k xs i) fun _ ho => .proceed (ho.aggregate r) fun v n f =>
      .bind (ih n f) fun _ ho' => .pure (ho'.map _)

theorem sequence (hp : ∀ k, (ps k).Blames causes (ps' k)) (ks : List κ) :
    (Parser.sequence (ks.map ps)).Blames causes (Parser.sequence (ks.map ps')) := fun _ i => sequenceFrom hp ks i ∅

/-- Where all parsers of a choice failed, their failures were seen, unless there was none. -/
theorem altFrom (hp : ∀ k, (ps k).Blames causes (ps' k)) (ks : List κ) (i : Nat) (r : Record) :
    (Parser.altFrom xs i (ks.map ps) r).Blames causes (Parser.altFrom xs i (ks.map ps') r) Obtainable := by
  induction ks generalizing r with
  | nil =>
    simp only [List.map_nil, Parser.altFrom]
    split
    · next he => exact .ofRecord he
    · exact .pure (.fail i ∅)
  | cons k ks ih =>
    refine .bind (hp k xs i) fun o ho => ?_
    cases o with
    | success v n f => exact .pure (.success v n (f.merge r))
    | failure c f => exact ih (f.merge r)

theorem alt (hp : ∀ k, (ps k).Blames causes (ps' k)) (ks : List κ) :
    (Parser.alt (ks.map ps)).Blames causes (Parser.alt (ks.map ps')) := fun _ i => altFrom hp ks i ∅

/-! ## Repetition -/

theorem timesFrom (hp : p.Blames causes p') (isOpen : Bool) (remaining needed i : Nat) (r : Record) :
    (p.timesFrom isOpen xs remaining needed i r).Blames causes (p'.timesFrom isOpen xs remaining needed i r)
      Obtainable := by
  induction remaining generalizing needed i r with
  | zero => exact .pure (.success [] i r)
  | succ remaining ih =>
    refine .bind (hp xs i) fun o ho => ?_
    cases o with
    | failure c f =>
      simp only [Result.aggregate]
      split
      · exact .pure (.success [] i (f.merge r))
      · obtain ⟨k, hk⟩ := ho.index_of_failure
        exact .ofRecord (by simp [Record.isEngaged_iff.2 ⟨k, hk⟩])
    | success v n f =>
      simp only [Result.aggregate]
      split
      · exact .pure (.success [v] n (f.merge r))
      · exact .bind (ih _ n _) fun _ ho' => .pure (ho'.map _)

theorem times (hp : p.Blames causes p') (b : Bounds) : (p.times b).Blames causes (p'.times b) := fun _ i =>
  timesFrom hp _ _ _ i ∅

theorem consFrom {rest : Parser σ ι (List α)} {rest' : Parser (Noted Fault σ) ι (List α)} (hp : p.Blames causes p')
    (hrest : rest.Blames causes rest') : (p.consFrom rest).Blames causes (p'.consFrom rest') := fun xs i =>
  .bind (hp xs i) fun _ ho => .proceed ho fun _ n r =>
    .bind (hrest xs n) fun _ ho' => .pure ((ho'.aggregate r).map _)

theorem sepBy (hp : p.Blames causes p') (hq : q.Blames causes q') (b : Bounds) :
    (p.sepBy q b).Blames causes (p'.sepBy q' b) := by
  have values := hp.consFrom ((hq.andThen hp).times b.pred)
  by_cases hmax : b.max = 0
  · rw [Parser.sepBy_of_max_eq_zero hmax, Parser.sepBy_of_max_eq_zero hmax]
    exact fun _ i => .pure (.success [] i ∅)
  by_cases hmin : 0 < b.min
  · rw [Parser.sepBy_of_min_pos hmin, Parser.sepBy_of_min_pos hmin]
    exact values
  rw [Parser.sepBy_of_min_eq_zero hmax (Nat.eq_zero_of_not_pos hmin),
    Parser.sepBy_of_min_eq_zero hmax (Nat.eq_zero_of_not_pos hmin)]
  refine fun xs i => .bind (values xs i) fun o ho => ?_
  cases o with
  | success vs n r => exact .pure ho
  | failure c r => exact .pure (.success [] i r)

theorem manyUntilFrom (hp : p.Blames causes p') (hq : q.Blames causes q') (isOpen : Bool)
    (remaining needed i : Nat) (r : Record) :
    (p.manyUntilFrom q isOpen xs remaining needed i r).Blames causes
      (p'.manyUntilFrom q' isOpen xs remaining needed i r) Obtainable := by
  induction remaining generalizing needed i r with
  | zero => exact .pure (.success [] i r)
  | succ remaining ih =>
    refine .bind (hq xs i) fun stopped hstopped => ?_
    simp only [Result.isSuccess_aggregate, Result.furthest_aggregate]
    split
    · exact .pure (.success [] i _)
    -- Where the repetition is given up early, the parser that stops it failed, and that failure was seen.
    have hseen (h : stopped.isSuccess = false) : (stopped.furthest.merge r).isEngaged := by
      have := hstopped.isEngaged.resolve_left (by simp [h])
      simp [this]
    refine .bind (hp xs i) fun o ho => ?_
    cases o with
    | failure c f =>
      obtain ⟨k, hk⟩ := ho.index_of_failure
      exact .ofRecord (by simp [Record.isEngaged_iff.2 ⟨k, hk⟩])
    | success v n f =>
      show Run.Blames causes (ite _ _ _) (ite _ _ _) _
      split
      · next h => exact .ofRecord (by simp only [Record.isEngaged_merge f, hseen h.2.1, Bool.or_true])
      · exact .bind (ih _ n _) fun _ ho' => .pure (ho'.map _)

theorem manyUntil (hp : p.Blames causes p') (hq : q.Blames causes q') (b : Bounds) :
    (p.manyUntil q b).Blames causes (p'.manyUntil q' b) := fun _ i => manyUntilFrom hp hq _ _ _ i ∅

end Parser.Blames

/-- A parser that is combined of callables is given up by a callable alone. -/
theorem Assembly.blames (e : Assembly σ ι causes α) : e.parser.Blames causes e.noting := by
  induction e with
  | callable p h => exact fun xs i => .blamed (h xs i)
  | andThen p q hp hq => exact hp.andThen hq
  | skip p q hp hq => exact hp.skip hq
  | pair p q hp hq => exact hp.pair hq
  | sequence ps hp => exact .sequence hp _
  | alt ps hp => exact .alt hp _
  | times p b hp => exact hp.times b
  | sepBy p sep b hp hsep => exact hp.sepBy hsep b
  | manyUntil p stop b hp hstop => exact hp.manyUntil hstop b
  | tryMap p f hf hp => exact hp.tryMap hf
  | bind p f hp hf => exact hp.bind hf
  | mark p hp => exact hp.mark
  | desc p label hp => exact hp.desc label
  | shouldFail p label hp => exact hp.shouldFail label
  | peek p hp => exact hp.peek
  | traced p name hp => exact hp.traced name
  | deferred found hfound enter hp => exact fun xs i => .bind (.blamed hfound) fun v _ => hp v xs i
  | rule body hp => exact fun xs i => hp xs i xs i

/-- An entry point goes on from the outcome at the beginning by a function alone. -/
theorem Parser.Blames.enter {p : Parser σ ι α} {p' : Parser (Noted Fault σ) ι α} (hp : p.Blames causes p')
    (xs : List ι) (f : Result α → β) :
    Run.Blames causes (do return f (← p xs 0)) (do return f (← p' xs 0)) fun _ => True :=
  .bind (hp xs 0) fun _ _ => .pure trivial

/-! ## Main statement -/

/-- No failure lacks its index: a failure that the operations on outcomes make has one, so that it can be handed on as
an outcome of any type, and no other record lowers it.

The outcomes of primitive parsers are of that kind. If those of callables are, then so are those of every parser that
is combined of them, and every invocation, on any input and at any cursor, that is given up was given up by a callable,
which is where the cause is noted. So it is for the entry points. No combinator makes a failure of a record without an
index or asks for an index that is missing, and neither is done in an invocation if callables do not. -/
theorem failures_keep_index [Item ι] :
    (∀ {α : Type} (o : Result α), o.Obtainable →
      (o.isSuccess = false → o.furthest.isEngaged ∧ ∃ k, o.index = .ok k ∧
        ∀ β : Type, (o.failedAs : Except Fault (Result β)) = .ok (.failure k o.furthest)) ∧
      ∀ k other, o.index = .ok k → ∃ k', (o.aggregate other).index = .ok k' ∧ k ≤ k') ∧
    (∀ {α : Type} (l : Primitive ι α), (l.parser : Parser σ ι α).Genuine (· = .beyondEnd)) ∧
    ∀ {α : Type} {causes : Fault → Prop} (e : Assembly σ ι causes α) (xs : List ι),
      (∀ i, (e.parser xs i).Blames causes (e.noting xs i) Obtainable) ∧
      ((e.parser.parse xs).Blames causes (e.noting.parse xs) fun _ => True) ∧
      ((e.parser.parsePartial xs).Blames causes (e.noting.parsePartial xs) fun _ => True) ∧
      ∀ cause ∈ [Fault.failureWithoutIndex, .missingIndex], ¬causes cause → ∀ env,
        (∀ i, (e.parser xs i).outcome env ≠ .error cause) ∧ (e.parser.parse xs).outcome env ≠ .error cause ∧
          (e.parser.parsePartial xs).outcome env ≠ .error cause := by
  refine ⟨fun o ho => ⟨fun hfailed => ?_, fun k other hk => Result.index_aggregate hk other⟩, Primitive.genuine,
    fun {α causes} e xs => ?_⟩
  · have he : o.furthest.isEngaged := ho.isEngaged.resolve_left (by simp [hfailed])
    obtain ⟨k, hk⟩ := Record.isEngaged_iff.1 he
    exact ⟨he, k, by simp [Result.index, hk], fun β => Result.ofRecord_eq_ok_iff.2 ⟨k, hk, rfl⟩⟩
  · have whole := e.blames.enter xs (Parser.wholeOf xs)
    have part := e.blames.enter xs (Parser.partOf xs)
    rw [← Parser.parse_eq, ← Parser.parse_eq] at whole
    rw [← Parser.parsePartial_eq, ← Parser.parsePartial_eq] at part
    have spares {β : Type} {x : Run σ β} {x' : Run (Noted Fault σ) β} {holds : β → Prop} {cause : Fault}
        (h : x.Blames causes x' holds) (hc : ¬causes cause) (env : Env σ) : x.outcome env ≠ .error cause :=
      fun hx => by
        obtain ⟨-, hends⟩ := h env []
        rw [show (x.execute env).1 = .error cause from hx] at hends
        exact hc hends
    exact ⟨fun i => e.blames xs i, whole, part, fun cause _ hc env =>
      ⟨fun i => spares (e.blames xs i) hc env, spares whole hc env, spares part hc env⟩⟩

/-- The only alternative gives up early, beyond the end of the input, where its part consumes nothing and what stops it
fails. That failure was seen, so that its index can be traced. -/
theorem failures_keep_index_of_zero_width :
    let body : Assembly Unit UInt8 (· = .beyondEnd) Unit := .callable _ (Primitive.succeed ()).genuine
    let stop : Assembly Unit UInt8 (· = .beyondEnd) Unit := .callable _ (Primitive.fail (ascii "stop")).genuine
    let e : Assembly Unit UInt8 (· = .beyondEnd) (List Unit) :=
      .traced (.alt (n := 1) fun _ => body.manyUntil stop .any) (ascii "loop")
    let o : Result (List Unit) := .failure 5 (.raised 5 (.singleton (ascii "stop")))
    let env : Env Unit := ⟨.ofLevel .trace, ()⟩
    (e.parser [] 5).outcome env = .ok o ∧ o.Obtainable ∧
      (∃ k, o.index = .ok k ∧ (o.failedAs : Except Fault (Result Nat)) = .ok (.failure k o.furthest)) ∧
      (e.parser [] 5).outcome env ≠ .error .failureWithoutIndex := by
  intro body stop e o env
  have hrun : (e.parser [] 5).outcome env = .ok o := by decide
  obtain ⟨failures, -, runs⟩ := @failures_keep_index Unit UInt8 _
  obtain ⟨invocations, -, -, never⟩ := runs e []
  obtain ⟨-, ho⟩ := invocations 5 env []
  rw [show ((e.parser [] 5).execute env).1 = .ok o from hrun] at ho
  obtain ⟨-, k, hk, hfailed⟩ := (failures o ho).1 rfl
  exact ⟨hrun, ho, ⟨k, hk, hfailed Nat⟩, (never _ (by simp) (by decide) env).1 5⟩

end Furthest
