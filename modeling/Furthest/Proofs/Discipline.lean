import Furthest.Proofs.Observation

/-!
# Disciplines

A `Discipline` is a condition on invocations, on what is noted of them and on how they end, that is kept by
primitive parsers and composed as combinators compose invocations: one follows another, a failure is absorbed
or named, what was consumed is given back. Main statement: `Combination.guides`, which has that every
parser of the library keeps every discipline. What holds of all invocations is proved by giving a discipline.
-/

namespace Furthest

variable {σ ι α β γ : Type}

namespace Parser

/-- The entry for the end of an attempt is there: a failure that has seen a failure has an index. -/
theorem exists_outcomeEntry {o : Result α} (h : o.isSuccess ∨ o.furthest.isEngaged) (name : Bytes) (i : Nat) :
    ∃ entry, outcomeEntry name i o = .ok entry := by
  cases o with
  | success v n r => exact ⟨_, rfl⟩
  | failure c r =>
    obtain ⟨k, hk⟩ := Record.isEngaged_iff.1 (h.resolve_left nofun)
    have hk : r.index = some k := hk
    exact ⟨.failed name i k r.labels, by simp [outcomeEntry, Result.index, Result.furthest, hk]; rfl⟩

/-! ## The cases of a separated repetition -/

variable {p : Parser σ ι α} {sep : Parser σ ι β} {b : Bounds}

theorem sepBy_of_max_eq_zero (h : b.max = 0) : p.sepBy sep b = succeed [] := if_pos h

theorem sepBy_of_min_pos (h : 0 < b.min) : p.sepBy sep b = p.consFrom ((sep.andThen p).times b.pred) :=
  have := b.min_le_max
  (if_neg (by omega)).trans (if_pos h)

theorem sepBy_of_min_eq_zero (hmax : b.max ≠ 0) (hmin : b.min = 0) :
    p.sepBy sep b = fun xs i => do
      match ← p.consFrom ((sep.andThen p).times b.pred) xs i with
      | .success vs next r => return .success vs next r
      | .failure _ r => return .success [] i r :=
  (if_neg hmax).trans (if_neg (by omega))

end Parser

/-! ## Disciplines -/

/-- A condition on invocations on an input: on the cursor, what is noted and the ending. It holds of the
primitive parsers, and of invocations that are composed of others. -/
structure Discipline (xs : List ι) where
  holds : Nat → List Event → Ending → Prop
  engaged {i : Nat} {l : List Event} {r : Record} : holds i l (.failed r) → r.isEngaged
  leaf {α : Type} (p : Primitive ι α) (i : Nat) :
    holds i [.leaf i p.label (.of (p.ended xs i))] (.of (p.ended xs i))
  idle (i : Nat) : holds i [] (.matched i ∅)
  /-- A success is declined by a function that is applied to its value. -/
  declined {i n : Nat} {l : List Event} {r : Record} {cause : Fault} :
    holds i l (.matched n r) → holds i l (.gaveUp cause)
  /-- A second invocation follows a success where that ended. -/
  next {i n : Nat} {l l' : List Event} {r : Record} {e : Ending} :
    holds i l (.matched n r) → holds n l' e → holds i (l ++ l') (e.aggregate r)
  /-- A failure is absorbed. -/
  absorb {i : Nat} {l : List Event} {r : Record} : holds i l (.failed r) → holds i l (.matched i r)
  /-- What a success consumed is given back. -/
  back {i n : Nat} {l : List Event} {r : Record} : holds i l (.matched n r) → holds i l (.matched i r)
  /-- A success is turned into the failure that was seen on the way. -/
  refuse {i n : Nat} {l : List Event} {r : Record} :
    holds i l (.matched n r) → r.isEngaged → holds i l (.failed r)
  emptyChoice (i : Nat) : holds i [.emptyChoice i] (.failed (.raised i ∅))
  desc {i : Nat} {l : List Event} {e : Ending} (label : Bytes) :
    holds i l e → holds i [.desc i label (e.named i label) l] (e.named i label)
  shouldFail {i : Nat} {l : List Event} {e : Ending} (label : Bytes) :
    holds i l e → holds i [.shouldFail i label (e.negated i label) l] (e.negated i label)

namespace Discipline

variable {xs : List ι} (D : Discipline xs) {i i₀ n : Nat} {l : List Event} {r : Record}

theorem giveUp (i : Nat) (cause : Fault) : D.holds i [] (.gaveUp cause) := D.declined (D.idle i)

/-- A success goes on with a failure absorbed where it ended. -/
theorem next_absorb {l' : List Event} {r' : Record} (h : D.holds i l (.matched n r))
    (h' : D.holds n l' (.failed r')) : D.holds i (l ++ l') (.matched n (r'.merge r)) :=
  D.next h (D.absorb h')

/-- A failure that is made anew from its record is the same. -/
theorem ofRecord (h : D.holds i l (.failed r)) : D.holds i l (.of (Result.ofRecord r : Except Fault (Result α))) := by
  obtain ⟨k, hk⟩ := Record.isEngaged_iff.1 (D.engaged h)
  simpa [Result.ofRecord, hk] using h

/-- After some events, an observed run keeps the discipline that an invocation began. -/
def Resumes (D : Discipline xs) (i : Nat) (l : List Event) (x : Run σ (Result α))
    (x' : Run (Observed σ) (Result α)) : Prop :=
  x.Tracks x' fun l' e => D.holds i (l ++ l') (.of e)

/-- An observed parser keeps the discipline at every cursor. -/
def Guides (D : Discipline xs) (p : Parser σ ι α) (p' : Parser (Observed σ) ι α) : Prop :=
  ∀ i, D.Resumes i [] (p xs i) (p' xs i)

variable {D} {p : Parser σ ι α} {p' : Parser (Observed σ) ι α} {q : Parser σ ι β} {q' : Parser (Observed σ) ι β}

theorem Resumes.ofExcept {e : Except Fault (Result α)} (h : D.holds i l (.of e)) :
    D.Resumes i l (Run.ofExcept e : Run σ (Result α)) (Run.ofExcept e) :=
  Run.Tracks.ofExcept (by rwa [List.append_nil])

theorem Resumes.pure {o : Result α} (h : D.holds i l (.of (.ok o))) :
    D.Resumes i l (Pure.pure o : Run σ (Result α)) (Pure.pure o) :=
  Resumes.ofExcept h

theorem Resumes.bind {x : Run σ γ} {x' : Run (Observed σ) γ} {f : γ → Run σ (Result β)}
    {f' : γ → Run (Observed σ) (Result β)} {holds : List Event → Except Fault γ → Prop} (hx : x.Tracks x' holds)
    (hf : ∀ l' v, holds l' (.ok v) → D.Resumes i (l ++ l') (f v) (f' v))
    (he : ∀ l' cause, holds l' (.error cause) → D.holds i (l ++ l') (.gaveUp cause)) :
    D.Resumes i l (x >>= f) (x' >>= f') :=
  Run.Tracks.bind hx (fun l' v h => (hf l' v h).mono fun l'' e => by rw [List.append_assoc]; exact id) he

/-- A parser is invoked where a success ended. -/
theorem Resumes.invoke {f : Result α → Run σ (Result β)} {f' : Result α → Run (Observed σ) (Result β)}
    (h : D.holds i l (.matched n r)) (hp : D.Guides p p')
    (hf : ∀ l' o, D.holds n l' (.of (.ok o)) → D.Resumes i (l ++ l') (f o) (f' o)) :
    D.Resumes i l (p xs n >>= f) (p' xs n >>= f') :=
  .bind (hp n) hf fun _ _ he => D.next h he

/-- The first invocation of a parser. -/
theorem Resumes.begin {f : Result α → Run σ (Result β)} {f' : Result α → Run (Observed σ) (Result β)}
    (hp : D.Guides p p') (hf : ∀ l o, D.holds i l (.of (.ok o)) → D.Resumes i l (f o) (f' o)) :
    D.Resumes i [] (p xs i >>= f) (p' xs i >>= f') :=
  .bind (hp i) hf fun _ _ he => he

theorem Resumes.proceed {o : Result α} {f : α → Nat → Record → Run σ (Result β)}
    {f' : α → Nat → Record → Run (Observed σ) (Result β)} (h : D.holds i l (.of (.ok o)))
    (hf : ∀ v n r, D.holds i l (.matched n r) → D.Resumes i l (f v n r) (f' v n r)) :
    D.Resumes i l (o.proceed f) (o.proceed f') := by
  cases o with
  | success v n r => exact hf v n r h
  | failure c r => exact .ofExcept (D.ofRecord h)

/-- A parser is invoked where a success ended, and its outcome returned. -/
theorem Resumes.aggregate {g : Result β → Result γ} (h : D.holds i l (.matched n r)) (hq : D.Guides q q')
    (hg : ∀ o, Ending.of (.ok (g o)) = (Ending.of (.ok o)).aggregate r) :
    D.Resumes i l (do return g (← q xs n)) (do return g (← q' xs n)) :=
  .invoke h hq fun _ o ho => .pure (by rw [hg]; exact D.next h ho)

/-! ## The combinators -/

namespace Guides

theorem andThen (hp : D.Guides p p') (hq : D.Guides q q') : D.Guides (p.andThen q) (p'.andThen q') := fun _ =>
  .begin hp fun _ _ ho => .proceed ho fun _ _ _ h => .aggregate h hq fun _ => Ending.of_aggregate ..

theorem skip (hp : D.Guides p p') (hq : D.Guides q q') : D.Guides (p.skip q) (p'.skip q') := fun _ =>
  .begin hp fun l o ho => by
    cases o with
    | failure c r => exact .pure ho
    | success v n r =>
      refine .invoke ho hq fun l' o' ho' => .proceed ?_ fun _ _ _ h => .pure h
      rw [Ending.of_aggregate]
      exact D.next ho ho'

theorem pair (hp : D.Guides p p') (hq : D.Guides q q') : D.Guides (p.pair q) (p'.pair q') := fun _ =>
  .begin hp fun l o ho => .proceed ho fun v n r h => .invoke h hq fun l' o' ho' =>
    .proceed (by rw [Ending.of_aggregate]; exact D.next h ho') fun _ _ _ h => .pure h

theorem bind {f : α → Parser σ ι β} {f' : α → Parser (Observed σ) ι β} (hp : D.Guides p p')
    (hf : ∀ v, D.Guides (f v) (f' v)) : D.Guides (p.bind f) (p'.bind f') := fun _ =>
  .begin hp fun _ _ ho => .proceed ho fun v _ _ h => .aggregate h (hf v) fun _ => Ending.of_aggregate ..

theorem tryMap (hp : D.Guides p p') (f : α → Except Fault β) : D.Guides (p.tryMap f) (p'.tryMap f) := fun _ =>
  .begin hp fun l o ho => .proceed ho fun v n r h => by
    have hf : (Run.ofExcept (f v) : Run σ β).Tracks (Run.ofExcept (f v)) fun l' _ => l' = [] := .ofExcept rfl
    refine .bind hf (fun l' w hl => ?_) fun l' cause hl => ?_
    · subst hl
      exact .pure (by simpa using h)
    · subst hl
      simpa using D.declined h

theorem mark (hp : D.Guides p p') : D.Guides p.mark p'.mark := fun _ =>
  .begin hp fun _ _ ho => .proceed ho fun _ _ _ h => .pure h

theorem peek (hp : D.Guides p p') : D.Guides p.peek p'.peek := fun _ =>
  .begin hp fun l o ho => by
    cases o with
    | success v n r => exact .pure (D.back ho)
    | failure c r => exact .pure ho

/-- An invocation that answers with an outcome of its own, for which one event is noted. -/
theorem answered {f : Result α → Run σ (Result β)} {f' : Result α → Run (Observed σ) (Result β)}
    {t : Ending → Ending} {event : Ending → List Event → Event} (hp : D.Guides p p')
    (hf : ∀ o, ∃ o', f o = Pure.pure o' ∧ f' o = Pure.pure o' ∧ Ending.of (.ok o') = t (.of (.ok o)))
    (ht : ∀ cause, t (.gaveUp cause) = .gaveUp cause)
    (he : ∀ l e, D.holds i l e → D.holds i [event (t e) l] (t e)) :
    D.Resumes i [] (p xs i >>= f) ((p' xs i >>= f').enclosed fun e l => event (.of e) l) := by
  have h : (p xs i >>= f).Tracks (p' xs i >>= f') fun l e => ∃ e₀, D.holds i l e₀ ∧ Ending.of e = t e₀ := by
    refine .bind (hp i) (fun l o ho => ?_) fun l cause hc => ⟨_, hc, (ht cause).symm⟩
    obtain ⟨o', hfo, hfo', ho'⟩ := hf o
    rw [hfo, hfo']
    exact .pure ⟨_, by rwa [List.append_nil], ho'⟩
  refine h.enclosed fun l e ⟨e₀, h₀, h₁⟩ => ?_
  rw [h₁]
  exact he l e₀ h₀

theorem desc (hp : D.Guides p p') (label : Bytes) :
    D.Guides (p.desc label) ((p'.desc label).enclosed fun i e inside => .desc i label e inside) := fun _ =>
  answered hp (fun o => by cases o <;> exact ⟨_, rfl, rfl, rfl⟩) (fun _ => rfl) fun _ _ => D.desc label

theorem shouldFail (hp : D.Guides p p') (label : Bytes) :
    D.Guides (p.shouldFail label)
      ((p'.shouldFail label).enclosed fun i e inside => .shouldFail i label e inside) := fun _ =>
  answered hp (fun o => by cases o <;> exact ⟨_, rfl, rfl, rfl⟩) (fun _ => rfl) fun _ _ => D.shouldFail label

theorem traced (hp : D.Guides p p') (name : Bytes) : D.Guides (p.traced name) (p'.traced name) := fun i => by
  have record : ∀ e : Entry, (Run.record e : Run σ Unit).Tracks (Run.record e) fun l' o => l' = [] ∧ o = .ok () :=
    fun e => .record ⟨rfl, rfl⟩
  refine .bind (record _) (fun l _ hl => ?_) fun l cause hl => nomatch hl.2
  rw [hl.1]
  refine .begin hp fun l o ho => ?_
  have hend : o.isSuccess ∨ o.furthest.isEngaged := by
    cases o with
    | success v n r => exact .inl rfl
    | failure c r => exact .inr (D.engaged ho)
  obtain ⟨entry, hentry⟩ := Parser.exists_outcomeEntry hend name i
  rw [hentry]
  show D.Resumes i l (Run.record entry >>= fun _ => Pure.pure o) (Run.record entry >>= fun _ => Pure.pure o)
  refine .bind (record entry) (fun l' _ hl' => ?_) fun l' cause hl' => nomatch hl'.2
  rw [hl'.1, List.append_nil]
  exact .pure ho

/-! ## Lists of parsers -/

variable {κ : Type} {ps : κ → Parser σ ι α} {ps' : κ → Parser (Observed σ) ι α}

theorem sequenceFrom (hp : ∀ k, D.Guides (ps k) (ps' k)) (ks : List κ) (h : D.holds i l (.matched n r)) :
    D.Resumes i l (Parser.sequenceFrom xs (ks.map ps) n r) (Parser.sequenceFrom xs (ks.map ps') n r) := by
  induction ks generalizing l n r with
  | nil => exact .pure h
  | cons k ks ih =>
    refine .invoke h (hp k) fun l' o ho => .proceed ?_ fun v m r' h' => ?_
    · rw [Ending.of_aggregate]
      exact D.next h ho
    · exact .bind (ih h') (fun l'' o' ho' => .pure (by rwa [Ending.of_map])) fun _ _ hc => hc

theorem sequence (hp : ∀ k, D.Guides (ps k) (ps' k)) (ks : List κ) :
    D.Guides (Parser.sequence (ks.map ps)) (Parser.sequence (ks.map ps')) := fun i =>
  sequenceFrom hp ks (D.idle i)

/-- The parsers of a choice that are left, after failures that were absorbed. -/
theorem altFrom (hp : ∀ k, D.Guides (ps k) (ps' k)) (ks : List κ) (h : D.holds i l (.matched i r))
    (hr : r.isEngaged ∨ ks ≠ []) :
    D.Resumes i l (Parser.altFrom xs i (ks.map ps) r) (Parser.altFrom xs i (ks.map ps') r) := by
  induction ks generalizing l r with
  | nil =>
    have he : r.isEngaged = true := hr.resolve_right (fun h => h rfl)
    simp only [List.map_nil, Parser.altFrom, he, if_true]
    exact .ofExcept (D.ofRecord (D.refuse h he))
  | cons k ks ih =>
    refine .invoke h (hp k) fun l' o ho => ?_
    cases o with
    | success v n r' => exact .pure (D.next h ho)
    | failure c r' =>
      exact ih (D.next_absorb h ho) (.inl (by simp [D.engaged ho]))

theorem alt (hp : ∀ k, D.Guides (ps k) (ps' k)) {ks : List κ} (hks : ks ≠ []) :
    D.Guides (Parser.alt (ks.map ps)) (Parser.alt (ks.map ps')) := fun i =>
  altFrom hp ks (D.idle i) (.inr hks)

/-! ## Repetition -/

/-- A repetition goes on where a success ended. -/
theorem timesFrom (hp : D.Guides p p') (isOpen : Bool) (remaining needed : Nat)
    (h : D.holds i l (.matched n r)) :
    D.Resumes i l (p.timesFrom isOpen xs remaining needed n r) (p'.timesFrom isOpen xs remaining needed n r) := by
  induction remaining generalizing needed n l r with
  | zero => exact .pure h
  | succ remaining ih =>
    refine .invoke h hp fun l' o ho => ?_
    cases o with
    | failure c r' =>
      have h' := D.next_absorb h ho
      by_cases hn : needed = 0
      · simp only [Result.aggregate, hn, if_true]
        exact .pure h'
      · simp only [Result.aggregate, hn, if_false]
        exact .ofExcept (D.ofRecord (D.next h ho))
    | success v m r' =>
      have h' := D.next h ho
      simp only [Result.aggregate]
      split
      · exact .pure h'
      · exact .bind (ih _ h') (fun l'' o' ho' => .pure (by rwa [Ending.of_map])) fun _ _ hc => hc

theorem times (hp : D.Guides p p') (b : Bounds) : D.Guides (p.times b) (p'.times b) := fun i =>
  timesFrom hp _ _ _ (D.idle i)

theorem consFrom {s : Parser σ ι (List α)} {s' : Parser (Observed σ) ι (List α)} (hp : D.Guides p p')
    (hs : D.Guides s s') : D.Guides (p.consFrom s) (p'.consFrom s') := fun _ =>
  .begin hp fun _ _ ho => .proceed ho fun _ _ _ h => .aggregate h hs fun _ => by
    rw [Ending.of_map, Ending.of_aggregate]

theorem sepBy (hp : D.Guides p p') (hq : D.Guides q q') (b : Bounds) :
    D.Guides (p.sepBy q b) (p'.sepBy q' b) := by
  have values := hp.consFrom ((hq.andThen hp).times b.pred)
  by_cases hmax : b.max = 0
  · rw [Parser.sepBy_of_max_eq_zero hmax, Parser.sepBy_of_max_eq_zero hmax]
    exact fun i => .pure (D.idle i)
  by_cases hmin : 0 < b.min
  · rw [Parser.sepBy_of_min_pos hmin, Parser.sepBy_of_min_pos hmin]
    exact values
  rw [Parser.sepBy_of_min_eq_zero hmax (Nat.eq_zero_of_not_pos hmin),
    Parser.sepBy_of_min_eq_zero hmax (Nat.eq_zero_of_not_pos hmin)]
  refine fun i => .begin values fun l o ho => ?_
  cases o with
  | success vs n r => exact .pure ho
  | failure c r => exact .pure (D.absorb ho)

/-- What a repetition has seen once it looked whether it has to stop: the cursor stays. -/
theorem looked {l' : List Event} {o : Result β} (h : D.holds i l (.matched n r))
    (ho : D.holds n l' (.of (.ok o))) : D.holds i (l ++ l') (.matched n (o.furthest.merge r)) := by
  cases o with
  | success w m r' => exact D.next h (D.back ho)
  | failure c r' => exact D.next_absorb h ho

theorem manyUntilFrom (hp : D.Guides p p') (hq : D.Guides q q') (isOpen : Bool) (remaining needed : Nat)
    (h : D.holds i l (.matched n r)) :
    D.Resumes i l (p.manyUntilFrom q isOpen xs remaining needed n r)
      (p'.manyUntilFrom q' isOpen xs remaining needed n r) := by
  induction remaining generalizing needed n l r with
  | zero => exact .pure h
  | succ remaining ih =>
    refine .invoke h hq fun l' o ho => ?_
    have h' := looked h ho
    simp only [Result.isSuccess_aggregate, Result.furthest_aggregate]
    split
    · exact .pure h'
    refine .invoke h' hp fun l'' o' ho' => ?_
    cases o' with
    | failure c r' => exact .ofExcept (D.ofRecord (D.next h' ho'))
    | success v m r' =>
      have h'' := D.next h' ho'
      show D.Resumes i _ (ite _ _ _) (ite _ _ _)
      split
      · next hstop =>
        -- the parser that stops the repetition failed, so a failure has been seen
        have he : o.furthest.isEngaged := by
          cases o with
          | success w m' r'' => simp [Result.isSuccess] at hstop
          | failure c r'' => exact D.engaged ho
        exact .ofExcept (D.ofRecord (D.refuse h'' (by simp [he])))
      · exact .bind (ih _ h'') (fun l'' o' ho' => .pure (by rwa [Ending.of_map])) fun _ _ hc => hc

theorem manyUntil (hp : D.Guides p p') (hq : D.Guides q q') (b : Bounds) :
    D.Guides (p.manyUntil q b) (p'.manyUntil q' b) := fun i =>
  manyUntilFrom hp hq _ _ _ (D.idle i)

end Guides

end Discipline

/-- Every parser of the library keeps every discipline. -/
theorem Combination.guides {xs : List ι} (D : Discipline xs) {α : Type} (e : Combination σ ι α) :
    D.Guides e.parser e.observed := by
  induction e with
  | primitive l =>
    intro i
    have h : (l.parser xs i : Run σ (Result _)).Tracks (l.parser xs i) fun l' o => l' = [] ∧ o = l.ended xs i :=
      fun env events => ⟨[], by simp only [Primitive.execute_primitive, List.append_nil], rfl, by
        rw [Primitive.execute_primitive]⟩
    show Run.Tracks _ (Run.enclosed _ fun e _ => .leaf i l.label (.of e)) fun l' e => D.holds i l' (.of e)
    refine h.enclosed fun l' e ⟨_, he⟩ => ?_
    rw [he]
    exact D.leaf l i
  | giveUp cause => exact fun i => .ofExcept (D.giveUp i cause)
  | andThen p q hp hq => exact hp.andThen hq
  | skip p q hp hq => exact hp.skip hq
  | pair p q hp hq => exact hp.pair hq
  | sequence ps hp => exact .sequence hp _
  | @alt α n ps hp =>
    cases n with
    | zero =>
      intro i
      have h : (Pure.pure (.fail i ∅) : Run σ (Result α)).Tracks (Pure.pure (.fail i ∅)) fun _ e =>
          e = .ok (.fail i ∅) := .pure rfl
      show Run.Tracks _ (Run.enclosed _ fun _ _ => .emptyChoice i) fun l' e => D.holds i l' (.of e)
      refine h.enclosed fun l' e he => ?_
      rw [he]
      exact D.emptyChoice i
    | succ n => exact .alt hp (by simp)
  | times p b hp => exact hp.times b
  | sepBy p sep b hp hsep => exact hp.sepBy hsep b
  | manyUntil p stop b hp hstop => exact hp.manyUntil hstop b
  | tryMap p f hp => exact hp.tryMap f
  | bind p f hp hf => exact hp.bind hf
  | mark p hp => exact hp.mark
  | desc p label hp => exact hp.desc label
  | shouldFail p label hp => exact hp.shouldFail label
  | peek p hp => exact hp.peek
  | traced p name hp => exact hp.traced name
  | deferred found enter hp =>
    intro i
    have h : found.Tracks found.unobserved fun l _ => l = [] := .unobserved fun _ => rfl
    refine .bind h (fun l v hl => ?_) fun l cause hl => ?_
    · subst hl
      exact hp v i
    · subst hl
      exact D.giveUp i cause
  | rule body hp => exact fun i => hp xs i i

end Furthest
