import Mathlib.Data.List.Forall2
import Furthest.Proofs.Discipline

/-!
# Two invocations side by side

`Run.Couples` relates two runs that begin in related stores, whatever their logs are: they end alike, and leave
related stores. A `Variation` says how the second of two invocations differs from the first, in what its input
has before the cursor and in whether its labels are others. `Variation.Joins` has that two parsers agree up to
that difference at every cursor. There is one lemma for each way to combine parsers: combinators look at
nothing that a variation changes.
-/

namespace Furthest

variable {σ σ' ι α α' β β' γ γ' : Type}

/-! ## Coupled runs -/

/-- Two computations end alike: with related values, or with the same fault. -/
inductive EndAlike (S : α → α' → Prop) : Except Fault α → Except Fault α' → Prop
  | ok {v : α} {v' : α'} (h : S v v') : EndAlike S (.ok v) (.ok v')
  | error (cause : Fault) : EndAlike S (.error cause) (.error cause)

theorem EndAlike.map_eq {S : α → α' → Prop} {e : Except Fault α} {e' : Except Fault α'} {f : α → γ}
    {f' : α' → γ} (h : EndAlike S e e') (hS : ∀ v v', S v v' → f' v' = f v) : e'.map f' = e.map f := by
  cases h with
  | ok h => exact congrArg Except.ok (hS _ _ h)
  | error cause => rfl

/-- From related stores two runs end alike, and leave related stores. -/
def Run.Couples (R : σ → σ' → Prop) (S : α → α' → Prop) (x : Run σ α) (x' : Run σ' α') : Prop :=
  ∀ env env', R env.store env'.store →
    EndAlike S (x.outcome env) (x'.outcome env') ∧ R (x.execute env).2.store (x'.execute env').2.store

namespace Run.Couples

variable {R : σ → σ' → Prop} {S S' : α → α' → Prop} {T : β → β' → Prop}
variable {x : Run σ α} {x' : Run σ' α'} {f : α → Run σ β} {f' : α' → Run σ' β'}

theorem ofExcept {e : Except Fault α} {e' : Except Fault α'} (h : EndAlike S e e') :
    (Run.ofExcept e : Run σ α).Couples R S (Run.ofExcept e' : Run σ' α') :=
  fun _ _ hR => ⟨h, hR⟩

theorem pure {v : α} {v' : α'} (h : S v v') : (Pure.pure v : Run σ α).Couples R S (Pure.pure v' : Run σ' α') :=
  ofExcept (.ok h)

theorem giveUp (cause : Fault) : (Run.giveUp cause : Run σ α).Couples R S (Run.giveUp cause : Run σ' α') :=
  ofExcept (.error cause)

theorem bind (hx : x.Couples R S x') (hf : ∀ v v', S v v' → (f v).Couples R T (f' v')) :
    (x >>= f).Couples R T (x' >>= f') := fun env env' hR => by
  obtain ⟨ho, hR'⟩ := hx env env' hR
  simp only [Run.outcome, execute_bind] at ho ⊢
  generalize x.execute env = ran at ho hR' ⊢
  generalize x'.execute env' = ran' at ho hR' ⊢
  obtain ⟨e, after⟩ := ran
  obtain ⟨e', after'⟩ := ran'
  cases ho with
  | ok h => exact hf _ _ h after after' hR'
  | error cause => exact ⟨.error cause, hR'⟩

/-- Only the first run goes on. -/
theorem bind_left {f : α → Run σ β} {T : β → α' → Prop} (hx : x.Couples R S x')
    (hf : ∀ v v', S v v' → (f v).Couples R T (Pure.pure v' : Run σ' α')) : (x >>= f).Couples R T x' := by
  rw [← bind_pure x']
  exact hx.bind hf

/-- Only the second run goes on. -/
theorem bind_right {f' : α' → Run σ' β'} {T : α → β' → Prop} (hx : x.Couples R S x')
    (hf : ∀ v v', S v v' → (Pure.pure v : Run σ α).Couples R T (f' v')) : x.Couples R T (x' >>= f') := by
  rw [← bind_pure x]
  exact hx.bind hf

/-- An entry that only the first run writes. -/
theorem record_left {y : Run σ β} {y' : Run σ' β'} (e : Entry) (h : y.Couples R T y') :
    (Run.record e >>= fun _ => y).Couples R T y' := fun env env' hR =>
  h { env with log := env.log.record e } env' hR

/-- An entry that only the second run writes. -/
theorem record_right {y : Run σ β} {y' : Run σ' β'} (e : Entry) (h : y.Couples R T y') :
    y.Couples R T (Run.record e >>= fun _ => y') := fun env env' hR =>
  h env { env' with log := env'.log.record e } hR

theorem getStore : (Run.getStore : Run σ σ).Couples R R (Run.getStore : Run σ' σ') :=
  fun _ _ hR => ⟨.ok hR, hR⟩

theorem modifyStore {g : σ → σ} {g' : σ' → σ'} (h : ∀ s s', R s s' → R (g s) (g' s')) :
    (Run.modifyStore g).Couples R (fun _ _ => True) (Run.modifyStore g') :=
  fun _ _ hR => ⟨.ok trivial, h _ _ hR⟩

end Run.Couples

/-! ## Records and outcomes in a longer input -/

/-- The record of the same failures in an input that has `k` more items before the cursor. -/
def Record.shift (k : Nat) (r : Record) : Record := ⟨r.index.map (k + ·), r.labels⟩

/-- Which of two records is deeper stays. -/
theorem Record.shift_merge (k : Nat) (x y : Record) : (x.merge y).shift k = (x.shift k).merge (y.shift k) := by
  rcases x with ⟨_ | i, s⟩ <;> rcases y with ⟨_ | j, t⟩ <;> try rfl
  simp only [merge, shift, Option.map_some, Nat.add_lt_add_iff_left]
  split
  · rfl
  · split <;> rfl

/-- The outcome of the same invocation in an input that has `k` more items before the cursor. -/
def Result.shift (k : Nat) : Result α → Result α
  | success v next r => success v (k + next) (r.shift k)
  | failure cursor r => failure (k + cursor) (r.shift k)

/-! ## Variations -/

/-- How the second of two invocations may differ from the first, its store and its log apart. -/
structure Variation (ι : Type) where
  /-- What its input has before the input of the first. -/
  before : List ι
  /-- What is expected may differ, and where. -/
  rewords : Prop

namespace Variation

/-- How much further the cursor is. -/
def offset (V : Variation ι) : Nat := V.before.length

/-- A second invocation has seen a failure exactly if the first has, and the same one if nothing is reworded. -/
structure SeesAlike (V : Variation ι) (r r' : Record) : Prop where
  isEngaged : r'.isEngaged = r.isEngaged
  shift : V.rewords ∨ r' = r.shift V.offset

/-- Two outcomes agree. -/
inductive Agree (V : Variation ι) : Result α → Result α → Prop
  | success (v : α) (n : Nat) {r r' : Record} (h : V.SeesAlike r r') :
    V.Agree (.success v n r) (.success v (V.offset + n) r')
  | failure {c c' : Nat} {r r' : Record} (hc : V.rewords ∨ c' = V.offset + c) (h : V.SeesAlike r r')
    (he : r.isEngaged) : V.Agree (.failure c r) (.failure c' r')

/-- Two parsers agree at every cursor. -/
def Joins (V : Variation ι) (R : σ → σ' → Prop) (p : Parser σ ι α) (p' : Parser σ' ι α) : Prop :=
  ∀ xs i, (p xs i).Couples R V.Agree (p' (V.before ++ xs) (V.offset + i))

variable {V : Variation ι}

theorem offset_eq_zero (h : V.before = []) : V.offset = 0 := by
  simp [offset, h]

/-- The cursor stayed in one input exactly if it stayed in the other. -/
theorem offset_inj {n i : Nat} : V.offset + n = V.offset + i ↔ n = i := Nat.add_left_cancel_iff

theorem length_le_offset {xs : List ι} {i : Nat} : (V.before ++ xs).length ≤ V.offset + i ↔ xs.length ≤ i := by
  simp [offset]

theorem length_lt_offset {xs : List ι} {i : Nat} : (V.before ++ xs).length < V.offset + i ↔ xs.length < i := by
  simp [offset]

theorem length_sub_offset (xs : List ι) (i : Nat) : (V.before ++ xs).length - (V.offset + i) = xs.length - i := by
  rw [List.length_append, offset, Nat.add_sub_add_left]

theorem getElem?_offset (xs : List ι) (i : Nat) : (V.before ++ xs)[V.offset + i]? = xs[i]? := by
  unfold offset
  rw [List.getElem?_append_right (Nat.le_add_right ..), Nat.add_sub_cancel_left]

theorem drop_offset (xs : List ι) (i : Nat) : (V.before ++ xs).drop (V.offset + i) = xs.drop i :=
  List.drop_length_add_append i

namespace SeesAlike

variable {r r' s s' : Record}

theorem empty : V.SeesAlike ∅ ∅ := ⟨rfl, .inr rfl⟩

theorem raised (i : Nat) (labels : Labels) : V.SeesAlike (.raised i labels) (.raised (V.offset + i) labels) :=
  ⟨rfl, .inr rfl⟩

theorem reworded (hV : V.rewords) (h : r'.isEngaged = r.isEngaged) : V.SeesAlike r r' := ⟨h, .inl hV⟩

theorem merge (h : V.SeesAlike r r') (h' : V.SeesAlike s s') : V.SeesAlike (r.merge s) (r'.merge s') where
  isEngaged := by simp only [Record.isEngaged_merge, h.isEngaged, h'.isEngaged]
  shift := by
    rcases h.shift with hV | hr
    · exact .inl hV
    · exact h'.shift.imp_right fun hs => by rw [hr, hs, Record.shift_merge]

end SeesAlike

namespace Agree

variable {o o' : Result α} {r r' : Record}

theorem furthest (h : V.Agree o o') : V.SeesAlike o.furthest o'.furthest := by
  cases h <;> assumption

theorem isSuccess (h : V.Agree o o') : o'.isSuccess = o.isSuccess := by
  cases h <;> rfl

/-- The first outcome is a success or has seen a failure. -/
theorem engaged_left (h : V.Agree o o') : o.isSuccess ∨ o.furthest.isEngaged := by
  cases h with
  | success => exact .inl rfl
  | failure _ _ he => exact .inr he

theorem engaged_right (h : V.Agree o o') : o'.isSuccess ∨ o'.furthest.isEngaged := by
  rw [h.isSuccess, h.furthest.isEngaged]
  exact h.engaged_left

theorem aggregate (h : V.Agree o o') (hr : V.SeesAlike r r') : V.Agree (o.aggregate r) (o'.aggregate r') := by
  cases h with
  | success v n h => exact .success v n (h.merge hr)
  | failure hc h he => exact .failure hc (h.merge hr) (by simp [he])

theorem map (f : α → β) (h : V.Agree o o') : V.Agree (o.map f) (o'.map f) := by
  cases h with
  | success v n h => exact .success (f v) n h
  | failure hc h he => exact .failure hc h he

/-- With the same input there is the same cursor. -/
theorem here (hV : V.before = []) (v : α) (n : Nat) (h : V.SeesAlike r r') :
    V.Agree (.success v n r) (.success v n r') := by
  have h' := success v n h
  rwa [offset_eq_zero hV, Nat.zero_add] at h'

/-- A failure that is raised under one label or another. -/
theorem fail {label label' : Bytes} (i : Nat) (h : V.rewords ∨ label' = label) :
    V.Agree (.fail i (.singleton label) : Result α) (.fail (V.offset + i) (.singleton label')) := by
  refine .failure (.inr rfl) ?_ rfl
  rcases h with h | rfl
  · exact .reworded h rfl
  · exact .raised i _

/-- Failures that are made anew from records. -/
theorem ofRecord (h : V.SeesAlike r r') (he : r.isEngaged) :
    EndAlike V.Agree (Result.ofRecord r : Except Fault (Result α)) (Result.ofRecord r') := by
  obtain ⟨k, hk⟩ := Record.isEngaged_iff.1 he
  obtain ⟨k', hk'⟩ := Record.isEngaged_iff.1 (h.isEngaged.trans he)
  simp only [Result.ofRecord, hk, hk']
  refine .ok (.failure (h.shift.imp_right fun hr => ?_) h he)
  simpa [hr, Record.shift, hk, eq_comm] using hk'

/-- What goes on after a success. -/
theorem proceed {R : σ → σ' → Prop} {f : α → Nat → Record → Run σ (Result β)}
    {f' : α → Nat → Record → Run σ' (Result β)} (h : V.Agree o o')
    (hf : ∀ v n r r', V.SeesAlike r r' → (f v n r).Couples R V.Agree (f' v (V.offset + n) r')) :
    (o.proceed f).Couples R V.Agree (o'.proceed f') := by
  cases h with
  | success v n h => exact hf v n _ _ h
  | failure _ h he => exact .ofExcept (ofRecord h he)

end Agree

/-! ## The combinators -/

namespace Joins

variable {R : σ → σ' → Prop} {xs : List ι} {i : Nat} {r r' : Record}
variable {p : Parser σ ι α} {p' : Parser σ' ι α} {q : Parser σ ι β} {q' : Parser σ' ι β}

theorem giveUp (cause : Fault) : V.Joins R (Parser.giveUp cause : Parser σ ι α) (Parser.giveUp cause) :=
  fun _ _ => .giveUp cause

theorem succeed (v : α) : V.Joins R (Parser.succeed v) (Parser.succeed v) := fun _ i =>
  .pure (.success v i .empty)

/-- A parser is invoked after others, and what was seen before is added to its outcome. -/
theorem aggregate (hp : V.Joins R p p') (h : V.SeesAlike r r') {f : Result α → Run σ (Result β)}
    {f' : Result α → Run σ' (Result β)}
    (hf : ∀ o o', V.Agree o o' → (f o).Couples R V.Agree (f' o')) :
    (p xs i >>= fun o => f (o.aggregate r)).Couples R V.Agree
      (p' (V.before ++ xs) (V.offset + i) >>= fun o => f' (o.aggregate r')) :=
  .bind (hp xs i) fun _ _ ho => hf _ _ (ho.aggregate h)

theorem andThen (hp : V.Joins R p p') (hq : V.Joins R q q') : V.Joins R (p.andThen q) (p'.andThen q') :=
  fun xs i => .bind (hp xs i) fun _ _ ho => ho.proceed fun _ _ _ _ h => hq.aggregate h fun _ _ => .pure

theorem skip (hp : V.Joins R p p') (hq : V.Joins R q q') : V.Joins R (p.skip q) (p'.skip q') := fun xs i =>
  .bind (hp xs i) fun _ _ ho => by
    cases ho with
    | failure hc h he => exact .pure (.failure hc h he)
    | success v n h =>
      exact hq.aggregate h fun _ _ ho => ho.proceed fun _ m _ _ h' => .pure (.success v m h')

theorem pair (hp : V.Joins R p p') (hq : V.Joins R q q') : V.Joins R (p.pair q) (p'.pair q') := fun xs i =>
  .bind (hp xs i) fun _ _ ho => ho.proceed fun v _ _ _ h =>
    hq.aggregate h fun _ _ ho => ho.proceed fun w m _ _ h' => .pure (.success (v, w) m h')

theorem bind {f : α → Parser σ ι β} {f' : α → Parser σ' ι β} (hp : V.Joins R p p')
    (hf : ∀ v, V.Joins R (f v) (f' v)) : V.Joins R (p.bind f) (p'.bind f') := fun xs i =>
  .bind (hp xs i) fun _ _ ho => ho.proceed fun v _ _ _ h => (hf v).aggregate h fun _ _ => .pure

theorem tryMap (hp : V.Joins R p p') (f : α → Except Fault β) : V.Joins R (p.tryMap f) (p'.tryMap f) :=
  fun xs i => .bind (hp xs i) fun _ _ ho => ho.proceed fun v n _ _ h => by
    have hf : (Run.ofExcept (f v) : Run σ β).Couples R Eq (Run.ofExcept (f v) : Run σ' β) := by
      cases f v with
      | ok w => exact .pure rfl
      | error cause => exact .giveUp cause
    exact .bind hf fun w w' hw => .pure (hw ▸ .success w n h)

/-- The cursors that are noted are those of the input at hand. -/
theorem mark (hV : V.before = []) (hp : V.Joins R p p') : V.Joins R p.mark p'.mark := fun xs i =>
  .bind (hp xs i) fun _ _ ho => ho.proceed fun v n _ _ h => by
    rw [offset_eq_zero hV, Nat.zero_add, Nat.zero_add]
    exact .pure (.here hV _ n h)

theorem peek (hp : V.Joins R p p') : V.Joins R p.peek p'.peek := fun xs i =>
  .bind (hp xs i) fun _ _ ho => by
    cases ho with
    | success v n h => exact .pure (.success v i h)
    | failure hc h he => exact .pure (.failure hc h he)

theorem shouldFail {label label' : Bytes} (hp : V.Joins R p p') (h : V.rewords ∨ label' = label) :
    V.Joins R (p.shouldFail label) (p'.shouldFail label') := fun xs i =>
  .bind (hp xs i) fun _ _ ho => by
    cases ho with
    | success v n _ => exact .pure (.fail i h)
    | failure => exact .pure (.success () i .empty)

theorem desc {label label' : Bytes} (hp : V.Joins R p p') (h : V.rewords ∨ label' = label) :
    V.Joins R (p.desc label) (p'.desc label') := fun xs i =>
  .bind (hp xs i) fun _ _ ho => by
    cases ho with
    | success v n hr => exact .pure (.success v n hr)
    | failure => exact .pure (.fail i h)

/-- Only the first parser is named. -/
theorem desc_left (hV : V.rewords) (hp : V.Joins R p p') (label : Bytes) : V.Joins R (p.desc label) p' :=
  fun xs i => .bind_left (hp xs i) fun _ _ ho => by
    cases ho with
    | success v n h => exact .pure (.success v n h)
    | failure _ h he => exact .pure (.failure (.inl hV) (.reworded hV (h.isEngaged.trans he)) rfl)

/-- Only the second parser is named. -/
theorem desc_right (hV : V.rewords) (hp : V.Joins R p p') (label : Bytes) : V.Joins R p (p'.desc label) :=
  fun xs i => .bind_right (hp xs i) fun _ _ ho => by
    cases ho with
    | success v n h => exact .pure (.success v n h)
    | failure _ h he => exact .pure (.failure (.inl hV) (.reworded hV he.symm) he)

/-- Only the first parser is traced. -/
theorem traced_left (hp : V.Joins R p p') (name : Bytes) : V.Joins R (p.traced name) p' := fun xs i =>
  .record_left _ <| .bind_left (hp xs i) fun o _ ho => by
    obtain ⟨e, he⟩ := Parser.exists_outcomeEntry ho.engaged_left name i
    rw [he]
    exact .record_left e (.pure ho)

/-- Only the second parser is traced. -/
theorem traced_right (hp : V.Joins R p p') (name : Bytes) : V.Joins R p (p'.traced name) := fun xs i =>
  .record_right _ <| .bind_right (hp xs i) fun _ o' ho => by
    obtain ⟨e, he⟩ := Parser.exists_outcomeEntry ho.engaged_right name (V.offset + i)
    rw [he]
    exact .record_right e (.pure ho)

/-! ## Lists of parsers -/

variable {ps : List (Parser σ ι α)} {ps' : List (Parser σ' ι α)}

theorem forall₂_map {κ : Type} {f : κ → Parser σ ι α} {f' : κ → Parser σ' ι α}
    (h : ∀ k, V.Joins R (f k) (f' k)) (ks : List κ) : List.Forall₂ (V.Joins R) (ks.map f) (ks.map f') :=
  List.forall₂_map_left_iff.2 (List.forall₂_map_right_iff.2 (List.forall₂_same.2 fun k _ => h k))

theorem sequenceFrom (hp : List.Forall₂ (V.Joins R) ps ps') (h : V.SeesAlike r r') :
    (Parser.sequenceFrom xs ps i r).Couples R V.Agree
      (Parser.sequenceFrom (V.before ++ xs) ps' (V.offset + i) r') := by
  induction hp generalizing i r r' with
  | nil => exact .pure (.success [] i h)
  | cons hp _ ih =>
    exact hp.aggregate h fun _ _ ho => ho.proceed fun v n _ _ h' =>
      .bind (ih h') fun _ _ ho => .pure (ho.map (v :: ·))

theorem sequence (hp : List.Forall₂ (V.Joins R) ps ps') :
    V.Joins R (Parser.sequence ps) (Parser.sequence ps') := fun _ _ => sequenceFrom hp .empty

theorem altFrom (hp : List.Forall₂ (V.Joins R) ps ps') (h : V.SeesAlike r r') :
    (Parser.altFrom xs i ps r).Couples R V.Agree (Parser.altFrom (V.before ++ xs) (V.offset + i) ps' r') := by
  induction hp generalizing r r' with
  | nil =>
    simp only [Parser.altFrom, h.isEngaged]
    split
    · next he => exact .ofExcept (Agree.ofRecord h he)
    · exact .pure (.failure (.inr rfl) (.raised i ∅) rfl)
  | cons hp _ ih =>
    refine .bind (hp xs i) fun _ _ ho => ?_
    cases ho with
    | success v n h' => exact .pure (.success v n (h'.merge h))
    | failure _ h' _ => exact ih (h'.merge h)

theorem alt (hp : List.Forall₂ (V.Joins R) ps ps') : V.Joins R (Parser.alt ps) (Parser.alt ps') := fun _ _ =>
  altFrom hp .empty

/-! ## Repetition -/

theorem timesFrom (hp : V.Joins R p p') (isOpen : Bool) (remaining needed : Nat) (h : V.SeesAlike r r') :
    (p.timesFrom isOpen xs remaining needed i r).Couples R V.Agree
      (p'.timesFrom isOpen (V.before ++ xs) remaining needed (V.offset + i) r') := by
  induction remaining generalizing needed i r r' with
  | zero => exact .pure (.success [] i h)
  | succ remaining ih =>
    refine .bind (hp xs i) fun _ _ ho => ?_
    cases ho with
    | failure _ h' he =>
      simp only [Result.aggregate]
      split
      · exact .pure (.success [] i (h'.merge h))
      · exact .ofExcept (Agree.ofRecord (h'.merge h) (by simp [he]))
    | success v n h' =>
      simp only [Result.aggregate, offset_inj]
      split
      · exact .pure (.success [v] n (h'.merge h))
      · exact .bind (ih _ (h'.merge h)) fun _ _ ho => .pure (ho.map (v :: ·))

theorem times (hp : V.Joins R p p') (b : Bounds) : V.Joins R (p.times b) (p'.times b) := fun _ _ =>
  hp.timesFrom _ _ _ .empty

theorem consFrom {s : Parser σ ι (List α)} {s' : Parser σ' ι (List α)} (hp : V.Joins R p p')
    (hs : V.Joins R s s') : V.Joins R (p.consFrom s) (p'.consFrom s') := fun xs i =>
  .bind (hp xs i) fun _ _ ho => ho.proceed fun v _ _ _ h => hs.aggregate h fun _ _ ho => .pure (ho.map (v :: ·))

theorem sepBy (hp : V.Joins R p p') (hq : V.Joins R q q') (b : Bounds) :
    V.Joins R (p.sepBy q b) (p'.sepBy q' b) := by
  have values := hp.consFrom ((hq.andThen hp).times b.pred)
  by_cases hmax : b.max = 0
  · rw [Parser.sepBy_of_max_eq_zero hmax, Parser.sepBy_of_max_eq_zero hmax]
    exact .succeed []
  by_cases hmin : 0 < b.min
  · rw [Parser.sepBy_of_min_pos hmin, Parser.sepBy_of_min_pos hmin]
    exact values
  rw [Parser.sepBy_of_min_eq_zero hmax (Nat.eq_zero_of_not_pos hmin),
    Parser.sepBy_of_min_eq_zero hmax (Nat.eq_zero_of_not_pos hmin)]
  refine fun xs i => .bind (values xs i) fun _ _ ho => ?_
  cases ho with
  | success vs n h => exact .pure (.success vs n h)
  | failure _ h _ => exact .pure (.success [] i h)

theorem manyUntilFrom (hp : V.Joins R p p') (hq : V.Joins R q q') (isOpen : Bool) (remaining needed : Nat)
    (h : V.SeesAlike r r') :
    (p.manyUntilFrom q isOpen xs remaining needed i r).Couples R V.Agree
      (p'.manyUntilFrom q' isOpen (V.before ++ xs) remaining needed (V.offset + i) r') := by
  induction remaining generalizing needed i r r' with
  | zero => exact .pure (.success [] i h)
  | succ remaining ih =>
    refine .bind (hq xs i) fun stop _ hstop => ?_
    have hseen := hstop.furthest.merge h
    simp only [Result.isSuccess_aggregate, Result.furthest_aggregate, hstop.isSuccess]
    split
    · exact .pure (.success [] i hseen)
    refine .bind (hp xs i) fun _ _ ho => ?_
    cases ho with
    | failure _ h' he => exact .ofExcept (Agree.ofRecord (h'.merge hseen) (by simp [he]))
    | success v n h' =>
      simp only [Result.aggregate, Result.proceed, offset_inj]
      split
      · next hstuck =>
        -- the parser that stops the repetition failed, so a failure has been seen
        have he := hstop.engaged_left.resolve_left (by simp [hstuck.2.1])
        exact .ofExcept (Agree.ofRecord (h'.merge hseen) (by simp [he]))
      · exact .bind (ih _ (h'.merge hseen)) fun _ _ ho => .pure (ho.map (v :: ·))

theorem manyUntil (hp : V.Joins R p p') (hq : V.Joins R q q') (b : Bounds) :
    V.Joins R (p.manyUntil q b) (p'.manyUntil q' b) := fun _ _ => hp.manyUntilFrom hq _ _ _ .empty

/-! ## Deferred parsers -/

/-- What is entered is found when the parsers are invoked. -/
theorem deferred {S : γ → γ' → Prop} {found : Run σ γ} {found' : Run σ' γ'} {enter : γ → Parser σ ι α}
    {enter' : γ' → Parser σ' ι α} (hfound : found.Couples R S found')
    (h : ∀ v v', S v v' → V.Joins R (enter v) (enter' v')) :
    V.Joins R (fun xs i => do enter (← found) xs i) (fun xs i => do enter' (← found') xs i) := fun xs i =>
  hfound.bind fun v v' hv => h v v' hv xs i

end Joins

end Variation

end Furthest
