import Mathlib.Data.List.Forall2
import Furthest.Proofs.Discipline

/-!
# Relations that every combinator keeps

A `Run.Congruence` relates runs over two kinds of stores: runs that end at once with the same end, and runs that
go on from related ones in related ways. Combinators are made of these two, so they take parsers whose
invocations are related to parsers whose invocations are related; tracing does if writing an entry is related to
itself. There is one lemma for each way to combine parsers.

Main statement: `Combination.carries`, which has that every parser of the library is related to itself, as long as
what it looks up is.
-/

namespace Furthest

variable {σ σ' ι α β γ : Type}

/-- A relation between runs that is kept by runs one after the other. -/
structure Run.Congruence (σ σ' : Type) where
  holds {α : Type} : Run σ α → Run σ' α → Prop
  ofExcept {α : Type} (e : Except Fault α) : holds (Run.ofExcept e) (Run.ofExcept e)
  bind {α β : Type} {x : Run σ α} {x' : Run σ' α} {f : α → Run σ β} {f' : α → Run σ' β} :
    holds x x' → (∀ v, holds (f v) (f' v)) → holds (x >>= f) (x' >>= f')

namespace Run.Congruence

variable (K : Run.Congruence σ σ')

/-- Writing an entry is related to writing it. -/
def Records : Prop := ∀ e : Entry, K.holds (Run.record e) (Run.record e)

/-- The invocations of two parsers are related. -/
def Carries (p : Parser σ ι α) (p' : Parser σ' ι α) : Prop := ∀ xs i, K.holds (p xs i) (p' xs i)

theorem pure (v : α) : K.holds (Pure.pure v) (Pure.pure v) := K.ofExcept (.ok v)

theorem giveUp (cause : Fault) : K.holds (Run.giveUp cause : Run σ α) (Run.giveUp cause) := K.ofExcept _

variable {K}

theorem proceed {o : Result α} {f : α → Nat → Record → Run σ (Result β)}
    {f' : α → Nat → Record → Run σ' (Result β)} (hf : ∀ v n r, K.holds (f v n r) (f' v n r)) :
    K.holds (o.proceed f) (o.proceed f') := by
  cases o with
  | success v n r => exact hf v n r
  | failure c r => exact K.ofExcept _

/-- A parser is invoked, and its outcome changed. -/
theorem Carries.invoke {p : Parser σ ι α} {p' : Parser σ' ι α} (hp : K.Carries p p') (xs : List ι) (i : Nat)
    (g : Result α → Result β) : K.holds (do return g (← p xs i)) (do return g (← p' xs i)) :=
  K.bind (hp xs i) fun _ => K.pure _

theorem Carries.primitive (l : Primitive ι α) : K.Carries (l.parser : Parser σ ι α) l.parser := fun xs i => by
  rw [l.parser_eq_ofExcept, l.parser_eq_ofExcept]
  exact K.ofExcept _

namespace Carries

variable {p : Parser σ ι α} {p' : Parser σ' ι α} {q : Parser σ ι β} {q' : Parser σ' ι β}

/-! ## The combinators -/

theorem andThen (hp : K.Carries p p') (hq : K.Carries q q') : K.Carries (p.andThen q) (p'.andThen q') :=
  fun xs i => K.bind (hp xs i) fun _ => proceed fun _ _ _ => hq.invoke xs _ _

theorem skip (hp : K.Carries p p') (hq : K.Carries q q') : K.Carries (p.skip q) (p'.skip q') := fun xs i =>
  K.bind (hp xs i) fun o => by
    cases o with
    | failure c r => exact K.pure _
    | success v n r => exact K.bind (hq xs n) fun _ => proceed fun _ _ _ => K.pure _

theorem pair (hp : K.Carries p p') (hq : K.Carries q q') : K.Carries (p.pair q) (p'.pair q') := fun xs i =>
  K.bind (hp xs i) fun _ => proceed fun _ n _ => K.bind (hq xs n) fun _ => proceed fun _ _ _ => K.pure _

theorem tryMap (hp : K.Carries p p') (f : α → Except Fault β) : K.Carries (p.tryMap f) (p'.tryMap f) :=
  fun xs i => K.bind (hp xs i) fun _ => proceed fun _ _ _ => K.bind (K.ofExcept _) fun _ => K.pure _

theorem map (hp : K.Carries p p') (f : α → β) : K.Carries (p.map f) (p'.map f) := hp.tryMap _

theorem bind {f : α → Parser σ ι β} {f' : α → Parser σ' ι β} (hp : K.Carries p p')
    (hf : ∀ v, K.Carries (f v) (f' v)) : K.Carries (p.bind f) (p'.bind f') := fun xs i =>
  K.bind (hp xs i) fun _ => proceed fun v _ _ => (hf v).invoke xs _ _

theorem mark (hp : K.Carries p p') : K.Carries p.mark p'.mark := fun xs i =>
  K.bind (hp xs i) fun _ => proceed fun _ _ _ => K.pure _

theorem desc (hp : K.Carries p p') (label : Bytes) : K.Carries (p.desc label) (p'.desc label) := fun xs i =>
  K.bind (hp xs i) fun o => by cases o <;> exact K.pure _

theorem shouldFail (hp : K.Carries p p') (label : Bytes) :
    K.Carries (p.shouldFail label) (p'.shouldFail label) := fun xs i =>
  K.bind (hp xs i) fun o => by cases o <;> exact K.pure _

theorem peek (hp : K.Carries p p') : K.Carries p.peek p'.peek := fun xs i =>
  K.bind (hp xs i) fun o => by cases o <;> exact K.pure _

theorem traced (hK : K.Records) (hp : K.Carries p p') (name : Bytes) :
    K.Carries (p.traced name) (p'.traced name) := fun xs i =>
  K.bind (hK _) fun _ => K.bind (hp xs i) fun _ => K.bind (K.ofExcept _) fun _ =>
    K.bind (hK _) fun _ => K.pure _

/-! ## Lists of parsers -/

variable {xs : List ι} {ps : List (Parser σ ι α)} {ps' : List (Parser σ' ι α)}

theorem forall₂_map {κ : Type*} {f : κ → Parser σ ι α} {f' : κ → Parser σ' ι α}
    (h : ∀ k, K.Carries (f k) (f' k)) (ks : List κ) : List.Forall₂ K.Carries (ks.map f) (ks.map f') :=
  List.forall₂_map_left_iff.2 (List.forall₂_map_right_iff.2 (List.forall₂_same.2 fun k _ => h k))

theorem tuple (hp : List.Forall₂ K.Carries ps ps') : K.Carries (Parser.tuple ps) (Parser.tuple ps') := by
  induction hp with
  | nil => exact fun _ _ => K.pure _
  | cons hp _ ih => exact (hp.pair ih).map _

theorem sequenceFrom (hp : List.Forall₂ K.Carries ps ps') (i : Nat) (r : Record) :
    K.holds (Parser.sequenceFrom xs ps i r) (Parser.sequenceFrom xs ps' i r) := by
  induction hp generalizing i r with
  | nil => exact K.pure _
  | cons hp _ ih =>
    exact K.bind (hp xs i) fun _ => proceed fun _ n r => K.bind (ih n r) fun _ => K.pure _

theorem sequence (hp : List.Forall₂ K.Carries ps ps') :
    K.Carries (Parser.sequence ps) (Parser.sequence ps') := fun _ i => sequenceFrom hp i ∅

theorem altFrom (hp : List.Forall₂ K.Carries ps ps') (i : Nat) (r : Record) :
    K.holds (Parser.altFrom xs i ps r) (Parser.altFrom xs i ps' r) := by
  induction hp generalizing r with
  | nil =>
    unfold Parser.altFrom
    split
    · exact K.ofExcept _
    · exact K.pure _
  | cons hp _ ih =>
    refine K.bind (hp xs i) fun o => ?_
    cases o with
    | success v n r' => exact K.pure _
    | failure c r' => exact ih (r'.merge r)

theorem alt (hp : List.Forall₂ K.Carries ps ps') : K.Carries (Parser.alt ps) (Parser.alt ps') :=
  fun _ i => altFrom hp i ∅

/-! ## Repetition -/

theorem timesFrom (hp : K.Carries p p') (isOpen : Bool) (remaining needed i : Nat) (r : Record) :
    K.holds (p.timesFrom isOpen xs remaining needed i r) (p'.timesFrom isOpen xs remaining needed i r) := by
  induction remaining generalizing needed i r with
  | zero => exact K.pure _
  | succ remaining ih =>
    refine K.bind (hp xs i) fun o => ?_
    cases o with
    | failure c r' =>
      simp only [Result.aggregate]
      split
      · exact K.pure _
      · exact K.ofExcept _
    | success v n r' =>
      simp only [Result.aggregate]
      split
      · exact K.pure _
      · exact K.bind (ih _ n _) fun _ => K.pure _

theorem times (hp : K.Carries p p') (b : Bounds) : K.Carries (p.times b) (p'.times b) := fun _ i =>
  timesFrom hp _ _ _ i ∅

theorem consFrom {rest : Parser σ ι (List α)} {rest' : Parser σ' ι (List α)} (hp : K.Carries p p')
    (hrest : K.Carries rest rest') : K.Carries (p.consFrom rest) (p'.consFrom rest') := fun xs i =>
  K.bind (hp xs i) fun _ => proceed fun _ n _ => K.bind (hrest xs n) fun _ => K.pure _

theorem sepBy (hp : K.Carries p p') (hq : K.Carries q q') (b : Bounds) :
    K.Carries (p.sepBy q b) (p'.sepBy q' b) := by
  have values := hp.consFrom ((hq.andThen hp).times b.pred)
  by_cases hmax : b.max = 0
  · rw [Parser.sepBy_of_max_eq_zero hmax, Parser.sepBy_of_max_eq_zero hmax]
    exact fun _ _ => K.pure _
  by_cases hmin : 0 < b.min
  · rw [Parser.sepBy_of_min_pos hmin, Parser.sepBy_of_min_pos hmin]
    exact values
  rw [Parser.sepBy_of_min_eq_zero hmax (Nat.eq_zero_of_not_pos hmin),
    Parser.sepBy_of_min_eq_zero hmax (Nat.eq_zero_of_not_pos hmin)]
  refine fun xs i => K.bind (values xs i) fun o => ?_
  cases o <;> exact K.pure _

theorem manyUntilFrom (hp : K.Carries p p') (hq : K.Carries q q') (isOpen : Bool)
    (remaining needed i : Nat) (r : Record) :
    K.holds (p.manyUntilFrom q isOpen xs remaining needed i r)
      (p'.manyUntilFrom q' isOpen xs remaining needed i r) := by
  induction remaining generalizing needed i r with
  | zero => exact K.pure _
  | succ remaining ih =>
    refine K.bind (hq xs i) fun stopped => ?_
    simp only [Result.isSuccess_aggregate, Result.furthest_aggregate]
    split
    · exact K.pure _
    refine K.bind (hp xs i) fun _ => proceed fun v n r => ?_
    split
    · exact K.ofExcept _
    · exact K.bind (ih _ n r) fun _ => K.pure _

theorem manyUntil (hp : K.Carries p p') (hq : K.Carries q q') (b : Bounds) :
    K.Carries (p.manyUntil q b) (p'.manyUntil q' b) := fun _ i => manyUntilFrom hp hq _ _ _ i ∅

/-! ## Deferred parsers -/

/-- What is entered is found when the parsers are invoked. -/
theorem deferred {found : Run σ γ} {found' : Run σ' γ} {enter : γ → Parser σ ι α} {enter' : γ → Parser σ' ι α}
    (hfound : K.holds found found') (h : ∀ v, K.Carries (enter v) (enter' v)) :
    K.Carries (fun xs i => do enter (← found) xs i) (fun xs i => do enter' (← found') xs i) := fun xs i =>
  K.bind hfound fun v => h v xs i

end Carries

end Run.Congruence

/-- Every parser of the library is related to itself, as long as what it looks up is. -/
theorem Combination.carries {K : Run.Congruence σ σ} (hK : K.Records) {e : Combination σ ι α}
    (he : e.Finds fun found => K.holds found found) : K.Carries e.parser e.parser := by
  induction e with
  | primitive l => exact .primitive l
  | giveUp cause => exact fun _ _ => K.giveUp cause
  | andThen p q hp hq => exact (hp he.1).andThen (hq he.2)
  | skip p q hp hq => exact (hp he.1).skip (hq he.2)
  | pair p q hp hq => exact (hp he.1).pair (hq he.2)
  | sequence ps hp => exact .sequence (Run.Congruence.Carries.forall₂_map (fun k => hp k (he k)) _)
  | alt ps hp => exact .alt (Run.Congruence.Carries.forall₂_map (fun k => hp k (he k)) _)
  | times p b hp => exact (hp he).times b
  | sepBy p sep b hp hsep => exact (hp he.1).sepBy (hsep he.2) b
  | manyUntil p stop b hp hstop => exact (hp he.1).manyUntil (hstop he.2) b
  | tryMap p f hp => exact (hp he).tryMap f
  | bind p f hp hf => exact (hp he.1).bind fun v => hf v (he.2 v)
  | mark p hp => exact (hp he).mark
  | desc p label hp => exact (hp he).desc label
  | shouldFail p label hp => exact (hp he).shouldFail label
  | peek p hp => exact (hp he).peek
  | traced p name hp => exact (hp he).traced hK name
  | deferred found enter hp => exact .deferred he.1 fun v => hp v (he.2 v)
  | rule body hp => exact fun xs i => hp xs i (he xs i) xs i

end Furthest
