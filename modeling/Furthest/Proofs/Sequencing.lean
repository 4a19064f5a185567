import Mathlib.Data.Fin.VecNotation
import Mathlib.Data.Set.List
import Furthest.Proofs.DescribedVariation
import Furthest.Proofs.Reports

/-!
# Ways to run one parser after another

A `Row` has library parsers of any types. `Row.inTurn` is what it means to run them one after another: each from the
cursor that the one before it reached, until one fails, and with all that they have seen. `Parser.Sequences` has that a
parser reports the values that they find so, with what they have seen together.

What is built of a row does: the tuple of its values in one pass or by pairs, a chain of `bind`s, and every chain of
`andThen` and `skip`, which keeps the value at one position (`Row.Brackets`). Parsers of one type are run by `sequence`
as well, and by `tuple`. All are compared to `Row.onePassFrom`, which hands the record along from parser to parser, as
`sequence` does.

Main statement: `sequencing_forms_agree`.
-/

namespace Furthest

variable {σ ι α β γ δ ε : Type} {αs βs : List Type} {a : Alphabet}

/-! ## Values of several types -/

/-- A value of each type. -/
abbrev Values : List Type → Type
  | [] => Unit
  | α :: αs => α × Values αs

namespace Values

def append : {αs βs : List Type} → Values αs → Values βs → Values (αs ++ βs)
  | [], _, _, ws => ws
  | _ :: _, _, (v, vs), ws => (v, append vs ws)

/-- The values, if they are of one type. -/
def toList : {n : Nat} → Values (List.replicate n α) → List α
  | 0, _ => []
  | _ + 1, (v, vs) => v :: toList vs

end Values

/-- A place of a type in a list of types. -/
inductive Position (α : Type) : List Type → Type 1 where
  | here {αs : List Type} : Position α (α :: αs)
  | there {β : Type} {αs : List Type} (k : Position α αs) : Position α (β :: αs)

namespace Position

/-- The same place, with more types at the end. -/
def left : {αs βs : List Type} → Position α αs → Position α (αs ++ βs)
  | _, _, here => here
  | _, _, there k => there k.left

/-- The same place, with more types before it. -/
def right : {αs βs : List Type} → Position α βs → Position α (αs ++ βs)
  | [], _, k => k
  | _ :: _, _, k => there (right k)

end Position

namespace Values

/-- The value at a place. -/
def get : {αs : List Type} → Values αs → Position α αs → α
  | _ :: _, (v, _), .here => v
  | _ :: _, (_, vs), .there k => get vs k

@[simp] theorem get_append_left (vs : Values αs) (ws : Values βs) (k : Position α αs) :
    (vs.append ws).get k.left = vs.get k := by
  induction k with
  | here => rfl
  | there k ih => exact ih vs.2

@[simp] theorem get_append_right (vs : Values αs) (ws : Values βs) (k : Position α βs) :
    (vs.append ws).get k.right = ws.get k := by
  induction αs with
  | nil => rfl
  | cons β αs ih => exact ih vs.2

end Values

/-! ## Rows of parsers -/

/-- Library parsers of some types. -/
inductive Row (σ ι : Type) : List Type → Type 1 where
  | nil : Row σ ι []
  | cons {α : Type} {αs : List Type} (e : Combination σ ι α) (es : Row σ ι αs) : Row σ ι (α :: αs)

namespace Row

def append : {αs βs : List Type} → Row σ ι αs → Row σ ι βs → Row σ ι (αs ++ βs)
  | _, _, nil, fs => fs
  | _, _, cons e es, fs => cons e (es.append fs)

/-- The row of a list of parsers. -/
def ofList : (es : List (Combination σ ι α)) → Row σ ι (List.replicate es.length α)
  | [] => nil
  | e :: es => cons e (ofList es)

/-- Runs the parsers one after another until one fails: the values and the cursor that they reach, or none, and the
records of all that were run. -/
def inTurn (xs : List ι) : {αs : List Type} → Row σ ι αs → Nat → Run σ (Option (Values αs × Nat) × List Record)
  | _, nil, i => return (some ((), i), [])
  | _, cons e es, i => do
    match ← e.parser xs i with
    | .failure _ r => return (none, [r])
    | .success v n r =>
      let (found, rs) ← es.inTurn xs n
      return (found.map (Prod.map (v, ·) id), r :: rs)

/-- Runs the rest of a row in one pass, with the record of what ran before. -/
def onePassFrom (xs : List ι) : {αs : List Type} → Row σ ι αs → Nat → Record → Run σ (Result (Values αs))
  | _, nil, i, r => return .success () i r
  | _, cons e es, i, r => do
    ((← e.parser xs i).aggregate r).proceed fun v n r => return (← es.onePassFrom xs n r).map (v, ·)

/-- The values of a row, in one pass. -/
def onePass (es : Row σ ι αs) : Parser σ ι (Values αs) := fun xs i => es.onePassFrom xs i ∅

/-- The values of a row, by pairs. -/
def tuple : {αs : List Type} → Row σ ι αs → Combination σ ι (Values αs)
  | _, nil => .primitive (.succeed ())
  | _, cons e es => .pair e es.tuple

/-- Goes on from each value to the next parser, and at last succeeds with what a function makes of the values. -/
def bindTo : {αs : List Type} → Row σ ι αs → (Values αs → β) → Combination σ ι β
  | _, nil, f => .primitive (.succeed (f ()))
  | _, cons e es, f => .bind e fun v => es.bindTo fun vs => f (v, vs)

/-- A chain of `andThen` and `skip` over the parsers of a row, in some bracketing, keeps the value at a place. -/
inductive Brackets : {α : Type} → {αs : List Type} → Row σ ι αs → Position α αs → Combination σ ι α → Prop
  | single {α : Type} (e : Combination σ ι α) : Brackets (cons e nil) .here e
  | andThen {α β : Type} {αs βs : List Type} {es : Row σ ι αs} {fs : Row σ ι βs} {k : Position α αs}
    {l : Position β βs} {e : Combination σ ι α} {f : Combination σ ι β} (he : Brackets es k e) (hf : Brackets fs l f) :
    Brackets (es.append fs) l.right (.andThen e f)
  | skip {α β : Type} {αs βs : List Type} {es : Row σ ι αs} {fs : Row σ ι βs} {k : Position α αs}
    {l : Position β βs} {e : Combination σ ι α} {f : Combination σ ι β} (he : Brackets es k e) (hf : Brackets fs l f) :
    Brackets (es.append fs) k.left (.skip e f)

end Row

/-- The parser reports what a function makes of the values that a row finds in turn, and what it has seen together. It
changes the environment as the row does, and is given up with the same fault. -/
def Parser.Sequences (p : Parser σ ι β) (es : Row σ ι αs) (f : Values αs → β) : Prop :=
  ∀ xs i, (do return (← p xs i).report) = do
    let (found, rs) ← es.inTurn xs i
    return (found.map (Prod.map f id), .mergeAll rs)

/-! ## In one pass -/

namespace Row

/-- The pass hands on the record that it is handed. -/
theorem handsOn (es : Row σ ι αs) (xs : List ι) (i : Nat) : Run.HandsOn (es.onePassFrom xs i) := by
  induction es generalizing i with
  | nil => exact .success () i
  | cons e es ih => exact .step e (fun v n => (ih n).map (v, ·)) xs i

/-- The pass merges the records as they come. -/
theorem report_onePassFrom (es : Row σ ι αs) (xs : List ι) (i : Nat) {r : Record} (hr : r.Proper) :
    (do return (← es.onePassFrom xs i r).report) = do
      let (found, rs) ← es.inTurn xs i
      return (found, (Record.mergeAll rs).merge r) := by
  induction es generalizing i r with
  | nil =>
    show (do return (some ((), i), r) : Run σ _) = do return (some ((), i), (∅ : Record).merge r)
    rw [Record.empty_merge hr]
  | cons e es ih =>
    simp only [onePassFrom, inTurn, bind_assoc]
    refine Run.bind_congr_of_outcome fun env o ho => ?_
    have hwell := e.wellFormed ho
    cases o with
    | success v n t =>
      have hrest := congrArg (· >>= fun told => Pure.pure (told.1.map (Prod.map (v, ·) id), told.2))
        (ih n (hwell.aggregate r).proper)
      simpa only [Result.aggregate, Result.furthest, Result.proceed, bind_assoc, pure_bind, Result.report_map,
        Record.mergeAll_cons, Record.merge_assoc] using hrest
    | failure c t =>
      obtain ⟨k, hk⟩ := (hwell.aggregate r).index_of_failure
      have ht : (∅ : Record).merge t = t := Record.empty_merge hwell.proper
      simp only [pure_bind, Record.mergeAll_cons, Record.mergeAll_nil, ht]
      exact Parser.ofRecord_bind_report hk

/-- The rest of the row is gone on with after its first parser. -/
theorem onePassFrom_cons (e : Combination σ ι α) (es : Row σ ι αs) (f : Values (α :: αs) → β) (xs : List ι) (i : Nat)
    (r : Record) :
    (do return (← (cons e es).onePassFrom xs i r).map f) = (do
      ((← e.parser xs i).aggregate r).proceed fun v n r =>
        return (← es.onePassFrom xs n r).map fun vs => f (v, vs)) := by
  simp only [onePassFrom, bind_assoc]
  refine bind_congr fun o => (Result.proceed_map _ _ f).trans ?_
  simp only [bind_assoc, pure_bind, Result.map_map]

/-- What is appended to a row is gone on with after it. -/
theorem onePassFrom_append (es : Row σ ι αs) (fs : Row σ ι βs) (f : Values (αs ++ βs) → γ) (xs : List ι) (i : Nat)
    (r : Record) :
    (do return (← (es.append fs).onePassFrom xs i r).map f) = (do
      (← es.onePassFrom xs i r).proceed fun vs n s =>
        return (← fs.onePassFrom xs n s).map fun ws => f (vs.append ws)) := by
  induction es generalizing i r with
  | nil => rfl
  | cons e es ih =>
    refine (onePassFrom_cons e (es.append fs) f xs i r).trans ?_
    simp only [onePassFrom, bind_assoc, Result.proceed_proceed, pure_bind, Result.map_proceed, ih]
    rfl

/-- A parser runs a row exactly if it reports what one pass over the row does. -/
theorem sequences_iff {p : Parser σ ι β} {es : Row σ ι αs} {f : Values αs → β} :
    p.Sequences es f ↔ ∀ xs i, (p xs i).SameReport do return (← es.onePassFrom xs i ∅).map f := by
  refine forall_congr' fun xs => forall_congr' fun i => ?_
  have hpass := congrArg (· >>= fun told => Pure.pure (told.1.map (Prod.map f id), told.2))
    (es.report_onePassFrom xs i Record.proper_empty)
  simp only [bind_assoc, pure_bind, Record.merge_empty, ← Result.report_map] at hpass
  unfold Run.SameReport
  simp only [bind_assoc, pure_bind, hpass]

end Row

/-! ## The forms -/

namespace Row

theorem sequences_onePass (es : Row σ ι αs) : es.onePass.Sequences es fun vs => vs :=
  sequences_iff.2 fun xs i => by
    simp only [Result.map_id', bind_pure]
    exact .refl _

/-- Pairs of a value and the values after it. -/
theorem tuple_reports (es : Row σ ι αs) (xs : List ι) (i : Nat) :
    Run.SameReport (es.tuple.parser xs i) (es.onePassFrom xs i ∅) := by
  induction es generalizing i with
  | nil => exact .refl _
  | cons e es ih =>
    have hpair := Parser.pair_reports (e := e) (i := i) ih (es.handsOn xs)
    simp only [onePassFrom, Result.aggregate_empty]
    exact hpair

theorem sequences_tuple (es : Row σ ι αs) : es.tuple.parser.Sequences es fun vs => vs :=
  sequences_iff.2 fun xs i => by
    simp only [Result.map_id', bind_pure]
    exact es.tuple_reports xs i

theorem sequences_map_tuple (es : Row σ ι αs) (f : Values αs → β) : (es.tuple.parser.map f).Sequences es f :=
  sequences_iff.2 fun xs i => (Parser.map_reports es.tuple f xs i).trans ((es.tuple_reports xs i).map f)

theorem sequences_bindTo (es : Row σ ι αs) (f : Values αs → β) : (es.bindTo f).parser.Sequences es f := by
  refine sequences_iff.2 fun xs i => ?_
  induction es generalizing i with
  | nil => exact .refl _
  | cons e es ih =>
    rw [onePassFrom_cons]
    simp only [Result.aggregate_empty]
    exact Parser.bind_reports (fun v n => ih (fun vs => f (v, vs)) n) fun v n => (es.handsOn xs n).map _

/-- A row of one parser. -/
theorem single_reports (e : Combination σ ι α) (xs : List ι) (i : Nat) :
    Run.SameReport (e.parser xs i) (do return (← (cons e nil).onePassFrom xs i ∅).map Prod.fst) := by
  rw [onePassFrom_cons]
  have hsame := Parser.map_reports e (fun v => v) xs i
  simp only [Result.map_id', bind_pure] at hsame
  simp only [Result.aggregate_empty]
  exact hsame.symm

theorem sequences_combine₂ (e : Combination σ ι α) (f : Combination σ ι β) (g : α → β → γ) :
    (Parser.combine₂ g e.parser f.parser).Sequences (cons e (cons f nil)) fun (v, w, _) => g v w := by
  refine sequences_iff.2 fun xs i => ?_
  have hcombine := Parser.combine₂_reports (e := e) (i := i) (single_reports f xs)
    (fun n => ((cons f nil).handsOn xs n).map Prod.fst) g
  rw [onePassFrom_cons]
  simpa only [Result.aggregate_empty, bind_assoc, pure_bind, Result.map_map] using hcombine

/-- What is kept of a row may be gone on from in place of its parsers. -/
theorem reports_proceed {e : Combination σ ι α} {es : Row σ ι αs} {k : Position α αs}
    (he : e.parser.Sequences es (·.get k)) (xs : List ι) (i : Nat) (go : α → Nat → Record → Run σ (Result β)) :
    Run.SameReport (do (← e.parser xs i).proceed go)
      (do (← es.onePassFrom xs i ∅).proceed fun vs n r => go (vs.get k) n r) := by
  have hgo := (sequences_iff.1 he xs i).bind fun o o' ho => .proceed ho fun v n r => .refl (go v n r)
  simpa only [bind_assoc, pure_bind, Result.map_proceed] using hgo

theorem Brackets.sequences {es : Row σ ι αs} {k : Position α αs} {e : Combination σ ι α} (h : Brackets es k e) :
    e.parser.Sequences es (·.get k) := by
  induction h with
  | single e => exact sequences_iff.2 (single_reports e)
  | andThen he hf ihe ihf =>
    refine sequences_iff.2 fun xs i => ?_
    rw [onePassFrom_append]
    simp only [Values.get_append_right]
    exact (Parser.bind_reports (fun _ n => sequences_iff.1 ihf xs n) fun _ n => (handsOn _ xs n).map _).trans
      (reports_proceed ihe xs i _)
  | skip he hf ihe ihf =>
    refine sequences_iff.2 fun xs i => ?_
    rw [onePassFrom_append]
    simp only [Values.get_append_left]
    have hskip := (Parser.skip_reports (i := i) (sequences_iff.1 ihf xs) fun n => (handsOn _ xs n).map _).trans
      (reports_proceed ihe xs i _)
    simp only [bind_assoc, pure_bind, Result.map_map] at hskip
    exact hskip

end Row

/-! ## Lists of parsers of one type -/

namespace Combination

/-- The tuple of the values of a list of parsers, by pairs. -/
def tuple : List (Combination σ ι α) → Combination σ ι (List α)
  | [] => .primitive (.succeed [])
  | e :: es => .tryMap (.pair e (tuple es)) fun (v, vs) => .ok (v :: vs)

theorem parser_tuple (es : List (Combination σ ι α)) : (tuple es).parser = Parser.tuple (es.map parser) := by
  induction es with
  | nil => rfl
  | cons e es ih => rw [List.map_cons, Parser.tuple, ← ih]; rfl

theorem parser_sequence (es : List (Combination σ ι α)) :
    (sequence es.get).parser = Parser.sequence (es.map parser) :=
  congrArg Parser.sequence (map_finRange_eq es)

end Combination

namespace Parser

/-- What is appended to a list is gone on with after it. -/
theorem sequenceFrom_append (ps qs : List (Parser σ ι α)) (xs : List ι) (i : Nat) (r : Record) :
    sequenceFrom xs (ps ++ qs) i r = (do
      (← sequenceFrom xs ps i r).proceed fun vs n s => return (← sequenceFrom xs qs n s).map (vs ++ ·)) := by
  induction ps generalizing i r with
  | nil =>
    simp only [List.nil_append, sequenceFrom, pure_bind, Result.proceed, Result.map_id', bind_pure]
  | cons p ps ih =>
    simp only [List.cons_append, sequenceFrom, bind_assoc, Result.proceed_proceed, pure_bind, Result.map_proceed, ih,
      Result.proceed_map, Result.map_map]

/-- A list is run as the row of its parsers, in one pass. -/
theorem sequenceFrom_eq_onePassFrom (es : List (Combination σ ι α)) (xs : List ι) (i : Nat) (r : Record) :
    sequenceFrom xs (es.map Combination.parser) i r =
      do return (← (Row.ofList es).onePassFrom xs i r).map Values.toList := by
  induction es generalizing i r with
  | nil => rfl
  | cons e es ih =>
    simp only [List.map_cons, sequenceFrom, ih, bind_assoc, pure_bind, Result.map_map]
    exact (Row.onePassFrom_cons e (Row.ofList es) (Values.toList (n := es.length + 1)) xs i r).symm

theorem handsOn_sequenceFrom (es : List (Combination σ ι α)) (xs : List ι) (i : Nat) :
    Run.HandsOn (sequenceFrom xs (es.map Combination.parser) i) := by
  rw [funext (sequenceFrom_eq_onePassFrom es xs i)]
  exact ((Row.ofList es).handsOn xs i).map Values.toList

theorem sequences_sequence (es : List (Combination σ ι α)) :
    (sequence (es.map Combination.parser)).Sequences (Row.ofList es) Values.toList :=
  Row.sequences_iff.2 fun xs i => by
    rw [← sequenceFrom_eq_onePassFrom]
    exact .refl _

/-- A tuple by pairs reports as a list in one pass. -/
theorem tuple_reports (es : List (Combination σ ι α)) :
    (tuple (es.map Combination.parser)).ReportsAs (sequence (es.map Combination.parser)) := by
  induction es with
  | nil => exact .refl _
  | cons e es ih =>
    intro xs i
    rw [← Combination.parser_tuple] at ih
    have hcombine := combine₂_reports (e := e) (f := .tuple es) (i := i) (ih xs) (handsOn_sequenceFrom es xs) List.cons
    rw [Combination.parser_tuple] at hcombine
    simp only [sequence, List.map_cons, sequenceFrom, Result.aggregate_empty]
    exact hcombine

theorem sequences_tuple (es : List (Combination σ ι α)) :
    (tuple (es.map Combination.parser)).Sequences (Row.ofList es) Values.toList := fun xs i =>
  (tuple_reports es xs i).trans (sequences_sequence es xs i)

theorem sequence_append_reports (es fs : List (Combination σ ι α)) :
    (sequence ((es ++ fs).map Combination.parser)).ReportsAs
      (combine₂ (· ++ ·) (sequence (es.map Combination.parser)) (sequence (fs.map Combination.parser))) := by
  intro xs i
  have hrest (n : Nat) :
      Run.SameReport ((Combination.sequence fs.get).parser xs n) (sequenceFrom xs (fs.map Combination.parser) n ∅) := by
    rw [Combination.parser_sequence]
    exact .refl _
  have hcombine := combine₂_reports (e := .sequence es.get) (i := i) hrest (handsOn_sequenceFrom fs xs) (· ++ ·)
  rw [Combination.parser_sequence, Combination.parser_sequence] at hcombine
  refine .trans ?_ hcombine.symm
  unfold sequence
  rw [List.map_append, sequenceFrom_append]

end Parser

/-! ## Described parsers -/

namespace Parser

/-- A list of two parsers is a pair of them. -/
theorem sequence_pair_tryMap (p q : Parser σ ι α) (f : List α → Except Fault β) :
    (sequence [p, q]).tryMap f = (p.pair q).tryMap fun (v, w) => f [v, w] :=
  funext fun xs => funext fun i => by
    simp only [sequence, sequenceFrom, tryMap, pair, Result.aggregate_empty, bind_assoc, Result.proceed_proceed,
      pure_bind, Result.map_proceed]
    rfl

/-- Values may be changed after both are found. -/
theorem pair_map (e : Combination σ ι α) (f : Combination σ ι β) (g : α → γ) (h : β → δ) (k : γ × δ → Except Fault ε) :
    ((e.parser.map g).pair (f.parser.map h)).tryMap k = (e.parser.pair f.parser).tryMap fun (v, w) => k (g v, h w) := by
  have hchanged {α β : Type} (v : α) (g : α → β) : (Run.ofExcept (.ok (g v)) : Run σ β) = pure (g v) := rfl
  funext xs i
  simp only [tryMap, pair, map, bind_assoc, Result.proceed_proceed, pure_bind, hchanged]
  refine bind_congr fun o => congrArg o.proceed (funext fun v => funext fun n => funext fun r => ?_)
  refine Run.bind_congr_of_outcome fun env o' ho => ?_
  cases o' with
  | success w m s => rfl
  | failure c s =>
    -- A failure is made anew before the record of the first parser is added, and so needs an index of its own.
    obtain ⟨j, hj⟩ := (f.wellFormed ho).index_of_failure
    simp only [Result.proceed, Result.ofRecord_eq_ok_iff.2 ⟨j, hj, rfl⟩]
    rfl

/-- Two values are added as the values of a pair. -/
theorem onPair_reports (e f : Combination σ ι Value) (add : Value → Value → Except Fault Value) :
    (((tuple [e.parser, f.parser]).map .tuple).tryMap (Value.onPair add)).ReportsAs
      ((e.parser.pair f.parser).tryMap fun (v, w) => add v w) := by
  have htuple := tryMap_tryMap (.tuple [e, f]) (fun vs => .ok (.tuple vs)) (Value.onPair add)
  have hsequence := (tuple_reports [e, f]).tryMap fun vs => Value.onPair add (.tuple vs)
  rw [Combination.parser_tuple] at htuple
  rw [List.map_cons, List.map_cons, List.map_nil] at htuple hsequence
  rw [sequence_pair_tryMap] at hsequence
  exact htuple.trans hsequence

/-- Lists that are added as values are joined. -/
theorem addLists_reports (e f : Combination σ ι (List Value)) :
    (((tuple [e.parser.map .list, f.parser.map .list]).map .tuple).tryMap (Value.onPair Value.addLists)).ReportsAs
      ((combine₂ (· ++ ·) e.parser f.parser).map .list) := by
  have hadd := onPair_reports (e.tryMap fun vs => .ok (.list vs)) (f.tryMap fun vs => .ok (.list vs)) Value.addLists
  have hjoined := tryMap_tryMap (.pair e f) (fun (v, w) => .ok (v ++ w)) fun vs => .ok (Value.list vs)
  have hpair := pair_map e f Value.list Value.list fun (v, w) => v.addLists w
  exact hadd.trans (.trans (.of_eq hpair) hjoined.symm)

end Parser

namespace Grammar

variable (limit : Nat) (ps qs : List (Grammar a))

theorem exists_parsers_eq : ∃ es : List (Combination (Store a) a.Carrier Value),
    es.map Combination.parser = qs.map (parserWithin limit) := by
  have hmem : qs.map (parserWithin limit) ∈ Set.range (List.map Combination.parser) := by
    rw [Set.range_list_map]
    intro p hp
    obtain ⟨q, -, rfl⟩ := List.mem_map.1 hp
    exact (combined_parserWithin limit q).imp fun _ => And.right
  exact hmem

theorem parserWithin_tuple :
    (tuple qs).parserWithin (limit + 1) = (Parser.tuple (qs.map (parserWithin (limit + 1)))).map .tuple :=
  congrArg (fun ps => (Parser.tuple ps).map Value.tuple) (parsersBy_eq_map _ qs)

theorem parserWithin_sequence :
    (sequence qs).parserWithin (limit + 1) = (Parser.sequence (qs.map (parserWithin (limit + 1)))).map .list :=
  congrArg (fun ps => (Parser.sequence ps).map Value.list) (parsersBy_eq_map _ qs)

/-- What is made of a described tuple may be made of the list. -/
theorem tuple_tryMap_reports (f : List Value → Except Fault Value) :
    ((Parser.tuple (qs.map (parserWithin (limit + 1)))).tryMap f).ReportsAs
      ((map (sequence qs) fun v => do f (← v.list?)).parserWithin (limit + 1)) := by
  obtain ⟨es, hes⟩ := exists_parsers_eq (limit + 1) qs
  have hsequence := Parser.tryMap_tryMap (.sequence es.get) (fun vs => .ok (Value.list vs)) fun v => do f (← v.list?)
  rw [Combination.parser_sequence, hes] at hsequence
  show Parser.ReportsAs _ (((sequence qs).parserWithin (limit + 1)).tryMap _)
  rw [parserWithin_sequence]
  refine .trans ?_ hsequence.symm
  rw [← hes]
  exact (Parser.tuple_reports es).tryMap f

theorem tuple_reports : ((tuple qs).parserWithin limit).ReportsAs
    ((map (sequence qs) fun v => do return .tuple (← v.list?)).parserWithin limit) := by
  cases limit with
  | zero => exact .refl _
  | succ limit =>
    rw [parserWithin_tuple]
    exact tuple_tryMap_reports limit qs fun vs => .ok (.tuple vs)

theorem combine_reports (f : List Value → Except Fault Value) : ((combine qs f).parserWithin limit).ReportsAs
    ((map (sequence qs) fun v => do f (← v.list?)).parserWithin limit) := by
  cases limit with
  | zero => exact .refl _
  | succ limit =>
    obtain ⟨es, hes⟩ := exists_parsers_eq (limit + 1) qs
    have htuple := Parser.tryMap_tryMap (.tuple es) (fun vs => .ok (.tuple vs)) (Value.onTuple f)
    rw [Combination.parser_tuple, hes] at htuple
    show (((tuple qs).parserWithin (limit + 1)).tryMap (Value.onTuple f)).ReportsAs _
    rw [parserWithin_tuple]
    exact htuple.trans (tuple_tryMap_reports limit qs f)

/-- Described lists that are added are joined. -/
theorem plus_addLists_reports {p q : Grammar a} {e f : Combination (Store a) a.Carrier (List Value)}
    (hp : p.parserWithin (limit + 1) = e.parser.map .list) (hq : q.parserWithin (limit + 1) = f.parser.map .list) :
    ((plus p q Value.addLists).parserWithin (limit + 1)).ReportsAs
      ((Parser.combine₂ (· ++ ·) e.parser f.parser).map .list) := by
  have hadd := Parser.addLists_reports e f
  rwa [← hp, ← hq] at hadd

theorem sequence_append_reports : ((sequence (ps ++ qs)).parserWithin limit).ReportsAs
    ((plus (sequence ps) (sequence qs) Value.addLists).parserWithin limit) := by
  cases limit with
  | zero => exact .refl _
  | succ limit =>
    obtain ⟨es, hes⟩ := exists_parsers_eq (limit + 1) ps
    obtain ⟨fs, hfs⟩ := exists_parsers_eq (limit + 1) qs
    have happend := (Parser.sequence_append_reports es fs).tryMap fun vs => .ok (Value.list vs)
    have hplus := plus_addLists_reports limit (p := sequence ps) (q := sequence qs) (e := .sequence es.get)
      (f := .sequence fs.get) (by rw [Combination.parser_sequence, hes, parserWithin_sequence])
      (by rw [Combination.parser_sequence, hfs, parserWithin_sequence])
    rw [Combination.parser_sequence, Combination.parser_sequence] at hplus
    rw [parserWithin_sequence, List.map_append, ← hes, ← hfs, ← List.map_append]
    exact happend.trans hplus.symm

end Grammar

/-! ## Main statement -/

/-- All ways to run parsers one after another agree. Over a row of library parsers of any types: the tuple of their
values in one pass and by pairs, what a function makes of the tuple, a chain of `bind`s and every bracketing of a chain
of `andThen` and `skip` run the parsers in turn, and so do two combined ones. Over a list of parsers of one type, so do
`sequence` and `tuple`; and a list that is appended may be run after the first one, with the values joined. Described
parsers agree alike, to every depth in which parsers are entered. -/
theorem sequencing_forms_agree :
    (∀ (αs : List Type) (es : Row σ ι αs),
      es.onePass.Sequences es (fun vs => vs) ∧ es.tuple.parser.Sequences es (fun vs => vs) ∧
      (∀ (β : Type) (f : Values αs → β),
        (es.tuple.parser.map f).Sequences es f ∧ (es.bindTo f).parser.Sequences es f) ∧
      ∀ (α : Type) (k : Position α αs) (e : Combination σ ι α), es.Brackets k e → e.parser.Sequences es (·.get k)) ∧
    (∀ (α β γ : Type) (e : Combination σ ι α) (f : Combination σ ι β) (g : α → β → γ),
      (Parser.combine₂ g e.parser f.parser).Sequences (.cons e (.cons f .nil)) fun (v, w, _) => g v w) ∧
    (∀ (α : Type) (es fs : List (Combination σ ι α)),
      (Parser.sequence (es.map Combination.parser)).Sequences (.ofList es) Values.toList ∧
      (Parser.tuple (es.map Combination.parser)).Sequences (.ofList es) Values.toList ∧
      (Parser.sequence (es.map Combination.parser ++ fs.map Combination.parser)).ReportsAs
        (Parser.combine₂ (· ++ ·) (Parser.sequence (es.map Combination.parser))
          (Parser.sequence (fs.map Combination.parser)))) ∧
    ∀ (a : Alphabet) (ps qs : List (Grammar a)) (f : List Value → Except Fault Value) (limit : Nat),
      ((Grammar.tuple qs).parserWithin limit).ReportsAs
        ((Grammar.map (.sequence qs) fun v => do return .tuple (← v.list?)).parserWithin limit) ∧
      ((Grammar.combine qs f).parserWithin limit).ReportsAs
        ((Grammar.map (.sequence qs) fun v => do f (← v.list?)).parserWithin limit) ∧
      ((Grammar.sequence (ps ++ qs)).parserWithin limit).ReportsAs
        ((Grammar.plus (.sequence ps) (.sequence qs) Value.addLists).parserWithin limit) := by
  refine ⟨fun αs es => ⟨es.sequences_onePass, ?_, fun β f => ⟨es.sequences_map_tuple f, es.sequences_bindTo f⟩,
    fun α k e h => h.sequences⟩, fun α β γ => Row.sequences_combine₂, fun α es fs =>
    ⟨Parser.sequences_sequence es, Parser.sequences_tuple es, ?_⟩, fun a ps qs f limit =>
    ⟨Grammar.tuple_reports limit qs, Grammar.combine_reports limit qs f,
      Grammar.sequence_append_reports limit ps qs⟩⟩
  · exact es.sequences_tuple
  · rw [← List.map_append]
    exact Parser.sequence_append_reports es fs

/-- Two bracketings that keep the second of three values. The first parser has absorbed a failure at the cursor where
the second one fails, and both are reported. -/
theorem sequencing_forms_agree_of_absorbed :
    let x : Combination Unit UInt8 Bytes := .primitive (.str [97])
    let y : Combination Unit UInt8 Bytes := .primitive (.str [98])
    let both : Combination Unit UInt8 Bytes := .alt ![.andThen x y, x]
    let es : Row Unit UInt8 [Bytes, Bytes, Bytes] := .cons both (.cons x (.cons y .nil))
    let second : Position Bytes [Bytes, Bytes, Bytes] := .there .here
    let left : Combination Unit UInt8 Bytes := .skip (.andThen both x) y
    let right : Combination Unit UInt8 Bytes := .andThen both (.skip x y)
    let env : Env Unit := ⟨.ofLevel .off, ()⟩
    (es.Brackets second left ∧ left.parser.Sequences es (·.get second)) ∧
      (es.Brackets second right ∧ right.parser.Sequences es (·.get second)) ∧
      ((left.parser [97, 97, 98] 0).outcome env).map Result.report = .ok (some ([97], 3), .raised 1 (.singleton [98])) ∧
      ((right.parser [97, 99] 0).outcome env).map Result.report =
        .ok (none, .raised 1 (.singleton [97] ∪ .singleton [98])) := by
  intro x y both es second left right env
  have hleft : es.Brackets second left := .skip (.andThen (.single both) (.single x)) (.single y)
  have hright : es.Brackets second right := .andThen (.single both) (.skip (.single x) (.single y))
  have hagree := (sequencing_forms_agree.1 _ es).2.2.2 _ second
  exact ⟨⟨hleft, hagree left hleft⟩, ⟨hright, hagree right hright⟩, rfl, rfl⟩

end Furthest
