import Furthest.Proofs.LazyConstruction
import Furthest.Proofs.Repeatability

/-!
# Left factoring

A choice between two ways to go on from a parser tries the parser again before the second way. That is the same as to
choose after the parser: if it can be run again, its second outcome is the first one, and what it has seen is merged
with itself. `Result.choose_continued` has that of outcomes, whatever was tried fails where.

Described parsers can be run again, but a choice that is described after a parser is built as a whole, and so before its
first part is invoked: a second part that cannot be built makes a difference.

Main statement: `left_factoring`.
-/

namespace Furthest

variable {σ ι α β : Type} {a : Alphabet}

namespace Record

/-- What is seen before two attempts is seen once. -/
theorem merge_merge_merge {r s : Record} (hr : r.Proper) (hs : s.Proper) (t : Record) :
    (t.merge r).merge (s.merge r) = (t.merge s).merge r := by
  have hrs : r.merge (s.merge r) = s.merge r := by
    rw [merge_comm hs hr, ← merge_assoc, merge_self]
  rw [merge_assoc, hrs, ← merge_assoc]

end Record

namespace Result

/-- To choose between two ways to go on from an outcome is to go on with a choice. -/
theorem choose_continued {o : Except Fault (Result α)} {f g : α → Nat → Except Fault (Result β)}
    (ho : ∀ r, o = .ok r → r.WellFormed) (hf : ∀ v m r, f v m = .ok r → r.WellFormed) (i : Nat) :
    (choose i [continued o f, continued o g] ∅).map report =
      (continued o fun v m => choose m [f v m, g v m] ∅).map report := by
  rcases o with cause | ⟨v, m, r⟩ | ⟨c, r⟩
  · rfl
  · show (choose i [do return (← f v m).aggregate r, do return (← g v m).aggregate r] ∅).map report =
      Except.map report do return (← choose m [f v m, g v m] ∅).aggregate r
    rcases hfirst : f v m with cause | ⟨w, n, s⟩ | ⟨c, s⟩
    · rfl
    · show Except.ok (some (w, n), (s.merge r).merge ∅) = .ok (some (w, n), (s.merge ∅).merge r)
      rw [Record.merge_empty, Record.merge_empty]
    · -- The first way fails: on the left, the second attempt sees `r` again.
      have hs : s.isEngaged := (hf v m _ hfirst).isEngaged_of_failure
      have hr : r.Proper := (ho _ rfl).proper
      have hseen (t : Record) : (t.merge r).merge ((s.merge r).merge ∅) = (t.merge (s.merge ∅)).merge r := by
        rw [Record.merge_empty, Record.merge_empty,
          Record.merge_merge_merge hr (Record.proper_of_isEngaged hs)]
      rcases g v m with cause | ⟨w, n, t⟩ | ⟨c', t⟩
      · rfl
      · exact congrArg (fun u => Except.ok (some (w, n), u)) (hseen t)
      · show (choose i [] ((t.merge r).merge ((s.merge r).merge ∅))).map report =
          Except.map report do return (← choose m [] (t.merge (s.merge ∅))).aggregate r
        have hleft : ((t.merge r).merge ((s.merge r).merge ∅)).isEngaged := by simp [hs]
        have hright : (t.merge (s.merge ∅)).isEngaged := by simp [hs]
        obtain ⟨k, hk⟩ := Record.isEngaged_iff.1 hleft
        obtain ⟨k', hk'⟩ := Record.isEngaged_iff.1 hright
        rw [choose_nil hk, choose_nil hk']
        exact congrArg (fun u => Except.ok (none, u)) (hseen t)
  · obtain ⟨k, hk⟩ := (ho _ rfl).index_of_failure
    have hended (next : α → Nat → Except Fault (Result β)) : continued (.ok (.failure c r)) next = .ok (.failure k r) :=
      ofRecord_eq_ok_iff.2 ⟨k, hk, rfl⟩
    rw [hended, hended, hended]
    show (choose i [] (r.merge (r.merge ∅))).map report = _
    rw [Record.merge_empty, Record.merge_self, choose_nil hk]

end Result

/-! ## Parsers that agree -/

namespace Parser

/-- At a cursor, two parsers are given up with the same fault or report the same, whatever they note on the way. -/
def AgreesWith (p q : Parser σ ι α) (xs : List ι) (i : Nat) (env : Env σ) : Prop :=
  ((p xs i).outcome env).map Result.report = ((q xs i).outcome env).map Result.report

/-- A parser that can be run again may be left out of two branches. -/
theorem orElse_bind (p : Combination σ ι α) (f g : α → Combination σ ι β) {steady : Env σ → Prop} {xs : List ι}
    {env : Env σ} (henv : steady env) (hp : p.parser.Answers xs steady fun j => (p.parser xs j).outcome env)
    (hf : ∀ v, (f v).parser.Answers xs steady fun j => ((f v).parser xs j).outcome env)
    (hg : ∀ v, (g v).parser.Answers xs steady fun j => ((g v).parser xs j).outcome env) (i : Nat) :
    ((p.parser.bind fun v => (f v).parser).orElse (p.parser.bind fun v => (g v).parser)).AgreesWith
      (p.parser.bind fun v => (f v).parser.orElse (g v).parser) xs i env := by
  simp only [answers_iff] at hp hf hg
  have hfirst := (hp i).parserBind fun v m => hf v m
  have hsecond := (hp i).parserBind fun v m => hg v m
  have hfactored := (hp i).parserBind fun v m => (hf v m).orElse (hg v m)
  rw [AgreesWith, ((hfirst.orElse hsecond) env henv).1, (hfactored env henv).1]
  exact Result.choose_continued (fun r hr => p.wellFormed hr) (fun v m r hr => (f v).wellFormed hr) i

end Parser

/-! ## Described parsers -/

namespace Store

variable (s : Store a) {limit : Nat} {xs : List a.Carrier} {i : Nat}

/-- What is linked of a description ends as a description that goes on with it at once. -/
theorem linkedOutcome_eq_cachelessOutcome (p : Grammar a) :
    s.linkedOutcome limit p xs i = s.cachelessOutcome (limit + 1) (.bind (.succeed .unit) fun _ => p) xs i := by
  show _ = (((Parser.succeed Value.unit).bind fun _ =>
    Interpreter.entering (s.cacheless.parserWithin limit) (Run.ofExcept (s.naming.link p))) xs i).outcome _
  rw [Parser.bind_succeed_left]
  rfl

theorem gives_linked (p : Grammar a) :
    (Interpreter.entering (s.cacheless.parserWithin limit) (Run.ofExcept (s.naming.link p)) xs i).Gives
      (fun _ => True) (s.linkedOutcome limit p xs i) := by
  have hgives := (Run.Gives.ofExcept (s.naming.link p)).bind fun q => s.gives_cacheless limit q xs i
  rwa [← (hgives _ trivial).1] at hgives

/-- To go on from a description is to go on from its outcome with what is linked. -/
theorem cachelessOutcome_bind (p : Grammar a) (f : Value → Grammar a) :
    s.cachelessOutcome (limit + 1) (.bind p f) xs i =
      Result.continued (s.cachelessOutcome (limit + 1) p xs i) fun v m => s.linkedOutcome limit (f v) xs m :=
  ((s.gives_cacheless (limit + 1) p xs i).parserBind (fun v _ => s.gives_linked (f v)) _ trivial).1

theorem cachelessOutcome_andThen (p q : Grammar a) : s.cachelessOutcome (limit + 1) (.andThen p q) xs i =
    Result.continued (s.cachelessOutcome (limit + 1) p xs i) fun _ m => s.cachelessOutcome (limit + 1) q xs m :=
  ((s.gives_cacheless (limit + 1) p xs i).parserBind (fun _ => s.gives_cacheless (limit + 1) q xs) _ trivial).1

/-- A description is chosen by the outcomes of its parts. -/
theorem cachelessOutcome_alt_pair (p q : Grammar a) : s.cachelessOutcome (limit + 1) (.alt [p, q]) xs i =
    Result.choose i [s.cachelessOutcome (limit + 1) p xs i, s.cachelessOutcome (limit + 1) q xs i] ∅ :=
  ((s.gives_cacheless (limit + 1) p xs i).orElse (s.gives_cacheless (limit + 1) q xs i) _ trivial).1

/-- A choice of which the second part can be linked is chosen by what is linked of its parts. -/
theorem linkedOutcome_alt_pair (p : Grammar a) {q l : Grammar a} (hq : s.naming.link q = .ok l) :
    s.linkedOutcome limit (.alt [p, q]) xs i =
      Result.choose i [s.linkedOutcome limit p xs i, s.linkedOutcome limit q xs i] ∅ := by
  have halt : s.naming.link (.alt [p, q]) = do return .alt [← s.naming.link p, l] := by
    rw [Naming.link, Naming.linkAll, Naming.linkAll, Naming.linkAll, hq]
    cases s.naming.link p <;> rfl
  unfold linkedOutcome
  rw [halt, hq]
  cases hp : s.naming.link p with
  | error cause => rfl
  | ok k =>
    cases limit with
    | zero => rfl
    | succ limit => exact s.cachelessOutcome_alt_pair k l

end Store

namespace Grammar

variable {p q r : Grammar a} {f g : Value → Grammar a}

theorem alike_alt_pair {node : (built : Bool) → Grammar a → Grammar a → Prop} {b : Bool} (hp : Alike node b p p)
    (hq : Alike node b q q) : Alike node b (.alt [p, q]) (.alt [p, q]) :=
  .alt rfl fun
    | 0, _, _ => hp
    | 1, _, _ => hq

theorem within_bind {bound : Nat} (hp : p.Within bound) (hf : ∀ v, (f v).Plain) : (bind p f).Within bound :=
  .bind hp fun v => (hf v).mono fun _ _ _ _ => .mono (Nat.zero_le bound)

/-- What is linked of a description is well formed. -/
theorem wellFormed_linkedOutcome {s : Store a} (hs : s.Scoped) (hp : p.Plain) {limit : Nat} {xs : List a.Carrier}
    {i : Nat} {o : Result Value} (h : s.linkedOutcome limit p xs i = .ok o) : o.WellFormed := by
  rw [s.linkedOutcome_eq_cachelessOutcome] at h
  exact wellFormed_cachelessOutcome hs (within_bind (.leaf _) fun _ => hp) h

/-- A described parser may be left out of two branches, if what the second goes on with can be built. -/
theorem alt_bind {env : Env (Store a)} (hs : env.store.Scoped) (hp : p.Within env.store.cells.size)
    (hf : ∀ v, (f v).Plain) (hg : ∀ v, (g v).Plain) (hbuilds : ∀ v, ∃ q, (g v).build.outcome env = .ok q)
    (limit : Nat) (xs : List a.Carrier) (i : Nat) :
    ((alt [.bind p f, .bind p g]).parserWithin limit).AgreesWith
      ((bind p fun v => .alt [f v, g v]).parserWithin limit) xs i env := by
  have hbranches := alike_alt_pair (within_bind hp hf) (within_bind hp hg)
  have hfactored := within_bind hp fun v => alike_alt_pair (hf v) (hg v)
  rw [Parser.AgreesWith, (gives_cachelessOutcome hs hbranches limit xs i env hs.grown).1,
    (gives_cachelessOutcome hs hfactored limit xs i env hs.grown).1]
  cases limit with
  | zero => rfl
  | succ limit =>
    have hlinks (v : Value) : ∃ l, env.store.naming.link (g v) = .ok l := by
      obtain ⟨q, hq⟩ := hbuilds v
      rcases hlink : env.store.naming.link (g v) with cause | l
      · cases hq.symm.trans ((build_outcome_eq_error_iff (hg v) env hs).2 hlink)
      · exact ⟨l, rfl⟩
    choose l hl using hlinks
    simp only [Store.cachelessOutcome_alt_pair, Store.cachelessOutcome_bind, Store.linkedOutcome_alt_pair _ _ (hl _)]
    exact Result.choose_continued (fun r hr => wellFormed_cachelessOutcome hs hp hr)
      (fun v m r hr => wellFormed_linkedOutcome hs (hf v) hr) i

/-- The first part of two described sequences may be described once. -/
theorem alt_andThen {env : Env (Store a)} (hs : env.store.Scoped) (hp : p.Within env.store.cells.size)
    (hq : q.Within env.store.cells.size) (hr : r.Within env.store.cells.size) (limit : Nat) (xs : List a.Carrier)
    (i : Nat) : ((alt [.andThen p q, .andThen p r]).parserWithin limit).AgreesWith
      ((andThen p (.alt [q, r])).parserWithin limit) xs i env := by
  have hbranches := alike_alt_pair (Alike.andThen hp hq) (Alike.andThen hp hr)
  have hfactored := Alike.andThen hp (alike_alt_pair hq hr)
  rw [Parser.AgreesWith, (gives_cachelessOutcome hs hbranches limit xs i env hs.grown).1,
    (gives_cachelessOutcome hs hfactored limit xs i env hs.grown).1]
  cases limit with
  | zero => rfl
  | succ limit =>
    simp only [Store.cachelessOutcome_alt_pair, Store.cachelessOutcome_andThen]
    exact Result.choose_continued (fun o ho => wellFormed_cachelessOutcome hs hp ho)
      (fun v m o ho => wellFormed_cachelessOutcome hs hq ho) i

end Grammar

/-! ## Main statement -/

/-- A choice between two ways to go on from a library parser agrees with going on with a choice, if what is invoked can
be run again: both are given up with the same fault, or succeed with the same value and next cursor, or fail, and have
seen the same. So it is for what follows a parser whatever its value is.

Described parsers can be run again, whatever is deferred in them. What is described to go on with has to be built before
it is invoked: on the right also the second way, where the first one succeeds. -/
theorem left_factoring :
    (∀ {steady : Env σ → Prop} {xs : List ι} {env : Env σ} (p : Combination σ ι α), steady env →
      (p.parser.Answers xs steady fun j => (p.parser xs j).outcome env) →
        (∀ f g : α → Combination σ ι β,
          (∀ v, (f v).parser.Answers xs steady fun j => ((f v).parser xs j).outcome env) →
          (∀ v, (g v).parser.Answers xs steady fun j => ((g v).parser xs j).outcome env) → ∀ i,
            ((p.parser.bind fun v => (f v).parser).orElse (p.parser.bind fun v => (g v).parser)).AgreesWith
              (p.parser.bind fun v => (f v).parser.orElse (g v).parser) xs i env) ∧
        ∀ q r : Combination σ ι β, (q.parser.Answers xs steady fun j => (q.parser xs j).outcome env) →
          (r.parser.Answers xs steady fun j => (r.parser xs j).outcome env) → ∀ i,
            ((p.parser.andThen q.parser).orElse (p.parser.andThen r.parser)).AgreesWith
              (p.parser.andThen (q.parser.orElse r.parser)) xs i env) ∧
    ∀ {a : Alphabet} {env : Env (Store a)} {p : Grammar a}, env.store.Scoped → p.Within env.store.cells.size →
      (∀ f g : Value → Grammar a, (∀ v, (f v).Plain) → (∀ v, (g v).Plain) →
        (∀ v, ∃ q, (g v).build.outcome env = .ok q) → ∀ limit xs i,
          ((Grammar.alt [.bind p f, .bind p g]).parserWithin limit).AgreesWith
            ((Grammar.bind p fun v => .alt [f v, g v]).parserWithin limit) xs i env) ∧
      ∀ q r : Grammar a, q.Within env.store.cells.size → r.Within env.store.cells.size → ∀ limit xs i,
        ((Grammar.alt [.andThen p q, .andThen p r]).parserWithin limit).AgreesWith
          ((Grammar.andThen p (.alt [q, r])).parserWithin limit) xs i env :=
  ⟨fun p henv hp => ⟨fun f g hf hg => Parser.orElse_bind p f g henv hp hf hg, fun q r hq hr =>
      Parser.orElse_bind p (fun _ => q) (fun _ => r) henv hp (fun _ => hq) fun _ => hr⟩,
    fun hs hp => ⟨fun _ _ hf hg hbuilds => Grammar.alt_bind hs hp hf hg hbuilds,
      fun _ _ hq hr => Grammar.alt_andThen hs hp hq hr⟩⟩

/-- Two pairs with the same first item, one item of which is a rule in the described pairs. -/
theorem left_factoring_of_pairs :
    let item (b : UInt8) : Combination Unit UInt8 UInt8 := .primitive (.satisfy (.symbol b))
    let env : Env Unit := ⟨.ofLevel .off, ()⟩
    let pair (b : UInt8) := (item 97).parser.bind fun _ => (item b).parser
    let factored := (item 97).parser.bind fun _ => (item 98).parser.orElse (item 99).parser
    let described (b : UInt8) : Grammar .bytes := .one (.symbol b)
    let rule : Grammar .bytes := .call (ascii "item")
    let session : Env (Store .bytes) := Session.initial [(ascii "item", described 97)] .off
    let expected : Record := .raised 1 (.singleton [98] ∪ .singleton [99])
    (∀ xs b, (item b).parser.Answers xs (fun _ => True) fun j => ((item b).parser xs j).outcome env) ∧
      (((pair 98).orElse (pair 99) [97, 100] 0).outcome env).map Result.report = .ok (none, expected) ∧
      ((factored [97, 100] 0).outcome env).map Result.report = .ok (none, expected) ∧
      session.store.Scoped ∧ rule.Within session.store.cells.size ∧
      (∀ v : Value, ∃ q, ((fun _ => described 99) v).build.outcome session = .ok q) ∧
      ∀ limit xs i, ((Grammar.alt [.bind rule fun _ => described 98, .bind rule fun _ => described 99]).parserWithin
        limit).AgreesWith ((Grammar.bind rule fun _ => .alt [described 98, described 99]).parserWithin limit) xs i
          session := by
  intro item env pair factored described rule session expected
  obtain ⟨combined, describes⟩ := left_factoring (σ := Unit) (ι := UInt8) (α := UInt8) (β := UInt8)
  have hitem (xs : Bytes) (b : UInt8) :
      (item b).parser.Answers xs (fun _ => True) fun j => ((item b).parser xs j).outcome env :=
    Combination.Immediate.answers (e := item b) trivial xs env
  have hpairs : (((pair 98).orElse (pair 99) [97, 100] 0).outcome env).map Result.report = .ok (none, expected) := by
    decide
  have hagrees : ((pair 98).orElse (pair 99)).AgreesWith factored [97, 100] 0 env :=
    (combined (item 97) trivial (hitem _ 97)).1 (fun _ => item 98) (fun _ => item 99) (fun _ => hitem _ 98)
      (fun _ => hitem _ 99) 0
  have hrules : ∀ r ∈ [(ascii "item", described 97)], r.2.Source := List.forall_mem_singleton.2 trivial
  have hscoped : session.store.Scoped := Session.scoped_initial hrules .off
  have hrule : rule.Within session.store.cells.size := .deferred (.call _)
  have hbuilds (v : Value) : ∃ q, ((fun _ => described 99) v).build.outcome session = .ok q := ⟨_, rfl⟩
  exact ⟨hitem, hpairs, hagrees.symm.trans hpairs, hscoped, hrule, hbuilds,
    (describes hscoped hrule).1 _ _ (fun _ => .leaf _) (fun _ => .leaf _) hbuilds⟩

end Furthest
