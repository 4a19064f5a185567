import Furthest.Proofs.Readings
import Furthest.Proofs.Tyings

/-!
# Balanced nesting

A rule that nests: an opening parenthesis, the rule itself, built on first use, and a closing one; or else nothing. Its
value is the depth. Every level has a cell of its own, which its first use builds, and which then holds the next level
with another cell.

What one level does depends on how the level within it ends (`Parser.nestingAround_eq`): it is one deeper if a closing
parenthesis follows, and otherwise matches nothing, even if the level within it matched. So the levels match all opening
parentheses at the beginning of the input or, if fewer closing ones follow, none
(`Grammar.exists_outcome_nestingAround`, by induction on how many there are).

Main statement: `nesting_parses_balanced`.
-/

namespace Furthest

variable {σ ι α β : Type}

/-- A computation ends as the rest of it does, after its first part ended in some environment. -/
theorem Run.outcome_bind_of_ends {x : Run σ α} {f : α → Run σ β} {env : Env σ} {v : α} {w : β}
    (hx : x.outcome env = .ok v) (hf : (f v).Ends w) : (x >>= f).outcome env = .ok w := by
  rw [outcome] at hx ⊢
  rw [execute_bind]
  rcases hrun : x.execute env with ⟨o, after⟩
  rw [hrun] at hx
  subst hx
  exact hf after

/-! ## Runs of one byte -/

/-- How many bytes at the beginning of a text are the given one. -/
def leading (b : UInt8) (text : Bytes) : Nat := (text.takeWhile (· = b)).length

/-- How many parentheses are opened at the beginning of a text. -/
def opened (text : Bytes) : Nat := leading 40 text

/-- How many parentheses are closed right after those that are opened at the beginning of a text. -/
def closed (text : Bytes) : Nat := leading 41 (text.drop (opened text))

section Leading

variable {b : UInt8} {text rest : Bytes}

theorem leading_replicate_append (k : Nat) (h : ∀ x ∈ rest.head?, x ≠ b) :
    leading b (List.replicate k b ++ rest) = k := by
  have hrest : rest.takeWhile (· = b) = [] := by
    cases rest with
    | nil => rfl
    | cons x rest => exact List.takeWhile_cons_of_neg (by simpa using h x rfl)
  rw [leading, List.takeWhile_append_of_pos (by simp), hrest, List.append_nil, List.length_replicate]

theorem exists_eq_replicate_leading (b : UInt8) (text : Bytes) :
    ∃ rest, text = List.replicate (leading b text) b ++ rest ∧ ∀ x ∈ rest.head?, x ≠ b := by
  obtain ⟨us, rest, rfl, hus, hrest⟩ := Parser.exists_run (.only b []) text
  simp only [ItemClass.only, decide_eq_true_eq] at hus hrest
  refine ⟨rest, ?_, hrest⟩
  rw [List.eq_replicate_of_mem hus, leading_replicate_append _ hrest]

theorem opened_replicate_append (k : Nat) (h : ∀ x ∈ rest.head?, x ≠ 40) :
    opened (List.replicate k 40 ++ rest) = k := leading_replicate_append k h

theorem closed_replicate_append (k : Nat) (h : ∀ x ∈ rest.head?, x ≠ 40) :
    closed (List.replicate k 40 ++ rest) = leading 41 rest := by
  rw [closed, opened_replicate_append k h, List.drop_left' List.length_replicate]

end Leading

/-- The depth of a nesting in which some parentheses are opened, and some closed after them. -/
def depth (opened closed : Nat) : Nat := if opened ≤ closed then opened else 0

section Depth

variable {k : Nat} {rest : Bytes}

/-- If more parentheses are closed than opened, another one is closed after the nesting. -/
theorem exists_drop_depth_eq (h : k < leading 41 rest) :
    ∃ t, (List.replicate k 40 ++ rest).drop (2 * depth k (leading 41 rest)) = 41 :: t := by
  obtain ⟨t, ht, -⟩ := exists_eq_replicate_leading 41 rest
  obtain ⟨m, hm⟩ := Nat.exists_eq_add_of_lt h
  rw [hm, Nat.add_assoc, List.replicate_add, List.append_assoc] at ht
  have hdrop : (List.replicate k 40 ++ rest).drop (2 * k) = List.replicate (m + 1) 41 ++ t := by
    rw [ht, Nat.two_mul, ← List.drop_drop, List.drop_left' List.length_replicate, List.drop_left' List.length_replicate]
  rw [depth, if_pos (Nat.le_of_lt h), hdrop]
  exact ⟨_, rfl⟩

/-- If no more parentheses are closed than opened, none is closed after the nesting. -/
theorem head?_drop_depth_ne (h : leading 41 rest ≤ k) :
    ∀ x ∈ ((List.replicate k 40 ++ rest).drop (2 * depth k (leading 41 rest))).head?, x ≠ 41 := by
  obtain ⟨t, ht, hclosed⟩ := exists_eq_replicate_leading 41 rest
  rcases Nat.lt_or_eq_of_le h with hlt | heq
  · -- Nothing is nested, and the first parenthesis is an opening one.
    obtain ⟨k, rfl⟩ := Nat.exists_eq_succ_of_ne_zero (Nat.ne_of_gt (Nat.zero_lt_of_lt hlt))
    rw [depth, if_neg (Nat.not_le_of_lt hlt), Nat.mul_zero, List.drop_zero, List.replicate_succ]
    intro x hx
    obtain rfl : 40 = x := Option.some.inj hx
    decide
  · rw [heq] at ht
    rw [depth, if_pos (Nat.le_of_eq heq.symm), ht, Nat.two_mul, ← List.drop_drop, List.drop_left' List.length_replicate,
      List.drop_left' List.length_replicate]
    exact hclosed

/-- A text that is as long as its nesting is nothing else. -/
theorem eq_replicate_iff {text : Bytes} {d : Nat} :
    text = List.replicate d 40 ++ List.replicate d 41 ↔
      d = depth (opened text) (closed text) ∧ 2 * d = text.length := by
  constructor
  · rintro rfl
    have hrest : ∀ x ∈ (List.replicate d (41 : UInt8)).head?, x ≠ 40 := by
      intro x hx
      have hmem := List.mem_of_head? hx
      rw [List.eq_of_mem_replicate hmem]
      decide
    have hclosed : leading 41 (List.replicate d 41) = d := by
      have hleading : leading 41 (List.replicate d 41 ++ []) = d := leading_replicate_append d nofun
      rwa [List.append_nil] at hleading
    rw [opened_replicate_append d hrest, closed_replicate_append d hrest, hclosed, depth, if_pos (Nat.le_refl d)]
    simp
    omega
  · rintro ⟨hd, hlen⟩
    obtain ⟨rest, htext, hrest⟩ := exists_eq_replicate_leading 40 text
    obtain ⟨t, ht, -⟩ := exists_eq_replicate_leading 41 rest
    have hclosed := closed_replicate_append (leading 40 text) hrest
    rw [← htext] at hclosed
    have hall := congrArg List.length htext
    have hafter := congrArg List.length ht
    rw [List.length_append, List.length_replicate] at hall hafter
    rw [hclosed, depth, opened] at hd
    split at hd
    · obtain rfl : t = [] := List.eq_nil_of_length_eq_zero (by omega)
      have hsame : leading 41 rest = d := by omega
      rw [htext, ← hd, ht, hsame, List.append_nil]
    · omega

end Depth

/-! ## One level -/

namespace Parser

/-- A parenthesis. -/
def parenthesis (b : UInt8) : Parser σ UInt8 Value := (satisfy (.symbol b)).map .char

/-- Ends in the given way. -/
def ended (o : Result α) : Parser σ ι α := fun _ _ => return o

theorem matches_ended (v : α) (n : Nat) (f : Record) (xs : List ι) (i : Nat) :
    (ended (.success v n f) : Parser σ ι α).Matches xs i v n f := .pure _

/-- A nesting around what is nested in it. -/
def nestingAround (inner : Parser σ UInt8 Value) : Parser σ UInt8 Value :=
  ((((parenthesis 40).andThen inner).skip (parenthesis 41)).tryMap Value.succ).orElse (succeed (.int 0))

section Level

variable {inner : Parser σ UInt8 Value} {xs rest : Bytes} {b : UInt8} {i n : Nat} {d : Int} {r : Record}

theorem matches_parenthesis (h : xs.drop i = b :: rest) :
    (parenthesis b : Parser σ UInt8 Value).Matches xs i (.char b) (i + 1) ∅ :=
  (matches_satisfy h (by simp [ItemClass.symbol, ItemClass.only])).map _

theorem fails_parenthesis (h : ∀ x ∈ (xs.drop i).head?, x ≠ b) :
    ∃ f, (parenthesis b : Parser σ UInt8 Value).Fails xs i f :=
  ⟨_, (fails_satisfy (by simpa [ItemClass.symbol, ItemClass.only] using h)).map _⟩

/-- Where no parenthesis is opened, nothing is nested. -/
theorem nestingAround_outside (h : ∀ x ∈ (xs.drop i).head?, x ≠ 40) :
    ∃ f, ∀ inner : Parser σ UInt8 Value, (nestingAround inner).Matches xs i (.int 0) i f := by
  obtain ⟨f, hopen⟩ := fails_parenthesis (σ := σ) h
  exact ⟨_, fun inner => ((hopen.andThen inner).skip _ |>.tryMap _).orElse (.pure _)⟩

/-- A closing parenthesis after what is nested makes it one deeper. -/
theorem nestingAround_closed (h : xs.drop i = 40 :: rest) (hinner : inner.Matches xs (i + 1) (.int d) n r)
    {rest' : Bytes} (hclose : xs.drop n = 41 :: rest') :
    ∃ f, (nestingAround inner).Matches xs i (.int (d + 1)) (n + 1) f := by
  have hsucc : (Value.int d).succ = .ok (.int (d + 1)) := rfl
  exact ⟨_, (((matches_parenthesis h).andThen hinner).skip (matches_parenthesis hclose) |>.tryMap hsucc).orElse _⟩

/-- Without a closing parenthesis after what is nested, nothing is. -/
theorem nestingAround_unclosed (h : xs.drop i = 40 :: rest) (hinner : inner.Matches xs (i + 1) (.int d) n r)
    (hclose : ∀ x ∈ (xs.drop n).head?, x ≠ 41) : ∃ f, (nestingAround inner).Matches xs i (.int 0) i f := by
  obtain ⟨f, hfails⟩ := fails_parenthesis (σ := σ) hclose
  exact ⟨_, (((matches_parenthesis h).andThen hinner).skip_fails hfails |>.tryMap _).orElse (.pure _)⟩

/-- After an opening parenthesis, a level goes on from how what is nested in it ends. -/
theorem nestingAround_eq (h : xs.drop i = 40 :: rest) (inner : Parser σ UInt8 Value) :
    nestingAround inner xs i = inner xs (i + 1) >>= fun o => nestingAround (ended o) xs i := by
  have hopen : (parenthesis 40 xs i : Run σ (Result Value)) = pure (.success (.char 40) (i + 1) ∅) := by
    rw [parenthesis, Parser.map, Parser.tryMap, satisfy_eq_success h (by decide), pure_bind]
    rfl
  simp only [nestingAround, orElse, alt, altFrom, tryMap, skip, andThen, ended, hopen, pure_bind, Result.proceed,
    bind_assoc]

end Level

end Parser

/-! ## All levels -/

namespace Grammar

/-- The description of a nesting around what is nested in it. -/
def nestingAround (p : Grammar .bytes) : Grammar .bytes :=
  .orElseAll (.map (.skip (.andThen (.one (.symbol 40)) p) (.one (.symbol 41))) Value.succ) [.succeed (.int 0)]

/-- The body of a rule that nests: within the parentheses, the rule is built on first use. -/
def nesting (name : Bytes) : Grammar .bytes := nestingAround (.rule name)

theorem parserBy_nestingAround (enter : Grammar .bytes → Meaning .bytes) (p : Grammar .bytes) :
    parserBy enter (nestingAround p) = Parser.nestingAround (parserBy enter p) := rfl

theorem build_nestingAround (p : Grammar .bytes) :
    (nestingAround p).build = p.build >>= fun q => pure (nestingAround q) := by
  simp only [nestingAround, orElseAll, List.foldl_cons, List.foldl_nil, one, succeed, build, buildAll, pure_bind, bind_assoc]

/-- A rule nests, and a cell of it is not yet built. -/
structure AwaitsNesting (name : Bytes) (address : Nat) (env : Env (Store .bytes)) : Prop where
  rule : env.store.rules.lookup name = some (nesting name)
  cell : env.store.cells[address]? = some (.new none (nesting name))

section Build

variable {name : Bytes} {env : Env (Store .bytes)} {address : Nat}

/-- A level is built with a new cell for the next one. -/
theorem execute_build_nesting (hrule : env.store.rules.lookup name = some (nesting name)) :
    (nesting name).build.execute env = (.ok (nestingAround (.cell env.store.cells.size)),
      { env with store := env.store.addCell (.new none (nesting name)) }) := by
  have hresolve : Store.resolve env.store.rules name = .ok (nesting name) := by rw [Store.resolve, hrule]
  rw [nesting, build_nestingAround]
  simp only [build, Run.execute_bind, Run.execute_getStore, Run.execute_ofExcept, hresolve, execute_allocate,
    Run.execute_pure]
  rfl

theorem AwaitsNesting.of_addCell (hrule : env.store.rules.lookup name = some (nesting name)) :
    AwaitsNesting name env.store.cells.size { env with store := env.store.addCell (.new none (nesting name)) } :=
  ⟨hrule, Array.getElem?_push_size⟩

/-- The cell is built to another level, whose cell is not yet built. -/
theorem AwaitsNesting.execute_force (h : AwaitsNesting name address env) :
    ∃ next after, (force address).execute env = (.ok (nestingAround (.cell next)), after) ∧
      AwaitsNesting name next after := by
  have hstarted : (env.store.modifyCell address .start).rules.lookup name = some (nesting name) := h.rule
  have hbuild := @execute_build_nesting name { env with store := env.store.modifyCell address .start } hstarted
  have hbody : (Cell.new none (nesting name)).body = nesting name := rfl
  have hne : address ≠ (env.store.modifyCell address .start).cells.size := by
    obtain ⟨hlt, -⟩ := Array.getElem?_eq_some_iff.1 h.cell
    rw [Store.modifyCell, Array.size_modify]
    exact Nat.ne_of_lt hlt
  rw [execute_force_of_unbuilt h.cell rfl, hbody, hbuild]
  exact ⟨_, _, rfl, h.rule, Array.getElem?_modify.trans ((if_neg hne).trans Array.getElem?_push_size)⟩

/-- A cell ends as every level does whose own cell is not yet built. -/
theorem AwaitsNesting.outcome_cell (h : AwaitsNesting name address env) {limit : Nat} {xs : Bytes} {i : Nat}
    {o : Result Value} (hnext : ∀ next after, AwaitsNesting name next after →
      (parserWithin (a := .bytes) limit (nestingAround (.cell next)) xs i).outcome after = .ok o) :
    (parserBy (a := .bytes) (parserWithin limit) (.cell address) xs i).outcome env = .ok o := by
  obtain ⟨next, after, hforce, hawaits⟩ := h.execute_force
  show (force address >>= fun q => parserWithin (a := .bytes) limit q xs i).outcome env = .ok o
  rw [Run.outcome, Run.execute_bind, hforce]
  exact hnext next after hawaits

/-- A level around one that nests `k` deep goes on to nest one deeper, or not at all. -/
theorem exists_matches_nestingAround {xs rest : Bytes} {i k : Nat} {r : Record}
    (h : xs.drop i = List.replicate (k + 1) 40 ++ rest) :
    let inner : Result Value := .success (.int (depth k (leading 41 rest))) (i + 1 + 2 * depth k (leading 41 rest)) r
    ∃ f, (Parser.nestingAround (.ended inner) : Parser σ UInt8 Value).Matches xs i
      (.int (depth (k + 1) (leading 41 rest))) (i + 2 * depth (k + 1) (leading 41 rest)) f := by
  intro inner
  have hinner : (Parser.ended inner : Parser σ UInt8 Value).Matches xs (i + 1) _ _ _ :=
    Parser.matches_ended _ _ _ xs (i + 1)
  have hafter : xs.drop (i + 1) = List.replicate k 40 ++ rest := Parser.drop_succ_of_cons h
  rcases Nat.lt_or_ge k (leading 41 rest) with hlt | hge
  · obtain ⟨t, ht⟩ := exists_drop_depth_eq hlt
    rw [← hafter, List.drop_drop] at ht
    have hdeeper : depth (k + 1) (leading 41 rest) = depth k (leading 41 rest) + 1 := by
      rw [depth, depth, if_pos (Nat.succ_le_of_lt hlt), if_pos (Nat.le_of_lt hlt)]
    have hcursor : i + 2 * (depth k (leading 41 rest) + 1) = i + 1 + 2 * depth k (leading 41 rest) + 1 := by omega
    rw [hdeeper, hcursor]
    exact Parser.nestingAround_closed h hinner ht
  · have hnone := head?_drop_depth_ne hge
    rw [← hafter, List.drop_drop] at hnone
    have hdepth : depth (k + 1) (leading 41 rest) = 0 := if_neg (Nat.not_le_of_lt (Nat.lt_succ_of_le hge))
    rw [hdepth]
    exact Parser.nestingAround_unclosed h hinner hnone

/-- All parentheses that are opened are matched, or, if fewer are closed, none. The record does not depend on how deep
parsers may be entered, nor on what was built before. -/
theorem exists_outcome_nestingAround (name : Bytes) {xs rest : Bytes} {i k : Nat}
    (h : xs.drop i = List.replicate k 40 ++ rest) (hrest : ∀ x ∈ rest.head?, x ≠ 40) :
    ∃ f, ∀ limit, k < limit → ∀ address env, AwaitsNesting name address env →
      (parserWithin (a := .bytes) limit (nestingAround (.cell address)) xs i).outcome env =
        .ok (.success (.int (depth k (leading 41 rest))) (i + 2 * depth k (leading 41 rest)) f) := by
  -- The level within begins one parenthesis later, with one less before it, and may enter one less deep.
  induction k generalizing i with
  | zero =>
    have houtside : ∀ x ∈ (xs.drop i).head?, x ≠ 40 := by rwa [h]
    obtain ⟨f, hf⟩ := Parser.nestingAround_outside (σ := Store .bytes) houtside
    refine ⟨f, fun limit hlimit address env _ => ?_⟩
    obtain ⟨limit, rfl⟩ := Nat.exists_eq_add_one_of_ne_zero (Nat.ne_of_gt hlimit)
    rw [parserWithin, parserBy_nestingAround]
    exact hf _ env
  | succ k ih =>
    obtain ⟨f, hf⟩ := ih (Parser.drop_succ_of_cons h)
    obtain ⟨f', hlevel⟩ := exists_matches_nestingAround (σ := Store .bytes) (r := f) h
    refine ⟨f', fun limit hlimit address env hawaits => ?_⟩
    obtain ⟨limit, rfl⟩ := Nat.exists_eq_add_one_of_ne_zero (Nat.ne_of_gt (Nat.zero_lt_of_lt hlimit))
    have hinner := hawaits.outcome_cell (hf limit (Nat.lt_of_succ_lt_succ hlimit))
    rw [parserWithin, parserBy_nestingAround, Parser.nestingAround_eq h]
    exact Run.outcome_bind_of_ends hinner hlevel

end Build

end Grammar

/-! ## Main statement -/

namespace Session

variable {xs : Bytes}

/-- Parsing an input goes on from how the invocation at its beginning ends. -/
theorem parse_eq (p : Grammar .bytes) (xs : Bytes) :
    parse p xs = invoke p xs 0 >>= fun o => Parser.parse (.ended o) xs := by
  simp only [parse, invoke, Parser.parse, Parser.ended, bind_assoc, pure_bind]

theorem parsePartial_eq (p : Grammar .bytes) (xs : Bytes) :
    parsePartial p xs = invoke p xs 0 >>= fun o => Parser.parsePartial (.ended o) xs := by
  simp only [parsePartial, invoke, Parser.parsePartial, Parser.ended, bind_assoc, pure_bind]

section Invoked

variable {p : Grammar .bytes} {env : Env (Store .bytes)} {v : Value} {n : Nat} {f : Record}
variable (h : (invoke p xs 0).outcome env = .ok (.success v n f))
include h

theorem parsePartial_of_invoke : (parsePartial p xs).outcome env = .ok (.ok (v, xs.drop n)) := by
  rw [parsePartial_eq]
  exact Run.outcome_bind_of_ends h (.pure _)

theorem parse_of_invoke (hn : n = xs.length) : (parse p xs).outcome env = .ok (.ok v) := by
  rw [parse_eq]
  exact Run.outcome_bind_of_ends h ((Parser.matches_ended v n f xs 0).parse hn)

theorem exists_parse_error_of_invoke (hn : n ≠ xs.length) : ∃ e, (parse p xs).outcome env = .ok (.error e) := by
  rw [parse_eq]
  exact ⟨_, Run.outcome_bind_of_ends h ((Parser.matches_ended v n f xs 0).parse_rest hn)⟩

end Invoked

/-- From any cursor, as many levels are entered as parentheses are opened there. -/
theorem exists_outcome_nesting (name xs : Bytes) (i : Nat) :
    ∃ f, ∀ limit, opened (xs.drop i) < limit → ∀ env : Env (Store .bytes),
      env.store.rules.lookup name = some (.nesting name) →
      (invokeWithin limit (.nesting name) xs i).outcome env =
        .ok (.success (.int (depth (opened (xs.drop i)) (closed (xs.drop i))))
          (i + 2 * depth (opened (xs.drop i)) (closed (xs.drop i))) f) := by
  obtain ⟨rest, htext, hrest⟩ := exists_eq_replicate_leading 40 (xs.drop i)
  have hclosed := closed_replicate_append (leading 40 (xs.drop i)) hrest
  rw [← htext] at hclosed
  obtain ⟨f, hf⟩ := Grammar.exists_outcome_nestingAround name htext hrest
  refine ⟨f, fun limit hlimit env hrule => ?_⟩
  rw [hclosed, invokeWithin, Run.outcome, Run.execute_bind, Grammar.execute_build_nesting hrule]
  exact hf limit hlimit _ _ (.of_addCell hrule)

end Session

theorem opened_le_length (text : Bytes) : opened text ≤ text.length :=
  (List.takeWhile_prefix _).length_le

/-- If a rule nests, its parser takes from an input the parentheses that are opened at its beginning and as many that are
closed after them, and yields how many are opened; if fewer are closed than opened, it takes nothing and yields zero. So
exactly the balanced inputs are parsed, each to its depth, and all others are rejected. From any cursor of any input, and
whatever was built before, the parser ends. -/
theorem nesting_parses_balanced {name : Bytes} {env : Env (Store .bytes)}
    (hrule : env.store.rules.lookup name = some (.nesting name)) (s : Bytes) :
    (s.length < unbounded →
      (Session.parsePartial (.nesting name) s).outcome env =
        .ok (.ok (if opened s ≤ closed s then (.int (opened s), s.drop (2 * opened s)) else (.int 0, s))) ∧
      (∀ v, (Session.parse (.nesting name) s).outcome env = .ok (.ok v) ↔
        ∃ d : Nat, v = .int d ∧ s = List.replicate d 40 ++ List.replicate d 41) ∧
      ((¬∃ d, s = List.replicate d 40 ++ List.replicate d 41) →
        ∃ e, (Session.parse (.nesting name) s).outcome env = .ok (.error e))) ∧
    ∀ i, ∃ o, Session.EndsWith (.nesting name) s i env (.ok o) := by
  refine ⟨fun hs => ?_, fun i => ?_⟩
  · obtain ⟨f, hf⟩ := Session.exists_outcome_nesting name s 0
    have hopened := opened_le_length s
    have hlimit : opened s < Grammar.nestingLimit := (Nat.lt_of_le_of_lt hopened hs).trans (by decide)
    have hinvoke := hf Grammar.nestingLimit hlimit env hrule
    rw [List.drop_zero, Nat.zero_add, ← Session.invoke_eq] at hinvoke
    refine ⟨?_, fun v => ⟨fun hv => ?_, ?_⟩, fun hnone => ?_⟩
    · rw [Session.parsePartial_of_invoke hinvoke, depth]
      split <;> rfl
    · by_cases hall : 2 * depth (opened s) (closed s) = s.length
      · have hparse := Session.parse_of_invoke hinvoke hall
        have hvalue := Except.ok.inj (Except.ok.inj (hparse.symm.trans hv))
        exact ⟨_, hvalue.symm, eq_replicate_iff.2 ⟨rfl, hall⟩⟩
      · obtain ⟨e, he⟩ := Session.exists_parse_error_of_invoke hinvoke hall
        cases he.symm.trans hv
    · rintro ⟨d, rfl, hbalanced⟩
      obtain ⟨rfl, hall⟩ := eq_replicate_iff.1 hbalanced
      exact Session.parse_of_invoke hinvoke hall
    · exact Session.exists_parse_error_of_invoke hinvoke fun hall => hnone ⟨_, eq_replicate_iff.2 ⟨rfl, hall⟩⟩
  · obtain ⟨f, hf⟩ := Session.exists_outcome_nesting name s i
    exact ⟨_, nofun, opened (s.drop i) + 1, fun limit hlimit => hf limit hlimit env hrule⟩

/-- Three levels around each other, and as many of which one is not closed. -/
theorem nesting_parses_balanced_of_three :
    let name := ascii "nesting"
    let env : Env (Store .bytes) := Session.initial [(name, .nesting name)] .off
    let unclosed := ascii "((())"
    env.store.rules.lookup name = some (.nesting name) ∧
      (Session.parse (.nesting name) (ascii "((()))")).outcome env = .ok (.ok (.int 3)) ∧
      unclosed.length < unbounded ∧
      (Session.parsePartial (.nesting name) unclosed).outcome env = .ok (.ok (.int 0, unclosed)) ∧
      (∃ e, (Session.parse (.nesting name) unclosed).outcome env = .ok (.error e)) ∧
      ∃ o, Session.EndsWith (.nesting name) unclosed 1 env (.ok o) := by
  intro name env unclosed
  have hrule : env.store.rules.lookup name = some (.nesting name) := rfl
  obtain ⟨hthree, -⟩ := nesting_parses_balanced hrule (ascii "((()))")
  obtain ⟨hunclosed, hends⟩ := nesting_parses_balanced hrule unclosed
  obtain ⟨-, hbalanced, -⟩ := hthree (by decide)
  obtain ⟨hpartial, -, hrejected⟩ := hunclosed (by decide)
  refine ⟨hrule, (hbalanced _).2 ⟨3, rfl, by decide⟩, by decide, hpartial, hrejected ?_, hends 1⟩
  rintro ⟨d, hd⟩
  have hlen := congrArg List.length hd
  rw [List.length_append, List.length_replicate, List.length_replicate] at hlen
  have hodd : unclosed.length = 5 := by decide
  omega

end Furthest
