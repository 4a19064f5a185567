import Mathlib.Order.Bounds.Basic
import Furthest.Proofs.CursorBounds
import Furthest.Proofs.Outcomes

/-!
# Blanks around a token

A repetition of blanks ends at the first cursor without one, and misses a blank there (`Parser.many_space_eq`). So a
token invokes its parser just once, at the cursor after the blanks, and goes on to the cursor after the blanks that
follow (`Parser.token_eq`). Around a token there are no more blanks to skip: a token of a token misses a blank where the
token within it has missed it (`Parser.token_token`).

Main statement: `token_skips_blanks`.
-/

namespace Furthest

variable {σ α : Type}

/-! ## The cursor after the blanks -/

/-- The first cursor, from a cursor on, at which there is no blank. -/
def afterBlanks (xs : Bytes) (i : Nat) : Nat := i + ((xs.drop i).takeWhile ItemClass.blank.accepts).length

/-- There is no blank at a cursor: another byte, or no byte. -/
def NoBlankAt (xs : Bytes) (i : Nat) : Prop := ∀ b ∈ xs[i]?, ¬ItemClass.blank.accepts b

variable {xs : Bytes} {i : Nat}

/-- The cursor after the blanks is reached by a run of blanks, up to another byte or the end. -/
theorem exists_blanks (xs : Bytes) (i : Nat) :
    ∃ us rest, xs.drop i = us ++ rest ∧ (∀ b ∈ us, ItemClass.blank.accepts b) ∧
      (∀ b ∈ rest.head?, ¬ItemClass.blank.accepts b) ∧ afterBlanks xs i = i + us.length := by
  obtain ⟨us, rest, hdrop, hus, hrest⟩ := Parser.exists_run ItemClass.blank (xs.drop i)
  have hend : rest.takeWhile ItemClass.blank.accepts = [] := by
    cases rest with
    | nil => rfl
    | cons b rest => exact List.takeWhile_cons_of_neg (hrest b rfl)
  refine ⟨us, rest, hdrop, hus, hrest, ?_⟩
  rw [afterBlanks, hdrop, List.takeWhile_append_of_pos hus, hend, List.append_nil]

theorem isLeast_afterBlanks (xs : Bytes) (i : Nat) : IsLeast {k | i ≤ k ∧ NoBlankAt xs k} (afterBlanks xs i) := by
  obtain ⟨us, rest, hdrop, hus, hrest, hafter⟩ := exists_blanks xs i
  rw [hafter]
  refine ⟨⟨Nat.le_add_right i _, fun b hb => hrest b ?_⟩, fun k ⟨hle, hk⟩ => ?_⟩
  · rwa [Parser.getElem?_of_drop (Parser.drop_add_length hdrop)] at hb
  · -- a cursor before the end of the run is at a blank
    by_contra hlt
    obtain ⟨d, rfl⟩ := Nat.exists_eq_add_of_le hle
    have hd : d < us.length := by omega
    have hblank : xs[i + d]? = some us[d] := by
      rw [← List.getElem?_drop, hdrop, List.getElem?_append_left hd, List.getElem?_eq_getElem hd]
    exact hk us[d] hblank (hus us[d] (List.getElem_mem hd))

theorem afterBlanks_of_noBlankAt (h : NoBlankAt xs i) : afterBlanks xs i = i :=
  (isLeast_afterBlanks xs i).unique ⟨⟨Nat.le_refl i, h⟩, fun _ hk => hk.1⟩

theorem afterBlanks_afterBlanks (xs : Bytes) (i : Nat) : afterBlanks xs (afterBlanks xs i) = afterBlanks xs i :=
  afterBlanks_of_noBlankAt (isLeast_afterBlanks xs i).1.2

/-- The cursor after the blanks is within the input. -/
theorem afterBlanks_le (h : i ≤ xs.length) : afterBlanks xs i ≤ xs.length :=
  (isLeast_afterBlanks xs i).2 ⟨h, fun b hb => by simp at hb⟩

/-! ## Tokens -/

/-- The record of a blank that is missing at a cursor. -/
def noBlank (i : Nat) : Record := .raised i (.singleton ItemClass.blank.label)

/-- What is merged at both sides of a record is merged once. -/
theorem Record.merge_around_twice (a r b : Record) : a.merge ((a.merge (r.merge b)).merge b) = a.merge (r.merge b) := by
  calc a.merge ((a.merge (r.merge b)).merge b)
    _ = (a.merge a).merge (r.merge (b.merge b)) := by simp only [Record.merge_assoc]
    _ = a.merge (r.merge b) := by rw [Record.merge_self, Record.merge_self]

namespace Parser

/-- A repetition of blanks ends at the first cursor without one, where it misses a blank. -/
theorem many_space_eq (hxs : xs.length < unbounded) (i : Nat) :
    ∃ us, (space.many xs i : Run σ (Result Bytes)) =
      return .success us (afterBlanks xs i) (noBlank (afterBlanks xs i)) := by
  obtain ⟨us, rest, hdrop, hus, hrest, hafter⟩ := exists_blanks xs i
  have hlen := congrArg List.length hdrop
  rw [List.length_drop, List.length_append] at hlen
  refine ⟨us, ?_⟩
  rw [hafter]
  exact timesFrom_satisfy_eq hdrop hus hrest (show us.length < unbounded by omega) (Nat.zero_le _)

/-- What a token makes of an outcome of its parser, which was invoked after the blanks. -/
def tokenOf (xs : Bytes) (i : Nat) : Result α → Result α
  | .success v n r =>
    .success v (afterBlanks xs n) ((noBlank (afterBlanks xs n)).merge (r.merge (noBlank (afterBlanks xs i))))
  | .failure c r => .failure c (r.merge (noBlank (afterBlanks xs i)))

section

variable {ended : Except Fault (Result α)} {c m : Nat} {r : Record} {v : α}

theorem map_tokenOf_eq_error {cause : Fault} : ended.map (tokenOf xs i) = .error cause ↔ ended = .error cause := by
  rcases ended with cause' | o <;> simp [Except.map]

theorem map_tokenOf_eq_failure : ended.map (tokenOf xs i) = .ok (.failure c r) ↔
    ∃ s, ended = .ok (.failure c s) ∧ r = s.merge (noBlank (afterBlanks xs i)) := by
  rcases ended with cause | ⟨w, n, s⟩ | ⟨d, s⟩
  · simp [Except.map]
  · simp [Except.map, tokenOf]
  · simp [Except.map, tokenOf, eq_comm]

theorem map_tokenOf_eq_success : ended.map (tokenOf xs i) = .ok (.success v m r) ↔
    ∃ n s, ended = .ok (.success v n s) ∧ IsLeast {k | n ≤ k ∧ NoBlankAt xs k} m ∧
      r = (noBlank m).merge (s.merge (noBlank (afterBlanks xs i))) := by
  rcases ended with cause | ⟨w, n, s⟩ | ⟨d, s⟩
  · simp [Except.map]
  · simp only [Except.map, tokenOf, Except.ok.injEq, Result.success.injEq]
    constructor
    · rintro ⟨rfl, rfl, rfl⟩
      exact ⟨n, s, ⟨rfl, rfl, rfl⟩, isLeast_afterBlanks xs n, rfl⟩
    · rintro ⟨n', s', ⟨rfl, rfl, rfl⟩, hm, rfl⟩
      obtain rfl := (isLeast_afterBlanks xs n).unique hm
      exact ⟨rfl, rfl, rfl⟩
  · simp [Except.map, tokenOf]

end

/-- A token invokes its parser once, after the blanks, and skips the blanks that follow. -/
theorem token_eq (hxs : xs.length < unbounded) (p : Parser σ UInt8 α) (i : Nat) :
    p.token xs i = do return tokenOf xs i (← p xs (afterBlanks xs i)) := by
  obtain ⟨us, hus⟩ := many_space_eq (σ := σ) hxs i
  rw [token, skip, andThen, hus, pure_bind]
  simp only [Result.proceed, bind_assoc, pure_bind]
  refine bind_congr fun o => ?_
  cases o with
  | failure c r => rfl
  | success v n r =>
    obtain ⟨ws, hws⟩ := many_space_eq (σ := σ) hxs n
    simp only [Result.aggregate, hws, pure_bind]
    rfl

/-- No blanks are left around a token, and those that the token missed are missed again. -/
theorem tokenOf_tokenOf (xs : Bytes) (i : Nat) (o : Result α) :
    tokenOf xs i (tokenOf xs (afterBlanks xs i) o) = tokenOf xs i o := by
  cases o with
  | success v n r => simp only [tokenOf, afterBlanks_afterBlanks, Record.merge_around_twice]
  | failure c r => simp only [tokenOf, afterBlanks_afterBlanks, Record.merge_assoc, Record.merge_self]

/-- A token of a token is the token. -/
theorem token_token (hxs : xs.length < unbounded) (p : Parser σ UInt8 α) (i : Nat) :
    p.token.token xs i = p.token xs i := by
  rw [token_eq hxs p.token, token_eq hxs p, token_eq hxs p, afterBlanks_afterBlanks]
  simp only [bind_assoc, pure_bind, tokenOf_tokenOf]

end Parser

/-! ## Main statement -/

/-- From a cursor, a token invokes its parser at the first cursor without a blank. It fails, succeeds and is given up
exactly as the parser does there, with the same value and the same effects. Its cursor is then the first without a blank
from that of the parser on. Its record is that of the parser, merged with those of a blank that is missing where the
parser was invoked and, after a success, where the token ends. A token of a token is that token. -/
theorem token_skips_blanks (p : Parser σ UInt8 α) {xs : Bytes} (hxs : xs.length < unbounded) (i : Nat) :
    (∃ j, IsLeast {k | i ≤ k ∧ NoBlankAt xs k} j ∧ (i ≤ xs.length → j ≤ xs.length) ∧
      ∀ env, let ended := (p xs j).outcome env
        let tokenEnded := (p.token xs i).outcome env
        (∀ cause, tokenEnded = .error cause ↔ ended = .error cause) ∧
        (∀ c r, tokenEnded = .ok (.failure c r) ↔
          ∃ s, ended = .ok (.failure c s) ∧ r = s.merge (.raised j (.singleton (ascii "a space")))) ∧
        (∀ v m r, tokenEnded = .ok (.success v m r) ↔
          ∃ n s, ended = .ok (.success v n s) ∧ IsLeast {k | n ≤ k ∧ NoBlankAt xs k} m ∧
            r = (Record.raised m (.singleton (ascii "a space"))).merge
              (s.merge (.raised j (.singleton (ascii "a space"))))) ∧
        ((p.token xs i).execute env).2 = ((p xs j).execute env).2) ∧
    p.token.token xs i = p.token xs i := by
  refine ⟨⟨afterBlanks xs i, isLeast_afterBlanks xs i, afterBlanks_le, fun env => ?_⟩, Parser.token_token hxs p i⟩
  have hrun := Run.execute_bind_pure (p xs (afterBlanks xs i)) (Parser.tokenOf xs i) env
  rw [← Parser.token_eq hxs] at hrun
  have houtcome : (p.token xs i).outcome env = _ := congrArg Prod.fst hrun
  have hafter : ((p.token xs i).execute env).2 = _ := congrArg Prod.snd hrun
  simp only [houtcome]
  exact ⟨fun _ => Parser.map_tokenOf_eq_error, fun _ _ => Parser.map_tokenOf_eq_failure,
    fun _ _ _ => Parser.map_tokenOf_eq_success, hafter⟩

/-- A token between blanks, and one that is missing after a blank. -/
theorem token_skips_blanks_of_item :
    let text := ascii " \tx y"
    let p : Parser Unit UInt8 UInt8 := .symbol 120
    let env : Env Unit := ⟨.ofLevel .off, ()⟩
    text.length < unbounded ∧
      (p.token text 0).outcome env = .ok (.success 120 4 (.raised 4 (.singleton (ascii "a space")))) ∧
      (∃ j n s, IsLeast {k | 0 ≤ k ∧ NoBlankAt text k} j ∧ (p text j).outcome env = .ok (.success 120 n s) ∧
        IsLeast {k | n ≤ k ∧ NoBlankAt text k} 4) ∧
      (p.token text 3).outcome env = .ok (.failure 4 (.raised 4 (.ofList [ascii "x", ascii "a space"]))) ∧
      (∃ j s, IsLeast {k | 3 ≤ k ∧ NoBlankAt text k} j ∧ (p text j).outcome env = .ok (.failure 4 s)) ∧
      p.token.token text 3 = p.token text 3 := by
  intro text p env
  have hxs : text.length < unbounded := by decide
  have hfound : (p.token text 0).outcome env = .ok (.success 120 4 (.raised 4 (.singleton (ascii "a space")))) := by
    decide
  have hmissing : (p.token text 3).outcome env =
      .ok (.failure 4 (.raised 4 (.ofList [ascii "x", ascii "a space"]))) := by
    decide
  obtain ⟨⟨j, hj, -, found⟩, -⟩ := token_skips_blanks p hxs 0
  obtain ⟨⟨j', hj', -, missing⟩, again⟩ := token_skips_blanks p hxs 3
  obtain ⟨n, s, hp, hn, -⟩ := ((found env).2.2.1 _ _ _).1 hfound
  obtain ⟨s', hp', -⟩ := ((missing env).2.1 _ _).1 hmissing
  exact ⟨hxs, hfound, ⟨j, n, s, hj, hp, hn⟩, hmissing, ⟨j', s', hj', hp'⟩, again⟩

end Furthest
