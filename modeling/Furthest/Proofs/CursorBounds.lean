import Furthest.Parser.Input
import Furthest.Proofs.Discipline

/-!
# Cursors stay within the input

An invocation that starts within the input ends within it, and so does every failure that it has seen. The
condition that is kept is `Ending.Within`, together with the bounds of every `Call` of a primitive parser:
each of them starts within the input and is not given up, and the cursor that it adds up is in bounds as well.

Main statement: `cursor_within_input`.
-/

namespace Furthest

variable {σ ι α β : Type}

/-- A call of a primitive parser: the cursor, and how the call ended. -/
structure Call where
  start : Nat
  ending : Ending

namespace Event

mutual

/-- The calls of primitive parsers in what an event stands for. -/
def calls : Event → List Call
  | leaf start _ ending => [⟨start, ending⟩]
  | emptyChoice _ => []
  | desc _ _ _ inside | shouldFail _ _ _ inside => callsAll inside

def callsAll : List Event → List Call
  | [] => []
  | e :: es => e.calls ++ callsAll es

end

@[simp] theorem callsAll_nil : callsAll [] = [] := rfl

@[simp] theorem callsAll_singleton (e : Event) : callsAll [e] = e.calls := List.append_nil _

@[simp] theorem callsAll_append (es es' : List Event) : callsAll (es ++ es') = callsAll es ++ callsAll es' := by
  induction es with
  | nil => rfl
  | cons e es ih => simp [callsAll, ih]

end Event

/-- The cursor of a success, and every failure that was seen, lie between two cursors. -/
def Ending.Within (start stop : Nat) : Ending → Prop
  | matched n r => start ≤ n ∧ n ≤ stop ∧ ∀ k, r.index = some k → start ≤ k ∧ k ≤ stop
  | failed r => ∃ k, r.index = some k ∧ start ≤ k ∧ k ≤ stop
  | gaveUp _ => True

namespace Ending

theorem Within.mono {i j stop : Nat} {e : Ending} (h : e.Within j stop) (hij : i ≤ j) : e.Within i stop := by
  cases e with
  | matched n r =>
    obtain ⟨hn, hs, hr⟩ := h
    refine ⟨by omega, hs, fun k hk => ?_⟩
    have := hr k hk
    omega
  | failed r =>
    obtain ⟨k, hk, hj, hs⟩ := h
    exact ⟨k, hk, by omega, hs⟩
  | gaveUp cause => trivial

theorem Within.aggregate {i stop : Nat} {e : Ending} {r : Record} (h : e.Within i stop)
    (hr : ∀ k, r.index = some k → i ≤ k ∧ k ≤ stop) : (e.aggregate r).Within i stop := by
  cases e with
  | matched n s =>
    refine ⟨h.1, h.2.1, fun k hk => ?_⟩
    have hs := h.2.2
    rw [Record.index_merge] at hk
    rcases hj : s.index with _ | j <;> rcases hm : r.index with _ | m <;>
      simp only [hj, hm, Option.some.injEq, reduceCtorEq] at hk
    · exact hk ▸ hr m hm
    · exact hk ▸ hs j hj
    · have := hr m hm
      have := hs j hj
      omega
  | failed s =>
    obtain ⟨j, hj, hi⟩ := h
    rcases hm : r.index with _ | m
    · exact ⟨j, by rw [Record.index_merge, hj, hm], hi⟩
    · have := hr m hm
      exact ⟨max j m, by rw [Record.index_merge, hj, hm], by omega⟩
  | gaveUp cause => trivial

end Ending

/-- A call starts and ends within an input of some size, and is not given up. -/
structure Call.Within (size : Nat) (c : Call) : Prop where
  start_le : c.start ≤ size
  ending_within : c.ending.Within c.start size
  not_gaveUp : ∀ cause, c.ending ≠ .gaveUp cause

namespace Discipline

/-- From a cursor within the input, cursors and calls stay within it. -/
def within (xs : List ι) : Discipline xs where
  holds i l e := (∀ r, e = .failed r → r.isEngaged) ∧ (i ≤ xs.length →
    e.Within i xs.length ∧ ∀ c ∈ Event.callsAll l, c.Within xs.length)
  engaged h := h.1 _ rfl
  leaf p i := by
    rcases p.ended_cases xs i with ⟨v, n, h, hi, hn⟩ | h | ⟨hi, h⟩ <;> rw [h]
    · refine ⟨fun r hr => (nomatch hr), fun hle => ?_⟩
      have hw : (Ending.matched n ∅).Within i xs.length := ⟨hi, hn hle, fun k hk => nomatch hk⟩
      exact ⟨hw, by simpa [Event.calls] using (⟨hle, hw, nofun⟩ : Call.Within xs.length ⟨i, _⟩)⟩
    · refine ⟨fun r hr => by cases hr; rfl, fun hle => ?_⟩
      have hw : (Ending.failed (.raised i (.singleton p.label))).Within i xs.length := ⟨i, rfl, by omega, hle⟩
      exact ⟨hw, by simpa [Event.calls, Result.fail] using (⟨hle, hw, nofun⟩ : Call.Within xs.length ⟨i, _⟩)⟩
    · exact ⟨fun r hr => (nomatch hr), fun hle => by omega⟩
  idle i := ⟨fun r hr => (nomatch hr), fun hi => ⟨⟨Nat.le_refl i, hi, fun k hk => nomatch hk⟩, by simp⟩⟩
  declined h := ⟨fun r hr => (nomatch hr), fun hi => ⟨trivial, (h.2 hi).2⟩⟩
  next {i n l l' r e} h h' := by
    refine ⟨fun s hs => ?_, fun hi => ?_⟩
    · cases e with
      | failed s' =>
        cases hs
        simp [h'.1 s' rfl]
      | matched m s' => cases hs
      | gaveUp cause => cases hs
    · obtain ⟨⟨hin, hn, hr⟩, hl⟩ := h.2 hi
      obtain ⟨he, hl'⟩ := h'.2 hn
      refine ⟨(he.mono hin).aggregate hr, fun c hc => ?_⟩
      rw [Event.callsAll_append, List.mem_append] at hc
      exact hc.elim (hl c) (hl' c)
  absorb h := ⟨fun r hr => (nomatch hr), fun hi => by
    obtain ⟨⟨k, hk, hik, hks⟩, hl⟩ := h.2 hi
    exact ⟨⟨Nat.le_refl _, hi, fun j hj => by rw [hk] at hj; cases hj; exact ⟨hik, hks⟩⟩, hl⟩⟩
  back h := ⟨fun r hr => (nomatch hr), fun hi => by
    obtain ⟨⟨hin, hn, hr⟩, hl⟩ := h.2 hi
    exact ⟨⟨Nat.le_refl _, hi, hr⟩, hl⟩⟩
  refuse h he := ⟨fun r hr => by cases hr; exact he, fun hi => by
    obtain ⟨k, hk⟩ := Record.isEngaged_iff.1 he
    obtain ⟨⟨hin, hn, hr⟩, hl⟩ := h.2 hi
    exact ⟨⟨k, hk, hr k hk⟩, hl⟩⟩
  emptyChoice i := ⟨fun r hr => by cases hr; rfl, fun hi => ⟨⟨i, rfl, Nat.le_refl i, hi⟩, by simp [Event.calls]⟩⟩
  desc {i l e} label h := by
    refine ⟨fun r hr => ?_, fun hi => ⟨?_, by simpa [Event.calls] using (h.2 hi).2⟩⟩
    · cases e <;> cases hr
      rfl
    · cases e with
      | failed r => exact ⟨i, rfl, Nat.le_refl i, hi⟩
      | _ => exact (h.2 hi).1
  shouldFail {i l e} label h := by
    refine ⟨fun r hr => ?_, fun hi => ⟨?_, by simpa [Event.calls] using (h.2 hi).2⟩⟩
    · cases e <;> cases hr
      rfl
    · cases e with
      | matched n r => exact ⟨i, rfl, Nat.le_refl i, hi⟩
      | failed r => exact ⟨Nat.le_refl i, hi, fun k hk => nomatch hk⟩
      | gaveUp cause => trivial

end Discipline

/-- From a cursor within the input, an invocation ends within it, and has seen failures there only. -/
theorem Combination.ended_within (e : Combination σ ι α) {xs : List ι} {i : Nat} (hi : i ≤ xs.length)
    (env : Env σ) : (Ending.of ((e.parser xs i).outcome env)).Within i xs.length := by
  obtain ⟨-, -, hholds⟩ := (e.guides (.within xs) i).outcome env
  exact (hholds hi).1

namespace Discipline

/-! ## The entry points -/

/-- An entry point goes on from the outcome at the beginning by a function alone. -/
theorem Guides.enter {xs : List ι} {D : Discipline xs} {p : Parser σ ι α} {p' : Parser (Observed σ) ι α}
    (h : D.Guides p p') (f : Result α → β) :
    (do return f (← p xs 0) : Run σ β).Tracks (do return f (← p' xs 0)) fun l e =>
      ∃ o, D.holds 0 l (.of o) ∧ e = o.map f :=
  .bind (h 0) (fun l o ho => .pure ⟨.ok o, by simpa using ho, rfl⟩) fun l cause hc => ⟨.error cause, hc, rfl⟩

end Discipline

theorem Run.execute_bind_pure (x : Run σ α) (f : α → β) (env : Env σ) :
    (do return f (← x) : Run σ β).execute env = ((x.outcome env).map f, (x.execute env).2) := by
  rw [Run.outcome, Run.execute_bind]
  rcases x.execute env with ⟨cause | v, after⟩ <;> rfl

theorem Run.outcome_bind_pure (x : Run σ α) (f : α → β) (env : Env σ) :
    (do return f (← x) : Run σ β).outcome env = (x.outcome env).map f :=
  congrArg Prod.fst (Run.execute_bind_pure x f env)

namespace Parser

variable [Item ι] (p : Parser σ ι α) (xs : List ι)

/-- What `parse` makes of an outcome. -/
def wholeOf (xs : List ι) : Result α → Except ParseError α
  | .failure _ r => .error (.ofRecord xs r)
  | .success v next r =>
    if next = xs.length then .ok v
    else .error (.ofRecord xs ((Record.raised next (.singleton endLabel)).merge r))

/-- What `parsePartial` makes of an outcome. -/
def partOf (xs : List ι) : Result α → Except ParseError (α × List ι)
  | .failure _ r => .error (.ofRecord xs r)
  | .success v next _ => .ok (v, xs.drop next)

theorem parse_eq : p.parse xs = do return wholeOf xs (← p xs 0) := by
  refine bind_congr fun o => ?_
  cases o with
  | failure c r => rfl
  | success v n r =>
    simp only [wholeOf]
    split <;> rfl

theorem parsePartial_eq : p.parsePartial xs = do return partOf xs (← p xs 0) :=
  bind_congr fun o => by cases o <;> rfl

end Parser

/-! ## Main statement -/

/-- Where a call succeeds, the cursor is a sum that does not wrap in 64 bits. -/
def Call.AddsUp (c : Call) : Prop :=
  ∀ n r, c.ending = .matched n r →
    ∃ k, n = c.start + k ∧ (UInt64.ofNat c.start + UInt64.ofNat k).toNat = c.start + k

theorem Call.Within.addsUp {c : Call} {size : Nat} (h : c.Within size) (hs : size < UInt64.size) : c.AddsUp := by
  intro n r he
  have hw := h.ending_within
  rw [he] at hw
  obtain ⟨hle, hn, -⟩ := hw
  refine ⟨n - c.start, by omega, ?_⟩
  rw [UInt64.toNat_add, UInt64.toNat_ofNat_of_lt' (by omega), UInt64.toNat_ofNat_of_lt' (by omega)]
  exact Nat.mod_eq_of_lt (show c.start + (n - c.start) < UInt64.size by omega)

/-- From a cursor within the input, a success ends within it and has seen failures there only, and a failure
has an index there; every call of a primitive parser is within the input, and its cursor adds up. So it is for
an input that is parsed from its beginning, and the rest that `parsePartial` gives is cut off in bounds. -/
theorem cursor_within_input [Item ι] (e : Combination σ ι α) (xs : List ι) (hxs : xs.length < UInt64.size)
    (env : Env σ) :
    (∀ i ≤ xs.length,
      (∀ v n r, (e.parser xs i).outcome env = .ok (.success v n r) →
        i ≤ n ∧ n ≤ xs.length ∧ ∀ k, r.index = some k → i ≤ k ∧ k ≤ xs.length) ∧
      (∀ c r, (e.parser xs i).outcome env = .ok (.failure c r) →
        ∃ k, r.index = some k ∧ i ≤ k ∧ k ≤ xs.length) ∧
      (e.observed xs i).outcome (env.observe []) = (e.parser xs i).outcome env ∧
      ∀ c ∈ Event.callsAll ((e.observed xs i).noted env), c.Within xs.length ∧ c.AddsUp) ∧
    ((e.observed.parse xs).outcome (env.observe []) = (e.parser.parse xs).outcome env ∧
      ∀ c ∈ Event.callsAll ((e.observed.parse xs).noted env), c.Within xs.length ∧ c.AddsUp) ∧
    ((e.observed.parsePartial xs).outcome (env.observe []) = (e.parser.parsePartial xs).outcome env ∧
      ∀ c ∈ Event.callsAll ((e.observed.parsePartial xs).noted env), c.Within xs.length ∧ c.AddsUp) ∧
    ∀ v rest, (e.parser.parsePartial xs).outcome env = .ok (.ok (v, rest)) →
      ∃ n ≤ xs.length, rest = xs.drop n ∧ ∃ r, (e.parser xs 0).outcome env = .ok (.success v n r) := by
  have guides := e.guides (.within xs)
  have whole := (guides.enter (Parser.wholeOf xs)).outcome env
  have part := (guides.enter (Parser.partOf xs)).outcome env
  rw [← Parser.parse_eq, ← Parser.parse_eq] at whole
  rw [← Parser.parsePartial_eq, ← Parser.parsePartial_eq] at part
  have within : ∀ c : Call, c.Within xs.length → c.Within xs.length ∧ c.AddsUp := fun c hc => ⟨hc, hc.addsUp hxs⟩
  refine ⟨fun i hi => ?_, ?_, ?_, ?_⟩
  · obtain ⟨hrun, -, hholds⟩ := (guides i).outcome env
    obtain ⟨hw, hc⟩ := hholds hi
    refine ⟨fun v n r h => ?_, fun c r h => ?_, hrun, fun c h => within c (hc c h)⟩
    · rw [h] at hw
      exact hw
    · rw [h] at hw
      exact hw
  · obtain ⟨hrun, o, ⟨-, ho⟩, -⟩ := whole
    exact ⟨hrun, fun c h => within c ((ho (Nat.zero_le _)).2 c h)⟩
  · obtain ⟨hrun, o, ⟨-, ho⟩, -⟩ := part
    exact ⟨hrun, fun c h => within c ((ho (Nat.zero_le _)).2 c h)⟩
  · intro v rest h
    rw [Parser.parsePartial_eq, Run.outcome_bind_pure] at h
    rcases ho : (e.parser xs 0).outcome env with cause | ⟨w, n, r⟩ | ⟨c, r⟩ <;> rw [ho] at h <;> cases h
    obtain ⟨-, -, hholds⟩ := (guides 0).outcome env
    obtain ⟨hw, -⟩ := hholds (Nat.zero_le _)
    rw [ho] at hw
    exact ⟨n, hw.2.1, rfl, r, rfl⟩

/-- A digit that is read after a failure was absorbed one byte later. -/
theorem cursor_within_input_of_absorbed :
    let digit : Combination Unit UInt8 UInt8 := .primitive (.satisfy .digit)
    let e : Combination Unit UInt8 UInt8 := .alt (n := 2) (Fin.cons (digit.andThen digit) fun _ => digit)
    let xs : Bytes := [97, 49, 97]
    xs.length < UInt64.size ∧
      (e.parser xs 1).outcome ⟨.ofLevel .off, ()⟩ = .ok (.success 49 2 (.raised 2 (.singleton (ascii "a digit")))) ∧
      1 ≤ 2 ∧ 2 ≤ xs.length ∧
      ∀ c ∈ Event.callsAll ((e.observed xs 1).noted ⟨.ofLevel .off, ()⟩), c.Within xs.length ∧ c.AddsUp := by
  intro digit e xs
  have hxs : xs.length < UInt64.size := by decide
  have hrun : (e.parser xs 1).outcome ⟨.ofLevel .off, ()⟩ =
      .ok (.success 49 2 (.raised 2 (.singleton (ascii "a digit")))) := by decide
  obtain ⟨hcursor, -⟩ := cursor_within_input e xs hxs ⟨.ofLevel .off, ()⟩
  obtain ⟨hsuccess, -, -, hcalls⟩ := hcursor 1 (by decide)
  obtain ⟨hstart, hstop, -⟩ := hsuccess _ _ _ hrun
  exact ⟨hxs, hrun, hstart, hstop, hcalls⟩

end Furthest
