import Furthest.Proofs.History
import Furthest.Proofs.Unfolding

/-!
# The lives of declarations

What becomes of a declaration is told by the history of a session alone. `Session.Since` has that something happened at
a step and was not undone since: a declaration holds its name since it was made, and is bound since a parser was built
for it under that name, each time anew; it has ended once its name was dropped or declared again. Declarations are
counted in the order in which they are made.

Main statements: `Session.Reflects.told`, which has that what is found in a store that reflects a history is what the
history tells, and the lemmas that have how a store comes to reflect one more step.
-/

namespace Furthest

variable {a : Alphabet}

namespace Session

/-! ## What a history tells -/

section Since

variable {happens undone : List (Step a) → Step a → Prop} {steps : List (Step a)} {step : Step a}

/-- Something happened at a step of a history, and was not undone at a later one. What happens at a step depends on the
steps before it. -/
def Since (happens undone : List (Step a) → Step a → Prop) (steps : List (Step a)) : Prop :=
  ∃ earlier step later, steps = earlier ++ step :: later ∧ happens earlier step ∧
    ∀ between step' rest, later = between ++ step' :: rest → ¬undone (earlier ++ step :: between) step'

/-- Something happened at a step of a history. -/
def Once (happens : List (Step a) → Step a → Prop) (steps : List (Step a)) : Prop :=
  ∃ earlier step later, steps = earlier ++ step :: later ∧ happens earlier step

theorem not_since_nil : ¬Since happens undone [] := by
  rintro ⟨earlier, step, later, h, -⟩
  simp at h

theorem not_once_nil : ¬Once happens [] := by
  rintro ⟨earlier, step, later, h, -⟩
  simp at h

/-- Something happened since at the last step, or before it and was not undone at it. -/
theorem since_concat :
    Since happens undone (steps ++ [step]) ↔ happens steps step ∨ Since happens undone steps ∧ ¬undone steps step := by
  constructor
  · rintro ⟨earlier, step', later, h, hhappens, hundone⟩
    rcases later.eq_nil_or_concat' with rfl | ⟨later, last, rfl⟩
    · obtain ⟨rfl, hlast⟩ := List.append_inj' h rfl
      cases hlast
      exact .inl hhappens
    · rw [← List.cons_append, ← List.append_assoc] at h
      obtain ⟨rfl, hlast⟩ := List.append_inj' h rfl
      cases hlast
      refine .inr ⟨⟨earlier, step', later, rfl, hhappens, fun between s rest hs => ?_⟩, hundone later _ [] rfl⟩
      exact hundone between s (rest ++ [step]) (by rw [hs]; simp)
  · rintro (h | ⟨⟨earlier, step', later, rfl, hhappens, hundone⟩, hlast⟩)
    · exact ⟨steps, step, [], rfl, h, fun between s rest hs => by simp at hs⟩
    · refine ⟨earlier, step', later ++ [step], by simp, hhappens, fun between s rest hs => ?_⟩
      rcases rest.eq_nil_or_concat' with rfl | ⟨rest, last, rfl⟩
      · obtain ⟨rfl, hs'⟩ := List.append_inj' hs rfl
        cases hs'
        exact hlast
      · rw [← List.cons_append, ← List.append_assoc] at hs
        exact hundone between s rest (List.append_inj' hs rfl).1

theorem once_concat : Once happens (steps ++ [step]) ↔ happens steps step ∨ Once happens steps := by
  have h : ∀ steps, Once happens steps ↔ Since happens (fun _ _ => False) steps := fun steps =>
    ⟨fun ⟨earlier, step, later, h, hh⟩ => ⟨earlier, step, later, h, hh, fun _ _ _ _ => id⟩,
      fun ⟨earlier, step, later, h, hh, _⟩ => ⟨earlier, step, later, h, hh⟩⟩
  rw [h, h, since_concat, not_false_eq_true, and_true]

end Since

namespace Step

/-- The step makes a declaration. -/
def declares : Step a → Bool
  | declare _ => true
  | _ => false

/-- The step ends the declaration that holds a name, if one does. -/
def Ends (name : Bytes) : Step a → Prop
  | declare name' | drop name' => name' = name
  | _ => False

end Step

/-- How many declarations a history makes: each of them has the count of those before it as its address. -/
def made (steps : List (Step a)) : Nat := steps.countP Step.declares

/-- The name holds the declaration at an address: it was declared then, and not ended since. -/
def Holds (steps : List (Step a)) (name : Bytes) (k : Nat) : Prop :=
  Since (fun earlier step => step = .declare name ∧ made earlier = k) (fun _ step => step.Ends name) steps

/-- The declaration at an address has ended: it was held by a name of which the declaration was ended. -/
def Ended (steps : List (Step a)) (k : Nat) : Prop :=
  Once (fun earlier step => ∃ name, Holds earlier name k ∧ step.Ends name) steps

/-- The step binds the declaration at an address to what is built of its description. -/
def Binds (start : Env (Store a)) (k : Nat) (q : Grammar a) (earlier : List (Step a)) (step : Step a) : Prop :=
  ∃ name p, step = .become name p ∧ Holds earlier name k ∧ p.build.outcome (after earlier start) = .ok q

/-- The declaration at an address was bound, and not bound again since. -/
def Bound (start : Env (Store a)) (steps : List (Step a)) (k : Nat) (q : Grammar a) : Prop :=
  Since (Binds start k q) (fun earlier step => ∃ q', Binds start k q' earlier step) steps

/-- What is found of a declaration is what a history tells: that it has ended, or that it was not bound, or what it was
bound to last. -/
structure Told (start : Env (Store a)) (steps : List (Step a)) (k : Nat) (found : Except Fault (Grammar a)) : Prop where
  gone : found = .error .declarationGone ↔ Ended steps k
  unbound : found = .error .declarationUnbound ↔ ¬Ended steps k ∧ ∀ q, ¬Bound start steps k q
  bound (q : Grammar a) : found = .ok q ↔ ¬Ended steps k ∧ Bound start steps k q

end Session

/-! ## What the store has -/

namespace Store

/-- What is found of the declaration at an address. -/
def standing (s : Store a) (k : Nat) : Except Fault (Grammar a) :=
  match s.declarations[k]? with
  | none => .error .unknownName
  | some .unbound => .error .declarationUnbound
  | some .gone => .error .declarationGone
  | some (.bound q) => .ok q

theorem standing_congr {s s' : Store a} {k : Nat} (h : s'.declarations[k]? = s.declarations[k]?) :
    s'.standing k = s.standing k := by
  rw [standing, standing, h]

theorem lookup_filter_ne {β : Type} (l : List (Bytes × β)) (name name' : Bytes) :
    (l.filter (·.1 ≠ name)).lookup name' = if name' = name then none else l.lookup name' := by
  induction l with
  | nil => simp
  | cons x l ih =>
    obtain ⟨key, v⟩ := x
    by_cases hkey : key = name
    · subst hkey
      rw [List.filter_cons_of_neg (by simp), ih]
      by_cases h : name' = key
      · rw [if_pos h, if_pos h]
      · rw [if_neg h, if_neg h, List.lookup_cons, beq_eq_false_iff_ne.2 h]
    · rw [List.filter_cons_of_pos (by simpa using hkey), List.lookup_cons, List.lookup_cons, ih]
      by_cases h : name' = key
      · simp [h, hkey]
      · simp [beq_eq_false_iff_ne.2 h]

variable (s : Store a) (name : Bytes)

theorem lookup_drop (name' : Bytes) :
    (s.drop name).names.lookup name' = if name' = name then none else s.names.lookup name' := by
  unfold drop
  split
  · exact lookup_filter_ne ..
  · next h =>
    split
    · next heq => rw [heq, h]
    · rfl

theorem size_declarations_drop : (s.drop name).declarations.size = s.declarations.size := by
  unfold drop
  split
  · exact Array.size_setIfInBounds
  · rfl

/-- The declaration that a name holds has ended where the name is dropped. -/
theorem getElem?_drop (k : Nat) : (s.drop name).declarations[k]? =
    if s.names.lookup name = some k ∧ k < s.declarations.size then some .gone else s.declarations[k]? := by
  unfold drop
  split
  · next address h =>
    show (s.declarations.setIfInBounds address .gone)[k]? = _
    rw [Array.getElem?_setIfInBounds, h]
    by_cases hk : address = k
    · subst hk
      by_cases hlt : address < s.declarations.size
      · rw [if_pos rfl, if_pos hlt, if_pos ⟨rfl, hlt⟩]
      · rw [if_pos rfl, if_neg hlt, if_neg fun h => hlt h.2, Array.getElem?_eq_none (Nat.le_of_not_lt hlt)]
    · rw [if_neg hk, if_neg fun h => hk (Option.some.inj h.1)]
  · next h => rw [h, if_neg fun h => nomatch h.1]

theorem lookup_names_declare (name' : Bytes) : (s.declare name).names.lookup name' =
    if name' = name then some s.declarations.size else s.names.lookup name' := by
  show List.lookup name' ((name, (s.drop name).declarations.size) :: (s.drop name).names) = _
  rw [List.lookup_cons, size_declarations_drop, lookup_drop]
  by_cases h : name' = name
  · simp [h]
  · simp [h, beq_eq_false_iff_ne.2 h]

/-- Where a name is declared, the declaration that it held has ended, and the new one is not bound. -/
theorem getElem?_declare (k : Nat) : (s.declare name).declarations[k]? =
    if k = s.declarations.size then some .unbound else (s.drop name).declarations[k]? := by
  show ((s.drop name).declarations.push .unbound)[k]? = _
  rw [Array.getElem?_push, size_declarations_drop]

end Store

theorem Grammar.execute_definition (k : Nat) (env : Env (Store a)) :
    (definition k).execute env = (env.store.standing k, env) := by
  simp only [definition, Run.execute_bind, Run.execute_getStore, Store.standing]
  rcases env.store.declarations[k]? with _ | _ | _ | _ <;> rfl

namespace Session

variable {start : Env (Store a)} {steps : List (Step a)} {step : Step a} {s t : Store a} {name : Bytes} {k : Nat}

/-! ## One more step of a history -/

theorem made_concat : made (steps ++ [step]) = made steps + if step.declares then 1 else 0 := by
  rw [made, List.countP_append, List.countP_singleton]
  rfl

theorem holds_concat : Holds (steps ++ [step]) name k ↔
    step = .declare name ∧ made steps = k ∨ Holds steps name k ∧ ¬step.Ends name := since_concat

theorem ended_concat : Ended (steps ++ [step]) k ↔ (∃ name, Holds steps name k ∧ step.Ends name) ∨ Ended steps k :=
  once_concat

theorem bound_concat {q : Grammar a} : Bound start (steps ++ [step]) k q ↔
    Binds start k q steps step ∨ Bound start steps k q ∧ ¬∃ q', Binds start k q' steps step := since_concat

/-- Names hold what they held after a step that neither makes nor ends a declaration. -/
theorem holds_concat_of (steps : List (Step a)) (hmade : step.declares = false) (hends : ∀ name, ¬step.Ends name)
    (name : Bytes) (k : Nat) : Holds (steps ++ [step]) name k ↔ Holds steps name k := by
  have hne : step ≠ .declare name := fun h => by
    rw [h] at hmade
    cases hmade
  simp [holds_concat, hends, hne]

theorem ended_concat_of (steps : List (Step a)) (hends : ∀ name, ¬step.Ends name) (k : Nat) :
    Ended (steps ++ [step]) k ↔ Ended steps k := by
  simp [ended_concat, hends]

/-- A store has what a history tells of declarations. -/
structure Reflects (start : Env (Store a)) (steps : List (Step a)) (s : Store a) : Prop where
  size : s.declarations.size = made steps
  names {name : Bytes} {k : Nat} : s.names.lookup name = some k ↔ Holds steps name k
  gone {k : Nat} : s.declarations[k]? = some .gone ↔ Ended steps k
  bound {k : Nat} {q : Grammar a} : s.declarations[k]? = some (.bound q) ↔ ¬Ended steps k ∧ Bound start steps k q
  /-- A declaration that a name holds is there and has not ended, and no other name holds it. -/
  alive {name : Bytes} {k : Nat} (h : s.names.lookup name = some k) :
    k < s.declarations.size ∧ ¬Ended steps k ∧ ∀ name', s.names.lookup name' = some k → name' = name

namespace Reflects

/-- What is found of a declaration is what the history tells. -/
theorem told (h : Reflects start steps s) (hk : k < made steps) : Told start steps k (s.standing k) := by
  obtain ⟨d, hd⟩ : ∃ d, s.declarations[k]? = some d := ⟨_, Array.getElem?_eq_getElem (h.size ▸ hk)⟩
  have hgone := h.gone (k := k)
  have hbound := fun q => h.bound (k := k) (q := q)
  rw [Store.standing, hd] at *
  cases d with
  | unbound =>
    simp only [Option.some.injEq, reduceCtorEq, false_iff] at hgone hbound
    exact ⟨by simp [hgone], by simpa [hgone] using hbound, by simpa [hgone] using hbound⟩
  | gone =>
    simp only [true_iff] at hgone
    exact ⟨by simp [hgone], by simp [hgone], by simp [hgone]⟩
  | bound q =>
    simp only [Option.some.injEq, reduceCtorEq, false_iff, Declaration.bound.injEq] at hgone hbound
    have hq : Bound start steps k q := ((hbound q).1 rfl).2
    exact ⟨by simp [hgone], by simpa [hgone] using ⟨q, hq⟩, by simpa [hgone] using hbound⟩

/-- A step that makes, ends and binds no declaration. -/
theorem idle (h : Reflects start steps s) (hmade : step.declares = false) (hends : ∀ name, ¬step.Ends name)
    (hbinds : ∀ k q, ¬Binds start k q steps step) (hnames : t.names = s.names)
    (hdeclarations : t.declarations = s.declarations) : Reflects start (steps ++ [step]) t := by
  have hholds := holds_concat_of steps hmade hends
  have hended := ended_concat_of steps hends
  have hbound (k : Nat) (q : Grammar a) : Bound start (steps ++ [step]) k q ↔ Bound start steps k q := by
    simp [bound_concat, hbinds]
  constructor
  · simp [hdeclarations, h.size, made_concat, hmade]
  · simp [hnames, h.names, hholds]
  · simp [hdeclarations, h.gone, hended]
  · simp [hdeclarations, h.bound, hended, hbound]
  · intro name k hk
    simp only [hnames, hdeclarations, hended] at hk ⊢
    exact h.alive hk

/-- The declaration that a name holds is ended. -/
theorem drop (h : Reflects start steps s) (name : Bytes) : Reflects start (steps ++ [.drop name]) (s.drop name) := by
  have hended (k : Nat) : Ended (steps ++ [.drop name]) k ↔ s.names.lookup name = some k ∨ Ended steps k := by
    simp [ended_concat, Step.Ends, h.names]
  have hbound (k : Nat) (q : Grammar a) : Bound start (steps ++ [.drop name]) k q ↔ Bound start steps k q := by
    simp [bound_concat, Binds]
  have hget (k : Nat) : (s.drop name).declarations[k]? =
      if s.names.lookup name = some k then some .gone else s.declarations[k]? := by
    rw [s.getElem?_drop]
    exact if_congr (and_iff_left_of_imp fun hk => (h.alive hk).1) rfl rfl
  constructor
  · simp [s.size_declarations_drop, h.size, made_concat, Step.declares]
  · intro name' k
    simp only [s.lookup_drop, holds_concat, Step.Ends, ← h.names, reduceCtorEq, false_and, false_or]
    split <;> simp_all [eq_comm]
  · intro k
    rw [hget, hended]
    split <;> simp_all [h.gone]
  · intro k q
    rw [hget, hended, hbound]
    split <;> simp_all [h.bound]
  · intro name' k hk
    simp only [s.lookup_drop] at hk ⊢
    split at hk
    · cases hk
    · next hne =>
      obtain ⟨hlt, hnot, hunique⟩ := h.alive hk
      refine ⟨s.size_declarations_drop name ▸ hlt, ?_, fun name'' => ?_⟩
      · rw [hended]
        rintro (hk' | he)
        · exact hne ((h.alive hk').2.2 name' hk)
        · exact hnot he
      · split
        · nofun
        · exact hunique name''

/-- A declaration is made, and the one that its name held is ended. -/
theorem declare (h : Reflects start steps s) (name : Bytes) :
    Reflects start (steps ++ [.declare name]) (s.declare name) := by
  have hdrop := h.drop name
  have hended (k : Nat) : Ended (steps ++ [.declare name]) k ↔ Ended (steps ++ [.drop name]) k := by
    simp [ended_concat, Step.Ends]
  have hbound (k : Nat) (q : Grammar a) :
      Bound start (steps ++ [.declare name]) k q ↔ Bound start (steps ++ [.drop name]) k q := by
    simp [bound_concat, Binds]
  have hholds (name' : Bytes) (k : Nat) : Holds (steps ++ [.declare name]) name' k ↔
      name = name' ∧ made steps = k ∨ Holds (steps ++ [.drop name]) name' k := by
    simp [holds_concat, Step.Ends]
  have hlookup (name' : Bytes) : (s.declare name).names.lookup name' =
      if name' = name then some s.declarations.size else (s.drop name).names.lookup name' := by
    rw [s.lookup_names_declare, s.lookup_drop]
    split <;> simp_all
  have hsize : (s.drop name).declarations.size = s.declarations.size := s.size_declarations_drop name
  have hnew : (s.drop name).declarations[s.declarations.size]? = none := Array.getElem?_eq_none hsize.le
  have hsize' : (s.declare name).declarations.size = s.declarations.size + 1 := by
    rw [← hsize]
    exact Array.size_push ..
  have hfresh : ¬Ended (steps ++ [.drop name]) s.declarations.size := by
    rw [← hdrop.gone, hnew]
    nofun
  constructor
  · rw [hsize', h.size, made_concat]
    rfl
  · intro name' k
    rw [hlookup, hholds, ← hdrop.names, ← h.size]
    split
    · next he => simp [he, s.lookup_drop]
    · next hne => simp [Ne.symm hne]
  · intro k
    rw [s.getElem?_declare, hended]
    split
    · next hk => simp [hk, hfresh]
    · exact hdrop.gone
  · intro k q
    rw [s.getElem?_declare, hended, hbound, ← hdrop.bound]
    split
    · next hk => simp [hk, hnew]
    · rfl
  · intro name' k hk
    rw [hlookup] at hk
    rw [hsize', hended]
    split at hk
    · next he =>
      obtain rfl : s.declarations.size = k := Option.some.inj hk
      refine ⟨Nat.lt_succ_self _, hfresh, fun name'' hk' => ?_⟩
      rw [hlookup] at hk'
      split at hk'
      · next he' => rw [he, he']
      · exact absurd (hsize ▸ (hdrop.alive hk').1) (Nat.lt_irrefl _)
    · obtain ⟨hlt, hnot, hunique⟩ := hdrop.alive hk
      refine ⟨Nat.lt_succ_of_lt (hsize ▸ hlt), hnot, fun name'' hk' => ?_⟩
      rw [hlookup] at hk'
      split at hk'
      · exact absurd (Option.some.inj hk' ▸ hsize ▸ hlt) (Nat.lt_irrefl _)
      · exact hunique name'' hk'

/-- The declaration that a name holds is bound to what was built. -/
theorem become (h : Reflects start steps s) {name : Bytes} {k : Nat} {q : Grammar a}
    (hk : s.names.lookup name = some k) (hbinds : ∀ k' q', Binds start k' q' steps step ↔ k' = k ∧ q' = q)
    (hmade : step.declares = false) (hends : ∀ name, ¬step.Ends name) (hnames : t.names = s.names)
    (hdeclarations : t.declarations = s.declarations) :
    Reflects start (steps ++ [step]) (t.setDeclaration k (.bound q)) := by
  have hholds := holds_concat_of steps hmade hends
  have hended := ended_concat_of steps hends
  have hbound (k' : Nat) (q' : Grammar a) : Bound start (steps ++ [step]) k' q' ↔
      k' = k ∧ q' = q ∨ k' ≠ k ∧ Bound start steps k' q' := by
    simp [bound_concat, hbinds, and_comm]
  obtain ⟨hlt, hnot, -⟩ := h.alive hk
  have hget (k' : Nat) : (t.setDeclaration k (.bound q)).declarations[k']? =
      if k' = k then some (.bound q) else s.declarations[k']? := by
    show (t.declarations.setIfInBounds k (.bound q))[k']? = _
    rw [hdeclarations, Array.getElem?_setIfInBounds, if_pos hlt]
    exact if_congr eq_comm rfl rfl
  have hsize : (t.setDeclaration k (.bound q)).declarations.size = s.declarations.size := by
    rw [← hdeclarations]
    exact Array.size_setIfInBounds
  constructor
  · simp [hsize, h.size, made_concat, hmade]
  · intro name' k'
    rw [hholds, ← h.names, ← hnames]
    rfl
  · intro k'
    rw [hget, hended]
    split
    · next he => simp [he, hnot]
    · exact h.gone
  · intro k' q'
    rw [hget, hended, hbound]
    split
    · next he => simp [he, hnot, eq_comm]
    · next hne => simp [hne, h.bound]
  · intro name' k' hk'
    have hk' : s.names.lookup name' = some k' := hnames ▸ hk'
    obtain ⟨hlt, hnot, hunique⟩ := h.alive hk'
    exact ⟨hsize ▸ hlt, (hended k').not.2 hnot, fun name'' hk'' => hunique name'' (hnames ▸ hk'')⟩

end Reflects

end Session

end Furthest
