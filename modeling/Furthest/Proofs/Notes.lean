import Furthest.Run

/-!
# Runs that take notes

A run over `Noted ε σ` keeps notes beside its store. `Run.unnoted` is a run that takes none, `Run.note` takes one,
`Run.gathered` makes one note of all that are taken meanwhile, also where the run is given up, and
`Run.notingFault` takes one if it is.
-/

namespace Furthest

variable {ε σ α : Type}

/-- A store, and what was noted. -/
structure Noted (ε σ : Type) where
  store : σ
  notes : List ε

/-- The environment with some notes beside its store. -/
def Env.noting (env : Env σ) (notes : List ε) : Env (Noted ε σ) := ⟨env.log, ⟨env.store, notes⟩⟩

namespace Run

/-- Runs a computation that takes no notes. -/
def unnoted (x : Run σ α) : Run (Noted ε σ) α :=
  ExceptT.mk fun env =>
    let (ended, after) := x.execute ⟨env.log, env.store.store⟩
    pure (ended, after.noting env.store.notes)

/-- Takes a note. -/
def note (e : ε) : Run (Noted ε σ) Unit := modifyStore fun s => { s with notes := s.notes ++ [e] }

/-- Makes one note of all that a computation notes. -/
def gathered (x : Run (Noted ε σ) α) (note : Except Fault α → List ε → ε) : Run (Noted ε σ) α :=
  ExceptT.mk fun env =>
    let (ended, after) := x.execute ⟨env.log, ⟨env.store.store, []⟩⟩
    pure (ended, Env.noting ⟨after.log, after.store.store⟩ (env.store.notes ++ [note ended after.store.notes]))

/-- Takes a note if a computation is given up. -/
def notingFault (x : Run (Noted ε σ) α) (note : Fault → ε) : Run (Noted ε σ) α :=
  ExceptT.mk fun env =>
    pure (match x.execute env with
      | (.ok v, after) => (.ok v, after)
      | (.error cause, after) =>
        (.error cause, Env.noting ⟨after.log, after.store.store⟩ (after.store.notes ++ [note cause])))

theorem execute_unnoted (x : Run σ α) (env : Env σ) (notes : List ε) :
    (unnoted x).execute (env.noting notes) = ((x.execute env).1, (x.execute env).2.noting notes) := rfl

@[simp] theorem execute_note (e : ε) (env : Env σ) (notes : List ε) :
    (note e).execute (env.noting notes) = (.ok (), env.noting (notes ++ [e])) := rfl

theorem execute_gathered {x : Run (Noted ε σ) α} {env after : Env σ} {ended : Except Fault α} {taken : List ε}
    (h : x.execute (env.noting []) = (ended, after.noting taken)) (note : Except Fault α → List ε → ε)
    (notes : List ε) :
    (x.gathered note).execute (env.noting notes) = (ended, after.noting (notes ++ [note ended taken])) := by
  show (let (ended, after) := x.execute (env.noting [])
    (ended, Env.noting ⟨after.log, after.store.store⟩ (notes ++ [note ended after.store.notes]))) = _
  rw [h]
  rfl

theorem execute_notingFault (x : Run (Noted ε σ) α) (note : Fault → ε) (env : Env (Noted ε σ)) :
    (x.notingFault note).execute env = match x.execute env with
      | (.ok v, after) => (.ok v, after)
      | (.error cause, after) =>
        (.error cause, Env.noting ⟨after.log, after.store.store⟩ (after.store.notes ++ [note cause])) := rfl

end Run

end Furthest
