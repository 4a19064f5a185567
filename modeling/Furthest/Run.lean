import Furthest.Log
import Furthest.Result

/-!
# Runs

An invocation writes to a log, may use a store that the combinators never look into, and either ends or is
given up with a fault. What was written before a fault stays written.
-/

namespace Furthest

/-- What an invocation can change: the log, and a store for deferred parsers. -/
structure Env (σ : Type) where
  log : Log
  store : σ

/-- A computation that changes an environment and ends, or is given up with a fault. -/
abbrev Run (σ : Type) := ExceptT Fault (StateM (Env σ))

namespace Run

variable {σ α β : Type}

/-- Runs a computation in an environment: how it ends, and the environment after it. -/
def execute (x : Run σ α) (env : Env σ) : Except Fault α × Env σ := x.run.run env

/-- How a computation ends in an environment. -/
def outcome (x : Run σ α) (env : Env σ) : Except Fault α := (execute x env).1

/-- Ends with a value or a fault, and changes nothing. -/
def ofExcept (x : Except Fault α) : Run σ α := ExceptT.mk (pure x)

/-- Gives up with a fault. -/
def giveUp (cause : Fault) : Run σ α := ofExcept (.error cause)

/-- Writes an entry to the log. -/
def record (e : Entry) : Run σ Unit := modify fun env => { env with log := env.log.record e }

/-- Changes the level of the log. -/
def setLevel (level : Level) : Run σ Unit :=
  modify fun env => { env with log := { env.log with level } }

/-- The store. -/
def getStore : Run σ σ := do return (← get).store

/-- Changes the store. -/
def modifyStore (f : σ → σ) : Run σ Unit := modify fun env => { env with store := f env.store }

@[simp] theorem execute_pure (v : α) (env : Env σ) : execute (pure v) env = (.ok v, env) := rfl

theorem execute_bind (x : Run σ α) (f : α → Run σ β) (env : Env σ) :
    execute (x >>= f) env = match execute x env with
      | (.ok v, env) => execute (f v) env
      | (.error cause, env) => (.error cause, env) := by
  simp only [execute, ExceptT.run_bind, StateT.run_bind]
  rcases x.run.run env with ⟨_ | _, env⟩ <;> rfl

/-- A computation that ends after another one began where that ended. -/
theorem exists_of_bind {x : Run σ α} {f : α → Run σ β} {env after : Env σ} {w : β}
    (h : execute (x >>= f) env = (.ok w, after)) :
    ∃ v env', execute x env = (.ok v, env') ∧ execute (f v) env' = (.ok w, after) := by
  rw [execute_bind] at h
  rcases hx : execute x env with ⟨cause | v, env'⟩ <;> rw [hx] at h
  · cases h
  · exact ⟨v, env', rfl, h⟩

/-- What a computation cannot end with plays no part in how it goes on. -/
theorem bind_congr_of_outcome {x : Run σ α} {f f' : α → Run σ β} (h : ∀ env v, x.outcome env = .ok v → f v = f' v) :
    x >>= f = x >>= f' := funext fun env => by
  show (x >>= f).execute env = (x >>= f').execute env
  have hv := h env
  rw [outcome] at hv
  rw [execute_bind, execute_bind]
  generalize x.execute env = ran at hv ⊢
  obtain ⟨cause | v, after⟩ := ran
  · rfl
  · exact congrArg (fun y : Run σ β => y.execute after) (hv v rfl)

@[simp] theorem execute_ofExcept (x : Except Fault α) (env : Env σ) :
    execute (ofExcept x) env = (x, env) := rfl

@[simp] theorem execute_giveUp (cause : Fault) (env : Env σ) :
    execute (giveUp cause : Run σ α) env = (.error cause, env) := rfl

@[simp] theorem execute_record (e : Entry) (env : Env σ) :
    execute (record e) env = (.ok (), { env with log := env.log.record e }) := rfl

@[simp] theorem execute_getStore (env : Env σ) : execute getStore env = (.ok env.store, env) := rfl

@[simp] theorem execute_modifyStore (f : σ → σ) (env : Env σ) :
    execute (modifyStore f) env = (.ok (), { env with store := f env.store }) := rfl

end Run

namespace Result

variable {σ α β : Type}

/-- Goes on after a success with its value, its cursor and its record. A failure is made anew from its
record, as an outcome of the other type. -/
def proceed (r : Result α) (next : α → Nat → Record → Run σ (Result β)) : Run σ (Result β) :=
  match r with
  | success v cursor f => next v cursor f
  | failure _ f => Run.ofExcept (ofRecord f)

end Result

end Furthest
