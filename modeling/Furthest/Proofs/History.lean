import Furthest.Session

/-!
# Histories of sessions

A session goes on step by step: parsers are built and invoked, definitions are made, declarations are made, bound and
ended. A step that is given up leaves what it has changed until then. `Session.after` is the environment that some
steps leave.
-/

namespace Furthest.Session

variable {a : Alphabet}

/-- Builds a parser and invokes it on an input at a cursor, with a limit of nesting. -/
def invokeWithin (limit : Nat) (p : Grammar a) (xs : List a.Carrier) (i : Nat) : Run (Store a) (Result Value) := do
  (← p.build).parserWithin limit xs i

/-- An invocation has a limit beyond all that end. -/
theorem invoke_eq (p : Grammar a) (xs : List a.Carrier) (i : Nat) :
    invoke p xs i = invokeWithin Grammar.nestingLimit p xs i := rfl

/-- A step of a session. -/
inductive Step (a : Alphabet) where
  | invoke (p : Grammar a) (xs : List a.Carrier) (i : Nat)
  | define (name : Bytes) (p : Grammar a)
  | declare (name : Bytes)
  | become (name : Bytes) (p : Grammar a)
  | drop (name : Bytes)

namespace Step

/-- What the step does. The outcome of an invocation is not kept. -/
def run : Step a → Run (Store a) Unit
  | invoke p xs i => do let _ ← Session.invoke p xs i
  | define name p => Session.define name p
  | declare name => Session.declare name
  | become name p => Session.become name p
  | drop name => Session.drop name

/-- The step invokes a parser. -/
def IsInvoke : Step a → Prop
  | invoke .. => True
  | _ => False

/-- The description that the step builds, if it builds one. -/
def described : Step a → Option (Grammar a)
  | invoke p _ _ | define _ p | become _ p => some p
  | declare _ | drop _ => none

/-- An invocation that is a step leaves what it leaves otherwise. -/
theorem execute_run_invoke (p : Grammar a) (xs : List a.Carrier) (i : Nat) (env : Env (Store a)) :
    ((invoke p xs i).run.execute env).2 = ((invokeWithin Grammar.nestingLimit p xs i).execute env).2 := by
  rw [run, Run.execute_bind, ← invoke_eq]
  rcases (Session.invoke p xs i).execute env with ⟨_ | _, _⟩ <;> rfl

end Step

/-- The environment after some steps. -/
def after (steps : List (Step a)) (env : Env (Store a)) : Env (Store a) :=
  steps.foldl (fun env step => (step.run.execute env).2) env

theorem after_append (steps steps' : List (Step a)) (env : Env (Store a)) :
    after (steps ++ steps') env = after steps' (after steps env) := List.foldl_append ..

/-- What holds at first, and after every step before which it holds, holds after all steps. -/
theorem after_induction {I : Env (Store a) → Prop} {steps : List (Step a)} {env : Env (Store a)} (h : I env)
    (hstep : ∀ step ∈ steps, ∀ env, I env → I (step.run.execute env).2) : I (after steps env) :=
  List.foldlRecOn steps _ h fun env henv step hs => hstep step hs env henv

end Furthest.Session
