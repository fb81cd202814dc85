import LambdaWorkbench.Prompt.Failure

/-!
# Evaluation

What is typed is carried out on a desk: the session and the lines printed so far. An evaluation
changes the desk step by step and may fail; whatever it did before it failed stays done.
-/

namespace LambdaWorkbench

/-- The state that evaluations work on. -/
structure Desk where
  session : Session
  printed : Array String

/-- The conditions of an evaluation. -/
structure Setting where
  files : Files
  /-- The number of steps after which a run gives up. -/
  maxSteps : Nat
  stopped : Bool

/-- A computation on the desk that may fail. -/
abbrev Eval := ExceptT Failure (StateM Desk)

namespace Eval

def session : Eval Session := do
  return (← get).session

def setSession (session : Session) : Eval Unit :=
  modify fun desk => { desk with session }

def say (line : String) : Eval Unit :=
  modify fun desk => { desk with printed := desk.printed.push line }

/-- The value of a result, or failure with its fault. -/
def ofExcept {ε α : Type} (fault : ε → Failure) : Except ε α → Eval α
  | .ok value => pure value
  | .error error => throw (fault error)

/-- An evaluation whose failures are told as failures of an activity. -/
def during {α : Type} (activity : Activity) (eval : Eval α) : Eval α :=
  ExceptT.adapt (.during activity) eval

/-- Carries out an operation of the session that yields a value and the new session. -/
def ask {α : Type} (operation : Session → Except SessionError (α × Session)) : Eval α := do
  let (value, next) ← ofExcept .session (operation (← session))
  setSession next
  return value

/-- Carries out an operation of the session that may have nothing to do. -/
def tryAsk {α : Type} (operation : Session → Except SessionError (Option (α × Session))) :
    Eval (Option α) := do
  match ← ofExcept .session (operation (← session)) with
  | some (value, next) => do
    setSession next
    return some value
  | none => return none

/-- Reads an unsigned number for the given activity. -/
def readNumber (activity : Activity) (text : String) : Eval Nat :=
  during activity (ofExcept .number (Text.readUnsigned Text.maxWord text))

def sayTerm (mark : String) (t : Term) : Eval Unit := do
  say (mark ++ (← session).render t)

end Eval

end LambdaWorkbench
