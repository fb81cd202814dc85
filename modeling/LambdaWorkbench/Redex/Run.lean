import LambdaWorkbench.Redex.Policy
import LambdaWorkbench.Redex.Reduce

/-!
# Runs

A run always reduces the redex that a policy picks. It ends at a term without redexes, or goes on
for ever; `Environment.normalize` follows it for a bounded number of steps.
-/

namespace LambdaWorkbench

/-- The next term of a run: `t` after the redex that `policy` picks, if it has one. -/
def Environment.advance (env : Environment) (policy : Policy) (t : Term) : Option Term :=
  match policy.select (env.redexes t) with
  | none => none
  | some address =>
    match env.reduceAt t address with
    | .ok next => next
    | .error _ => none

/-- A run in progress: the term it has reached, or nothing once it has ended. -/
structure Run where
  env : Environment
  policy : Policy
  current : Option Term

namespace Run

def start (env : Environment) (policy : Policy) (t : Term) : Run :=
  ⟨env, policy, some t⟩

/-- The next term of a run, and the run from there. A run that has yielded nothing has ended. -/
def next (run : Run) : Option Term × Run :=
  let reached := run.current.bind (run.env.advance run.policy)
  (reached, { run with current := reached })

/-- The next terms of a run, at most `count`. -/
def take : Nat → Run → List Term
  | 0, _ => []
  | count + 1, run =>
    match run.next with
    | (none, _) => []
    | (some t, later) => t :: take count later

end Run

/-- What a bounded run came to. -/
structure Normalized where
  steps : List Term
  isNormal : Bool
  deriving DecidableEq, Repr

/-- The term that a bounded run from `t` ended at. -/
def Normalized.last (outcome : Normalized) (t : Term) : Term :=
  outcome.steps.getLast?.getD t

/-- Reduces `t` by a policy until no redex is left or `maxSteps` steps have been made. -/
def Environment.normalize (env : Environment) (policy : Policy) (maxSteps : Nat) (t : Term) :
    Normalized :=
  let steps := (Run.start env policy t).take maxSteps
  ⟨steps, (env.redexes (steps.getLast?.getD t)).isEmpty⟩

end LambdaWorkbench
