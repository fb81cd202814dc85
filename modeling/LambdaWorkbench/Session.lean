import LambdaWorkbench.Environment.Definitions
import LambdaWorkbench.History
import LambdaWorkbench.Redex.Run
import LambdaWorkbench.Term.Render

/-!
# Sessions

A term that is reduced one chosen step at a time, together with the definitions its free names are
looked up in and the choices that apply to printing, picking and reading.
-/

namespace LambdaWorkbench

/-- Why a session cannot do what it is asked to. -/
inductive SessionError where
  | parse (cause : ParseError)
  | address (cause : AddressError)
  | noTerm
  /-- There are `count` redexes, and none has the given number. -/
  | noSuchRedex (number count : Nat)
  deriving DecidableEq, Repr

namespace SessionError

/-- The wording of a fault, then that of its cause, and so on. A parse error or an address error
speaks for itself. -/
def trail : SessionError → List String
  | parse cause => cause.trail
  | address cause => [cause.message]
  | noTerm => ["no term loaded"]
  | noSuchRedex number count =>
    ["there is no redex number " ++ toString number ++ " (" ++ toString count ++ " available)"]

def message : SessionError → String
  | parse cause => cause.message
  | error => error.trail.headD ""

end SessionError

structure Session where
  env : Environment
  /-- The terms of the current reduction, once a term has been loaded. -/
  history : Option History
  style : Style
  policy : Policy
  /-- Whether expressions have to be balanced. -/
  strict : Bool
  deriving DecidableEq

namespace Session

/-- A session without a term, with the standard choices. -/
def new (env : Environment) : Session :=
  ⟨env, none, .named, .normalOrder, false⟩

def current (session : Session) : Option Term :=
  session.history.map History.current

/-- The history, which only a loaded term has. -/
def loaded (session : Session) : Except SessionError History :=
  match session.history with
  | some history => .ok history
  | none => .error .noTerm

/-- Reads a term as the session's strictness says. -/
def read (session : Session) (text : String) : Except ParseError Term :=
  if session.strict then Term.parseStrict text else Term.parse text

/-- Reads a term and starts a history with it. -/
def load (session : Session) (text : String) : Except SessionError (Term × Session) :=
  match session.read text with
  | .ok t => .ok (t, { session with history := some (History.start t) })
  | .error cause => .error (.parse cause)

/-- Makes `text` the definition of `name`, whatever the strictness. Returns the definition it
replaces. -/
def define (session : Session) (name text : String) :
    Except SessionError (Option Term × Session) :=
  match session.env.define name text with
  | .ok (old, env) => .ok (old, { session with env })
  | .error cause => .error (.parse cause)

def redexes (session : Session) : Except SessionError (List Address) := do
  let history ← session.loaded
  return session.env.redexes history.current

/-- What reducing the current term at `address` would do, or why it would do nothing. -/
def describe (session : Session) (address : Address) :
    Except SessionError (Except Inert Redex) := do
  let history ← session.loaded
  (session.env.classify history.current address).mapError .address

/-- Reduces the current term at `address`. Nothing comes back when that place is inert. -/
def step (session : Session) (address : Address) :
    Except SessionError (Option (Term × Session)) := do
  let history ← session.loaded
  let next ← (session.env.reduceAt history.current address).mapError .address
  return next.map fun t => (t, { session with history := some (history.push t) })

/-- Reduces the redex of the given number, counted from one. -/
def stepNth (session : Session) (number : Nat) :
    Except SessionError (Option (Term × Session)) := do
  let redexes ← session.redexes
  match number, redexes[number - 1]? with
  | _ + 1, some address => session.step address
  | _, _ => .error (.noSuchRedex number redexes.length)

/-- Reduces the redex that the policy picks. Nothing comes back when there is none. -/
def stepAuto (session : Session) : Except SessionError (Option (Term × Session)) := do
  let redexes ← session.redexes
  match session.policy.select redexes with
  | some address => session.step address
  | none => return none

/-- Takes back the newest term, unless it is the one that was loaded. -/
def undo (session : Session) : Except SessionError (Option (Term × Session)) := do
  let history ← session.loaded
  match history.undo with
  | (some t, older) => return some (t, { session with history := some older })
  | (none, _) => return none

/-- Goes back to the term after `steps` reductions and forgets those after it. -/
def rewind (session : Session) (steps : Nat) : Except SessionError (Term × Session) := do
  let history ← session.loaded
  let kept := history.truncate (steps + 1)
  return (kept.current, { session with history := some kept })

def render (session : Session) (t : Term) : String :=
  t.render session.style

end Session

end LambdaWorkbench
