import LambdaWorkbench.Prompt.Eval
import LambdaWorkbench.Prompt.Command

/-!
# Lines at the prompt

A line is a command after a colon, a definition, or an expression to reduce. An expression and
every command that changes the current term print the new term and its redexes, numbered for
`:step`.
-/

namespace LambdaWorkbench.Prompt

open Eval

def redexLine (session : Session) (number : Nat) (address : Address) (sub : Term)
    (what : String) : String :=
  "  [" ++ toString number ++ "] " ++ address.render ++ ": " ++ session.render sub ++ "  ("
    ++ what ++ ")"

/-- Prints the redexes at `addresses` of the current term `t`, numbered from `number` on. -/
def sayRedexesFrom (t : Term) (number : Nat) : List Address → Eval Unit
  | [] => pure ()
  | address :: rest => do
    let session ← Eval.session
    let what := match ← ofExcept .session (session.describe address) with
      | .ok redex => redex.describe
      | .error reason => reason.message
    let sub ← ofExcept .address (t.subterm address)
    say (redexLine session number address sub what)
    sayRedexesFrom t (number + 1) rest

/-- Prints the redexes of the current term, or that it is a normal form. -/
def sayRedexes : Eval Unit := do
  let session ← Eval.session
  let history ← ofExcept .session session.loaded
  let redexes ← ofExcept .session session.redexes
  if redexes.isEmpty then say "  (normal form)"
  sayRedexesFrom history.current 1 redexes

def sayCurrent (mark : String) (t : Term) : Eval Unit := do
  sayTerm mark t
  sayRedexes

/-- Steps by the policy until no redex is left or as many more times as given, after `steps`
steps. Prints every term, and at the end why the run ends there. -/
def runFrom (stopped : Bool) (steps : Nat) : Nat → Eval Unit
  | 0 => do
    let redexes ← ofExcept .session (← Eval.session).redexes
    if redexes.isEmpty then say ("normal form after " ++ toString steps ++ " steps")
    else say ("stopped after " ++ toString steps ++ " steps")
  | limit + 1 => do
    if stopped then say ("interrupted after " ++ toString steps ++ " steps")
    else match ← tryAsk Session.stepAuto with
      | some t =>
        sayTerm "= " t
        runFrom stopped (steps + 1) limit
      | none => say ("normal form after " ++ toString steps ++ " steps")

/-- Steps by the policy, at most `limit` times. -/
def run (setting : Setting) (limit : Nat) : Eval Unit :=
  runFrom setting.stopped 0 limit

def doStep (argument : String) : Eval Unit := do
  let stepped ←
    if argument.isEmpty then tryAsk Session.stepAuto
    else do
      let number ← readNumber (.redexNumber argument) argument
      tryAsk (·.stepNth number)
  match stepped with
  | some t => sayCurrent "= " t
  | none => say "no redex left"

def doStepAt (argument : String) : Eval Unit := do
  let address ← ofExcept .address (Address.parse argument)
  match ← tryAsk (·.step address) with
  | some t => sayCurrent "= " t
  | none =>
    match ← ofExcept .session ((← Eval.session).describe address) with
    | .error reason =>
      say ("nothing to reduce at " ++ address.render ++ ": " ++ reason.message)
    | .ok _ => pure ()

def doUndo : Eval Unit := do
  match ← tryAsk Session.undo with
  | some _ =>
    let history ← ofExcept .session (← Eval.session).loaded
    sayCurrent "  " history.current
  | none => say "already at the initial term"

def doRun (setting : Setting) (argument : String) : Eval Unit := do
  let limit ← if argument.isEmpty then pure setting.maxSteps
    else readNumber (.stepCount argument) argument
  run setting limit

/-- A line of the list of terms: the number of the step, four columns wide, and the term. -/
def historyLine (session : Session) (number : Nat) (t : Term) : String :=
  let digits := toString number
  "".pushn ' ' (4 - digits.length) ++ digits ++ "  " ++ session.render t

def doHistory (argument : String) : Eval Unit := do
  if argument.isEmpty then
    let session ← Eval.session
    let history ← ofExcept .session session.loaded
    history.toList.zipIdx.forM fun (t, number) => say (historyLine session number t)
  else
    let steps ← readNumber (.stepNumber argument) argument
    let t ← ask (·.rewind steps)
    sayCurrent "  " t

def doEnv : Eval Unit := do
  let session ← Eval.session
  session.env.entries.forM fun (name, term) => say (name ++ " = " ++ session.render term)

/-- Adds the definitions of a file, all or none of them, and returns their number. -/
def loadFile (files : Files) (file : String) : Eval Nat := do
  let source ← during (.reading file) (ofExcept .file (files file))
  let found ← during (.loading file) (ofExcept .parse (Environment.ofSource source))
  modify fun desk =>
    { desk with session := { desk.session with env := desk.session.env.extend found } }
  return found.size

def doLoad (setting : Setting) (argument : String) : Eval Unit := do
  let count ← loadFile setting.files argument
  say (toString count ++ " definitions loaded")

def doStyle (argument : String) : Eval Unit := do
  if !argument.isEmpty then
    let style ← ofExcept .style (Style.ofName argument)
    modify fun desk => { desk with session := { desk.session with style } }
  say ("style: " ++ (← Eval.session).style.name)

def doPolicy (argument : String) : Eval Unit := do
  if !argument.isEmpty then
    let policy ← ofExcept .policy (Policy.ofName argument)
    modify fun desk => { desk with session := { desk.session with policy } }
  say ("policy: " ++ (← Eval.session).policy.name)

def doCommand (setting : Setting) (command : Command) (argument : String) : Eval Unit :=
  match command with
  | .help => helpLines.forM say
  | .step => doStep argument
  | .stepAt => doStepAt argument
  | .undo => doUndo
  | .run => doRun setting argument
  | .history => doHistory argument
  | .redexes => sayRedexes
  | .env => doEnv
  | .load => doLoad setting argument
  | .style => doStyle argument
  | .policy => doPolicy argument

/-- The name of a command, which blank characters end, and its argument. -/
def commandParts (input : List Char) : String × String :=
  (String.ofList (input.takeWhile (!Text.isBlank ·)),
    String.ofList (Text.trimChars (input.dropWhile (!Text.isBlank ·))))

/-- Carries out what follows the colon of a command line. -/
def evalCommand (setting : Setting) (input : List Char) : Eval Unit := do
  let (name, argument) := commandParts input
  match CommandRow.find? name with
  | none => throw (.unknownCommand name)
  | some row =>
    if row.needsArgument && argument.isEmpty then throw (.missingArgument row.long)
    else doCommand setting row.command argument

def evalDefinition (name text : String) : Eval Unit := do
  match ← ask (·.define name text) with
  | some _ => say (name ++ " redefined")
  | none => say (name ++ " defined")

def evalExpression (text : String) : Eval Unit := do
  let t ← ask (·.load text)
  sayCurrent "  " t

/-- Carries out a line typed at the prompt. -/
def evalLine (setting : Setting) (line : String) : Eval Unit :=
  let typed := Text.trimChars line.toList
  match typed with
  | [] => pure ()
  | ':' :: input => evalCommand setting input
  | _ =>
    match splitDefinition? (String.ofList typed) with
    | some (name, text) => evalDefinition name text
    | none => evalExpression (String.ofList typed)

/-- The file that a line typed at the prompt asks to load. -/
def loadTarget? (line : String) : Option String :=
  match Text.trimChars line.toList with
  | ':' :: input =>
    let (name, argument) := commandParts input
    match CommandRow.find? name with
    | some row => if row.command = .load then some argument else none
    | none => none
  | _ => none

end LambdaWorkbench.Prompt
