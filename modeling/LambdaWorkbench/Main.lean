import LambdaWorkbench.CommandLine.Program
import LambdaWorkbench.CommandLine.Usage

/-!
# The command line

Reading files and the standard input, and printing. What is read is handed to the program's
definitions, and what they answer is printed. The read loop asks for one line after the other, as
an answer is due as soon as a text is complete: `takeLine` says when that is, here as in `readLoop`,
and `answer` what comes of the text.
-/

namespace LambdaWorkbench.Terminal

open Prompt

def readFile (name : String) : IO (Except FileFault String) := do
  try
    return .ok (← IO.FS.readFile name)
  catch error =>
    match error with
    | .noFileOrDirectory .. => return .error .missing
    | .inappropriateType .. => return .error .directory
    | other => return .error (.other (toString other))

/-- The named files, read beforehand. -/
def readFiles (names : List String) : IO Files := do
  let found ← names.mapM fun name => do
    return (name, ← readFile name)
  return fun name => (found.lookup name).getD (.error .missing)

def printAll (lines : List String) : IO Unit := do
  let stdout ← IO.getStdout
  lines.forM stdout.putStrLn
  stdout.flush

def reportAll (lines : List String) : IO Unit := do
  let stderr ← IO.getStderr
  lines.forM stderr.putStrLn
  stderr.flush

/-- The rest of an input. -/
partial def readRest (input : IO.FS.Stream) (read : String) : IO String := do
  let line ← input.getLine
  if line.isEmpty then return read
  else readRest input (read ++ line)

/-- Reads a line after showing a mark, if the user is there to see it. -/
def askLine (input : IO.FS.Stream) (visible : Bool) (mark : String) : IO String := do
  if visible then
    let stdout ← IO.getStdout
    stdout.putStr mark
    stdout.flush
  input.getLine

/-- Carries out a text, prints what comes of it and returns the session as it is then. -/
def carryOut (maxSteps : Nat) (session : Session) (text : String) : IO Session := do
  let files ← readFiles (loadTarget? text).toList
  let given := answer ⟨files, maxSteps, false⟩ session text
  printAll given.desk.printed.toList
  reportAll given.failures.toList
  return given.desk.session

/-- The read loop, in the middle of the text `pending` if there is one. A terminal may go on after
the end of an input has cut off a text. -/
partial def converse (input : IO.FS.Stream) (visible : Bool) (maxSteps : Nat)
    (pending : Option String) (session : Session) : IO Unit := do
  let line ← askLine input visible (if pending.isSome then "& " else "> ")
  if line.isEmpty then
    match pending with
    | some text => converse input visible maxSteps none (← carryOut maxSteps session text)
    | none => return
  else
    match takeLine pending line with
    | .complete text => converse input visible maxSteps none (← carryOut maxSteps session text)
    | .unfinished text => converse input visible maxSteps (some text) session

/-- Runs the program with the given options, and returns its exit status. -/
def run (options : Options) : IO UInt32 := do
  let input ← IO.getStdin
  let files ← readFiles options.files
  if options.interactive then
    match Program.openDesk options files with
    | .error failure =>
      reportAll failure.report
      return 1
    | .ok desk =>
      converse input (← input.isTty) options.maxSteps none desk.session
      return 0
  else
    let stdin ← if options.files.isEmpty then readRest input "" else pure ""
    let outcome := Program.run options files stdin
    printAll outcome.printed
    reportAll outcome.failures
    return UInt32.ofNat outcome.status

end LambdaWorkbench.Terminal

def main (arguments : List String) : IO UInt32 := do
  match LambdaWorkbench.Options.ofArguments arguments with
  | .ok options => LambdaWorkbench.Terminal.run options
  | .error .helpRequested =>
    LambdaWorkbench.Terminal.printAll LambdaWorkbench.Options.usageLines
    return 0
  | .error .versionRequested =>
    LambdaWorkbench.Terminal.printAll ["0.1.0"]
    return 0
  | .error refusal =>
    LambdaWorkbench.Terminal.reportAll ["error: " ++ refusal.message]
    return 2
