import LambdaWorkbench.CommandLine.Options
import LambdaWorkbench.Environment.Prelude
import LambdaWorkbench.Prompt.Batch
import LambdaWorkbench.Prompt.Loop

/-!
# The program

What the program does with its command line, its standard input and its files: a batch, or the
read loop after the definitions of the named files have been loaded.
-/

namespace LambdaWorkbench.Program

open Prompt

/-- What the program leaves behind: its exit status and the lines on its two outputs. -/
structure Outcome where
  status : Nat
  printed : List String
  failures : List String
  deriving DecidableEq, Repr

def openSession (options : Options) : Except Failure Session := do
  let env ← if options.prelude then
      (Environment.prelude.mapError Failure.parse).mapError (.during .loadingPrelude)
    else pure Environment.empty
  return {
    Session.new (env.withLimit options.maxNumeral) with
    style := options.style
    policy := options.policy
    strict := options.strict }

/-- Loads the definitions of the named files in their order. -/
def loadFiles (files : Files) : List String → Eval Unit
  | [] => pure ()
  | name :: rest => do
    let _ ← loadFile files name
    loadFiles files rest

/-- The outcome of a program that ends with a failure after printing some lines. -/
def Outcome.failed (failure : Failure) (printed : Array String) : Outcome :=
  ⟨1, printed.toList, failure.report⟩

/-- The desk that the read loop starts with: the definitions of the named files are loaded. -/
def openDesk (options : Options) (files : Files) : Except Failure Desk := do
  let session ← openSession options
  let (result, desk) := (loadFiles files options.files).run.run ⟨session, #[]⟩
  result.map fun _ => desk

def runBatch (setting : Setting) (options : Options) (stdin : String) (session : Session) :
    Outcome :=
  match (evalBatch setting stdin options.files).run.run ⟨session, #[]⟩ with
  | (.error failure, reached) => .failed failure reached.printed
  | (.ok _, reached) => ⟨0, reached.printed.toList, []⟩

def run (options : Options) (files : Files) (stdin : String) : Outcome :=
  let setting : Setting := ⟨files, options.maxSteps, false⟩
  if options.interactive then
    match openDesk options files with
    | .error failure => .failed failure #[]
    | .ok desk =>
      let final := readLoop setting none stdin desk
      ⟨0, final.desk.printed.toList, final.failures.toList⟩
  else
    match openSession options with
    | .error failure => .failed failure #[]
    | .ok session => runBatch setting options stdin session

end LambdaWorkbench.Program
