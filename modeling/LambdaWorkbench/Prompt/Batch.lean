import LambdaWorkbench.Prompt.Line

/-!
# Batches

A batch reduces every expression of its inputs as far as it goes, without asking anything. Each
line of an input is a definition, an expression, or nothing but a comment; there are no commands.
All inputs are read before the first line is carried out.
-/

namespace LambdaWorkbench.Prompt

open Eval

/-- Carries out the lines of an input, the first of which has the given number. A stopped run ends
the input. -/
def evalLinesFrom (setting : Setting) (number : Nat) : List String → Eval Unit
  | [] => pure ()
  | line :: rest => do
    let content := Text.beforeComment line
    if Text.isBlankText content then evalLinesFrom setting (number + 1) rest
    else match splitDefinition? content with
      | some (name, text) => do
        let _ ← during (.line number) (ask (·.define name text))
        evalLinesFrom setting (number + 1) rest
      | none => do
        let t ← during (.line number) (ask (·.load content))
        sayTerm "" t
        run setting setting.maxSteps
        if setting.stopped then pure ()
        else evalLinesFrom setting (number + 1) rest

def evalSource (setting : Setting) (source : String) : Eval Unit :=
  evalLinesFrom setting 1 (Text.lines source)

/-- The standard input, which is read line by line, as one text. -/
def joinedInput (stdin : String) : String :=
  "\n".intercalate (Text.lines stdin)

/-- The label that failures give the standard input. -/
def stdinLabel : String := "<stdin>"

/-- The inputs of a batch with their labels: the named files, or the standard input when none are
named. -/
def readInputs (files : Files) (stdin : String) (names : List String) :
    Eval (List (String × String)) :=
  if names.isEmpty then pure [(stdinLabel, joinedInput stdin)]
  else names.mapM fun name => do
    let source ← during (.reading name) (ofExcept .file (files name))
    return (name, source)

/-- Carries out the inputs in their order. A stopped run ends the batch. -/
def evalInputs (setting : Setting) : List (String × String) → Eval Unit
  | [] => pure ()
  | (label, source) :: rest => do
    during (.input label) (evalSource setting source)
    if setting.stopped then pure ()
    else evalInputs setting rest

/-- Reads all inputs of a batch and then carries them out. -/
def evalBatch (setting : Setting) (stdin : String) (names : List String) : Eval Unit := do
  let inputs ← readInputs setting.files stdin names
  evalInputs setting inputs

end LambdaWorkbench.Prompt
