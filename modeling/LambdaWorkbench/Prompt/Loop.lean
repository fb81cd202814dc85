import LambdaWorkbench.Prompt.Line

/-!
# The read loop

Lines are read until the input ends. A line with open lists is continued by the next one, after a
space. Failures are printed apart from the answers and do not end the loop.
-/

namespace LambdaWorkbench.Prompt

/-- What a line makes of the text that is being read. -/
inductive Taken where
  /-- No list is open: the text is carried out. -/
  | complete (text : String)
  /-- A list is open: the next line goes on with the text. -/
  | unfinished (text : String)
  deriving DecidableEq, Repr

/-- Takes the next line, with the text that the lines before it have left open, if they have. -/
def takeLine (pending : Option String) (line : String) : Taken :=
  let text := match pending with
    | some begun => begun ++ " " ++ line
    | none => line
  if 0 < Sexpr.unclosedCount text then .unfinished text else .complete text

/-- The texts to carry out, when `pending` has been left open and lines follow. What is still open
at the end of the input is carried out as it is. -/
def entriesFrom (pending : Option String) : List String → List String
  | [] => pending.toList
  | line :: rest =>
    match takeLine pending line with
    | .complete text => text :: entriesFrom none rest
    | .unfinished text => entriesFrom (some text) rest

/-- The texts to carry out that the lines of an input make up. -/
def entries (lines : List String) : List String :=
  entriesFrom none lines

/-- What a loop has come to: the desk, and the failures told so far. -/
structure LoopState where
  desk : Desk
  failures : Array String

/-- Carries out one text. Nobody has asked to stop when it starts. -/
def LoopState.enter (setting : Setting) (state : LoopState) (entry : String) : LoopState :=
  match (evalLine { setting with stopped := false } entry).run.run state.desk with
  | (.ok _, desk) => { state with desk }
  | (.error failure, desk) => ⟨desk, state.failures.push ("error: " ++ failure.inline)⟩

/-- What one text comes to in a session, apart from all that has been printed and told before. -/
def answer (setting : Setting) (session : Session) (text : String) : LoopState :=
  LoopState.enter setting ⟨⟨session, #[]⟩, #[]⟩ text

/-- Reads and carries out all lines. At the end the texts are saved for later sessions;
`saveFault` is the reason why that cannot be done, if there is one. -/
def readLoop (setting : Setting) (saveFault : Option FileFault) (stdin : String) (desk : Desk) :
    LoopState :=
  let texts := entries (Text.typedLines stdin)
  let reached := texts.foldl (LoopState.enter setting) ⟨desk, #[]⟩
  match saveFault with
  | some fault =>
    if texts.isEmpty then reached
    else { reached with
      failures := reached.failures.push ("failed to save history file: " ++ fault.message) }
  | none => reached

end LambdaWorkbench.Prompt
