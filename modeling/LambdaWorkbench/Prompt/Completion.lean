import LambdaWorkbench.Prompt.Command
import LambdaWorkbench.Session
import LambdaWorkbench.Text.Measure

/-!
# Completion

What the word before the cursor may be meant to become. Only the text before the cursor matters.
The answer says at which byte the word starts and lists the candidates for it.
-/

namespace LambdaWorkbench.Prompt

/-- The characters that words end at. -/
def isDelimiter (c : Char) : Bool :=
  Text.isBlank c || c == '(' || c == ')' || c == '.' || Shorthand.isMarker c

def lastWord (before : List Char) : List Char :=
  (before.reverse.takeWhile (!isDelimiter ·)).reverse

/-- The byte position at which the word at the end of a text starts. -/
def wordStart (before : List Char) : Nat :=
  Text.byteLength (before.reverse.dropWhile (!isDelimiter ·))

/-- A completion: where the word starts, and what it may become. -/
structure Completion where
  start : Nat
  candidates : List String
  deriving DecidableEq, Repr

def Completion.nothing : Completion := ⟨0, []⟩

def namesStarting (start : List Char) (names : List String) : List String :=
  names.filter fun name => start.isPrefixOf name.toList

/-- The completion of the argument of a command. Names of files are not completed. -/
def completeArgument (command : Command) (before : List Char) : Completion :=
  match command with
  | .style => ⟨wordStart before, namesStarting (lastWord before) (Style.all.map Style.name)⟩
  | .policy => ⟨wordStart before, namesStarting (lastWord before) (Policy.all.map Policy.name)⟩
  | _ => .nothing

/-- The completion of the text before the cursor: the name or the argument of a command after a
colon, and a defined name elsewhere. -/
def complete (session : Session) (before : List Char) : Completion :=
  match before with
  | [] => .nothing
  | ':' :: input =>
    match splitCommand (String.ofList input) with
    | (name, none) =>
      match CommandRow.findStarting? name with
      | some row => ⟨1, [row.long]⟩
      | none => .nothing
    | (name, some _) =>
      match CommandRow.find? name with
      | some row => completeArgument row.command before
      | none => .nothing
  | _ => ⟨wordStart before, namesStarting (lastWord before) session.env.names⟩

/-- The start of the word before the cursor, which stands at a byte position between two
characters of the line. -/
def wordStartAt? (line : String) (cursor : Nat) : Option Nat :=
  (Text.charsBefore? cursor line.toList).map wordStart

/-- The completion at the cursor, which stands at a byte position between two characters of the
line. -/
def completeAt? (session : Session) (line : String) (cursor : Nat) : Option Completion :=
  (Text.charsBefore? cursor line.toList).map (complete session)

end LambdaWorkbench.Prompt
