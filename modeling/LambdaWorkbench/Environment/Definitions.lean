import LambdaWorkbench.Environment.Basic
import LambdaWorkbench.Text.Lines

/-!
# Definition lines

A definition is a line `name = expr` or `name := expr`. A file of definitions has one to a line;
comments and blank lines are skipped.
-/

namespace LambdaWorkbench

/-- The text before and after the first place where `separator` occurs. -/
def splitFirst (separator : List Char) : List Char → Option (List Char × List Char)
  | [] => none
  | c :: rest =>
    if separator.isPrefixOf (c :: rest) then some ([], (c :: rest).drop separator.length)
    else (splitFirst separator rest).map fun parts => (c :: parts.1, parts.2)

def isAtomText (text : String) : Bool :=
  !text.isEmpty && text.toList.all isAtomChar

/-- The name and the text of a definition. The first `:=` separates them, or the first `=` when
there is none; what comes before it has to be an atom. -/
def splitDefinition? (line : String) : Option (String × String) :=
  match (splitFirst [':', '='] line.toList).or (splitFirst ['='] line.toList) with
  | none => none
  | some (before, after) =>
    let name := Text.trim (String.ofList before)
    if isAtomText name then some (name, String.ofList after) else none

/-- The definitions on lines of which the first has the given number. -/
def definitionsFrom (number : Nat) : List String → Except ParseError (List (String × String))
  | [] => .ok []
  | line :: rest =>
    let content := Text.beforeComment line
    if Text.isBlankText content then definitionsFrom (number + 1) rest
    else match splitDefinition? content with
      | none => .error (.malformedDefinition number)
      | some (name, text) =>
        (definitionsFrom (number + 1) rest).map ((name, Text.trim text) :: ·)

def definitions (source : String) : Except ParseError (List (String × String)) :=
  definitionsFrom 1 (Text.lines source)

/-- The environment that the text of a file defines. -/
def Environment.ofSource (source : String) : Except ParseError Environment := do
  let found ← definitions source
  ofDefinitions found

end LambdaWorkbench
