/-!
# Lines and pieces

`pieces` cuts a text at every occurrence of one character. `typedLines` cuts a text after every
line feed and keeps the line feeds, as they arrive from an input that is read line by line;
`lines` drops each line's end, which is a line feed with at most one carriage return before it.
-/

namespace LambdaWorkbench.Text

/-- The parts of a text between the occurrences of `separator`; one more than there are
occurrences. -/
def pieces (separator : Char) : List Char → List (List Char)
  | [] => [[]]
  | c :: rest =>
    if c = separator then [] :: pieces separator rest
    else match pieces separator rest with
      | [] => [[c]]
      | piece :: others => (c :: piece) :: others

/-- The lines of a text, each with the line feed that ends it. Only the last one may lack it, and
none is empty. -/
def lineRuns : List Char → List (List Char)
  | [] => []
  | c :: rest =>
    if c = '\n' then ['\n'] :: lineRuns rest
    else match lineRuns rest with
      | [] => [[c]]
      | line :: others => (c :: line) :: others

/-- A line without its end: a line feed, and the carriage return just before it. A carriage return
that no line feed follows belongs to the line. -/
def dropLineEnd (line : List Char) : List Char :=
  match line.reverse with
  | '\n' :: '\r' :: front => front.reverse
  | '\n' :: front => front.reverse
  | _ => line

/-- The lines of a text, each with the line feed that ends it. -/
def typedLines (text : String) : List String :=
  (lineRuns text.toList).map String.ofList

/-- The lines of a text without their ends. -/
def lines (text : String) : List String :=
  (lineRuns text.toList).map fun line => String.ofList (dropLineEnd line)

/-- The part of a line before its comment, which `#` starts. -/
def beforeComment (line : String) : String :=
  String.ofList (line.toList.takeWhile (· ≠ '#'))

end LambdaWorkbench.Text
