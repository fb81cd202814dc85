/-!
# Why a text is not a term

The faults that reading a term or a file of definitions can meet, and their wording.
-/

namespace LambdaWorkbench

inductive ParseError where
  /-- A place for a term holds nothing. -/
  | emptyExpression
  /-- The word `lambda` comes without a non-empty list of parameters. -/
  | missingParameters
  /-- A parameter is a list, written `text`. -/
  | invalidParameter (text : String)
  /-- The text ends inside `count` lists. -/
  | unclosedParens (count : Nat)
  /-- The closing parenthesis at byte `offset` closes nothing. -/
  | strayParen (offset : Nat)
  /-- Line number `line` of a file holds no definition. -/
  | malformedDefinition (line : Nat)
  /-- The text that defines `name` has the fault `cause`. -/
  | inDefinition (name : String) (cause : ParseError)
  deriving DecidableEq, Repr

namespace ParseError

/-- The wording of a fault. That of a fault in a definition ends in the wording of its cause. -/
def message : ParseError → String
  | emptyExpression => "empty expression"
  | missingParameters => "lambda requires a non-empty parameter list"
  | invalidParameter text => "invalid lambda parameter `" ++ text ++ "`"
  | unclosedParens count => toString count ++ " unclosed parentheses"
  | strayParen offset => "unexpected closing parenthesis at byte " ++ toString offset
  | malformedDefinition line =>
    "line " ++ toString line ++ ": expected a definition of the form `name = expr`"
  | inDefinition name cause => "in definition of `" ++ name ++ "`: " ++ cause.message

/-- The wording of a fault, then that of its cause, and so on to the first cause. -/
def trail : ParseError → List String
  | inDefinition name cause => (inDefinition name cause).message :: cause.trail
  | fault => [fault.message]

end ParseError

end LambdaWorkbench
