import LambdaWorkbench.Prompt.Files
import LambdaWorkbench.Session

/-!
# Failures

What can go wrong at the prompt or in a batch, and how it is told. A failure is told as a trail of
texts, the outermost first: each says where or why, and the last one is the first cause.
-/

namespace LambdaWorkbench

/-- What was being done when something failed. -/
inductive Activity where
  | redexNumber (text : String)
  | stepCount (text : String)
  | stepNumber (text : String)
  | reading (file : String)
  | loading (file : String)
  | loadingPrelude
  | line (number : Nat)
  | input (label : String)
  deriving DecidableEq, Repr

def Activity.message : Activity → String
  | redexNumber text => "'" ++ text ++ "' is not a redex number"
  | stepCount text => "'" ++ text ++ "' is not a step count"
  | stepNumber text => "'" ++ text ++ "' is not a step number"
  | reading file => "failed to read '" ++ file ++ "'"
  | loading file => "failed to load '" ++ file ++ "'"
  | loadingPrelude => "failed to load the prelude"
  | line number => "line " ++ toString number
  | input label => "in '" ++ label ++ "'"

/-- Why something typed or given cannot be carried out. -/
inductive Failure where
  | session (cause : SessionError)
  | parse (cause : ParseError)
  | address (cause : AddressError)
  | style (cause : UnknownStyle)
  | policy (cause : UnknownPolicy)
  | number (cause : Text.NumberFault)
  | file (cause : FileFault)
  | unknownCommand (name : String)
  | missingArgument (command : String)
  | during (activity : Activity) (cause : Failure)
  deriving DecidableEq, Repr

namespace Failure

/-- The texts of a failure, outermost first. -/
def trail : Failure → List String
  | session cause => cause.trail
  | parse cause => cause.trail
  | address cause => [cause.message]
  | style cause => [cause.message]
  | policy cause => [cause.message]
  | number cause => [cause.message]
  | file cause => [cause.message]
  | unknownCommand name => ["unknown command ':" ++ name ++ "', try :help"]
  | missingArgument command => ["':" ++ command ++ "' expects an argument"]
  | during activity cause => activity.message :: cause.trail

def inline (failure : Failure) : String :=
  ": ".intercalate failure.trail

/-- The lines that list several causes, numbered from `number` on. -/
def numberedCauses (number : Nat) : List String → List String
  | [] => []
  | cause :: rest =>
    let digits := toString number
    ("".pushn ' ' (5 - digits.length) ++ digits ++ ": " ++ cause) :: numberedCauses (number + 1) rest

/-- A failure that ends the program, as a report: the outermost text, then the causes below it,
numbered when there are several. -/
def report (failure : Failure) : List String :=
  match failure.trail with
  | [] => []
  | [text] => ["Error: " ++ text]
  | [text, cause] => ["Error: " ++ text, "", "Caused by:", "    " ++ cause]
  | text :: causes => ["Error: " ++ text, "", "Caused by:"] ++ numberedCauses 0 causes

end Failure

end LambdaWorkbench
