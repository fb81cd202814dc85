import LambdaWorkbench.CommandLine.Options

/-!
# Describing the command line

The description of the options, and the wording of what is wrong with a command line.
-/

namespace LambdaWorkbench

/-- The form of an option with its value, as the user would type it. -/
def Switch.form : Switch → String
  | noPrelude => "--no-prelude"
  | style => "--style <STYLE>"
  | policy => "--policy <POLICY>"
  | strict => "--strict"
  | maxNumeral => "--max-numeral <N>"
  | maxSteps => "--max-steps <MAX_STEPS>"
  | noInteractive => "-n, --no-interactive"

def Switch.description : Switch → String
  | noPrelude => "Start without the standard definitions (I, K, S, TRUE, PLUS, ...)"
  | style => "How terms are printed: named, debruijn or compact"
  | policy => "Redex picked by :step and :run: lo, li, ro or ri"
  | strict => "Reject unbalanced parentheses instead of closing them"
  | maxNumeral => "Leave numerals above N unexpanded (default: expand all)"
  | maxSteps => "Give up a run after this many steps"
  | noInteractive => "Reduce the expressions of the files, or of the standard input, and stop"

/-- The description of the command line. -/
def Options.usageLines : List String :=
  ["Reduce untyped lambda terms one chosen step at a time.",
    "",
    "Usage: [OPTIONS] [FILE]...",
    "",
    "Options:"] ++ Switch.all.map fun switch =>
      "  " ++ switch.form.pushn ' ' (28 - switch.form.length) ++ switch.description

def Refusal.message : Refusal → String
  | helpRequested => ""
  | versionRequested => ""
  | unknownOption text => "unexpected argument '" ++ text ++ "'"
  | repeatedOption switch => "the option '" ++ switch.form ++ "' cannot be used more than once"
  | missingValue switch => "the option '" ++ switch.form ++ "' needs a value"
  | unwantedValue switch => "the option '" ++ switch.form ++ "' takes no value"
  | badValue switch text => "invalid value '" ++ text ++ "' for '" ++ switch.form ++ "'"
  | emptyName => "the name of a file cannot be empty"

end LambdaWorkbench
