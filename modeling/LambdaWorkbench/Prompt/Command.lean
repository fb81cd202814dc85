/-!
# Commands

The commands of the prompt. Each has a long and a short name, which may be the same, and says
whether it needs an argument. The table is also what `:help` prints.
-/

namespace LambdaWorkbench

inductive Command where
  | help
  | step
  | stepAt
  | undo
  | run
  | history
  | redexes
  | env
  | load
  | style
  | policy
  deriving DecidableEq, Repr

/-- A row of the table of commands. -/
structure CommandRow where
  short : String
  long : String
  command : Command
  needsArgument : Bool
  /-- The form of the argument, as `:help` shows it. -/
  usage : String
  description : String
  deriving DecidableEq, Repr

namespace CommandRow

/-- All commands, in the order in which `:help` lists them. -/
def table : List CommandRow :=
  [⟨"h", "help", .help, false, "", "print this message."⟩,
    ⟨"s", "step", .step, false, "[n]", "reduce redex number n, or the one the policy picks."⟩,
    ⟨"a", "at", .stepAt, true, "<address>",
      "reduce at an address such as func-side/body (root for the whole term)."⟩,
    ⟨"u", "undo", .undo, false, "", "go back to the previous term."⟩,
    ⟨"r", "run", .run, false, "[limit]",
      "step by the policy until no redex is left; Ctrl-C stops."⟩,
    ⟨"hist", "history", .history, false, "[n]", "list the terms so far, or go back to step n."⟩,
    ⟨"x", "redexes", .redexes, false, "", "list the redexes of the current term."⟩,
    ⟨"e", "env", .env, false, "", "list the definitions."⟩,
    ⟨"l", "load", .load, true, "<file>", "add the definitions of a file."⟩,
    ⟨"style", "style", .style, false, "[named|debruijn|compact]",
      "show or set how terms are printed."⟩,
    ⟨"policy", "policy", .policy, false, "[lo|li|ro|ri]",
      "show or set the redex :step and :run pick."⟩]

/-- The command of the given name, short or long. -/
def find? (name : String) : Option CommandRow :=
  table.find? fun row => row.short == name || row.long == name

/-- The first command whose long name starts with `start`. -/
def findStarting? (start : String) : Option CommandRow :=
  table.find? fun row => start.toList.isPrefixOf row.long.toList

/-- The command with its argument, as the user would type it. -/
def invocation (row : CommandRow) : String :=
  let names := if row.short == row.long then ":" ++ row.long
    else ":" ++ row.short ++ ", :" ++ row.long
  if row.usage.isEmpty then names else names ++ " " ++ row.usage

/-- The column at which `:help` starts the descriptions. -/
def descriptionColumn : Nat := 32

def helpLine (row : CommandRow) : String :=
  row.invocation.pushn ' ' (descriptionColumn - row.invocation.length) ++ row.description

end CommandRow

def helpLines : List String :=
  ["A click-to-reduce lambda calculus stepper.",
    "",
    "Type an expression to start reducing it, e.g. `(lambda (x) x) y` or `λx.x y`.",
    "`name = expr` (or `name := expr`) adds a definition.",
    "",
    "Available commands:"] ++ CommandRow.table.map CommandRow.helpLine

/-- The name of a command and, if a space follows it, its argument. -/
def splitCommand (text : String) : String × Option String :=
  let name := text.toList.takeWhile (· ≠ ' ')
  match text.toList.dropWhile (· ≠ ' ') with
  | [] => (String.ofList name, none)
  | _ :: argument => (String.ofList name, some (String.ofList argument))

end LambdaWorkbench
