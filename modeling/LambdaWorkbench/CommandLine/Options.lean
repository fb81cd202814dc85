import LambdaWorkbench.Redex.Policy
import LambdaWorkbench.Term.Style
import LambdaWorkbench.Text.Unsigned

/-!
# Command line options

Options may stand anywhere among the names of files, up to an argument `--`, and none may be given
twice. The value of an option follows it or is attached with an equals sign, and does not start
with a dash.
-/

namespace LambdaWorkbench

inductive Switch where
  | noPrelude
  | style
  | policy
  | strict
  | maxNumeral
  | maxSteps
  | noInteractive
  deriving DecidableEq, Repr

namespace Switch

/-- The options in the order in which they are described. -/
def all : List Switch := [noPrelude, style, policy, strict, maxNumeral, maxSteps, noInteractive]

/-- The long name of an option, after two dashes. -/
def name : Switch → String
  | noPrelude => "no-prelude"
  | style => "style"
  | policy => "policy"
  | strict => "strict"
  | maxNumeral => "max-numeral"
  | maxSteps => "max-steps"
  | noInteractive => "no-interactive"

def takesValue : Switch → Bool
  | style | policy | maxNumeral | maxSteps => true
  | noPrelude | strict | noInteractive => false

def ofName? (text : String) : Option Switch :=
  all.find? (·.name == text)

end Switch

structure Options where
  files : List String
  prelude : Bool
  style : Style
  policy : Policy
  strict : Bool
  maxNumeral : Option Nat
  maxSteps : Nat
  interactive : Bool
  deriving DecidableEq, Repr

namespace Options

/-- The choices of an empty command line. -/
def standard : Options :=
  ⟨[], true, .named, .normalOrder, false, none, 1000, true⟩

end Options

/-- Why a command line is not carried out. -/
inductive Refusal where
  | helpRequested
  | versionRequested
  | unknownOption (text : String)
  | repeatedOption (switch : Switch)
  | missingValue (switch : Switch)
  | unwantedValue (switch : Switch)
  | badValue (switch : Switch) (text : String)
  | emptyName
  deriving DecidableEq, Repr

namespace Options

/-- Applies an option with its value, which is empty for an option without one. -/
def apply (options : Options) (switch : Switch) (value : String) : Except Refusal Options :=
  match switch with
  | .noPrelude => .ok { options with prelude := false }
  | .strict => .ok { options with strict := true }
  | .noInteractive => .ok { options with interactive := false }
  | .style =>
    match Style.ofName value with
    | .ok style => .ok { options with style }
    | .error _ => .error (.badValue switch value)
  | .policy =>
    match Policy.ofName value with
    | .ok policy => .ok { options with policy }
    | .error _ => .error (.badValue switch value)
  | .maxNumeral =>
    match Text.readUnsigned Text.maxWord value with
    | .ok number => .ok { options with maxNumeral := some number }
    | .error _ => .error (.badValue switch value)
  | .maxSteps =>
    match Text.readUnsigned Text.maxWord value with
    | .ok number => .ok { options with maxSteps := number }
    | .error _ => .error (.badValue switch value)

def addFile (options : Options) (name : String) : Except Refusal Options :=
  if name.isEmpty then .error .emptyName
  else .ok { options with files := options.files ++ [name] }

/-- Options on the way through a command line: the choices so far, and the options given so far. -/
structure Scan where
  options : Options
  given : List Switch

/-- Takes in an option with its value. -/
def Scan.take (scan : Scan) (switch : Switch) (value : String) : Except Refusal Scan :=
  if switch ∈ scan.given then .error (.repeatedOption switch)
  else (scan.options.apply switch value).map (⟨·, switch :: scan.given⟩)

/-- Takes in options of one letter, written after one dash. -/
def Scan.takeLetters (scan : Scan) : List Char → Except Refusal Scan
  | [] => .ok scan
  | 'n' :: rest => do
    let next ← scan.take .noInteractive ""
    next.takeLetters rest
  | 'h' :: _ => .error .helpRequested
  | 'V' :: _ => .error .versionRequested
  | letter :: _ => .error (.unknownOption (String.ofList ['-', letter]))

/-- A long option: its name, and the value attached to it. -/
def splitLong (text : List Char) : String × Option String :=
  let name := String.ofList (text.takeWhile (· ≠ '='))
  match text.dropWhile (· ≠ '=') with
  | [] => (name, none)
  | _ :: value => (name, some (String.ofList value))

/-- Reads arguments. `waiting` is an option whose value comes next. -/
def scanFrom (scan : Scan) (waiting : Option Switch) : List String → Except Refusal Options
  | [] =>
    match waiting with
    | some switch => .error (.missingValue switch)
    | none => .ok scan.options
  | argument :: rest =>
    match waiting, argument.toList with
    | some switch, '-' :: _ => .error (.missingValue switch)
    | some switch, _ => do
      let next ← scan.take switch argument
      scanFrom next none rest
    | none, ['-', '-'] => rest.foldlM addFile scan.options
    | none, '-' :: '-' :: long =>
      let (name, value) := splitLong long
      match Switch.ofName? name, value with
      | some switch, some value =>
        if switch.takesValue then do
          let next ← scan.take switch value
          scanFrom next none rest
        else .error (.unwantedValue switch)
      | some switch, none =>
        if switch ∈ scan.given then .error (.repeatedOption switch)
        else if switch.takesValue then scanFrom scan (some switch) rest
        else do
          let next ← scan.take switch ""
          scanFrom next none rest
      | none, none =>
        if name = "help" then .error .helpRequested
        else if name = "version" then .error .versionRequested
        else .error (.unknownOption argument)
      | none, some _ => .error (.unknownOption argument)
    | none, '-' :: letter :: letters => do
      let next ← scan.takeLetters (letter :: letters)
      scanFrom next none rest
    | none, _ => do
      let options ← scan.options.addFile argument
      scanFrom { scan with options } none rest

def ofArguments (arguments : List String) : Except Refusal Options :=
  scanFrom ⟨standard, []⟩ none arguments

end Options

end LambdaWorkbench
