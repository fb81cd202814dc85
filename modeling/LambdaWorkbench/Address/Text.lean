import LambdaWorkbench.Address.Basic
import LambdaWorkbench.Text.Blank
import LambdaWorkbench.Text.Lines

/-!
# The text of an address

Steps are separated by slashes, and the empty address is written `root`. Reading allows blank
characters around the address and around each step.
-/

namespace LambdaWorkbench

/-- Why an address cannot be read or does not lead anywhere. -/
inductive AddressError where
  /-- The step after the first `depth` steps does not fit the term. -/
  | mismatch (address : Address) (depth : Nat)
  | unknownStep (text : String)
  deriving DecidableEq, Repr

namespace Step

def name : Step → String
  | func => "func-side"
  | body => "body"
  | arg => "arg-side"

def ofName (text : String) : Except AddressError Step :=
  match [func, body, arg].find? (·.name == text) with
  | some step => .ok step
  | none => .error (.unknownStep text)

theorem ofName_name (step : Step) : ofName step.name = .ok step := by
  cases step <;> rfl

end Step

namespace Address

def render : Address → String
  | [] => "root"
  | steps => "/".intercalate (steps.map Step.name)

def parse (text : String) : Except AddressError Address :=
  let trimmed := Text.trim text
  if trimmed = "" ∨ trimmed = "root" then .ok root
  else (Text.pieces '/' trimmed.toList).mapM fun piece =>
    Step.ofName (String.ofList (Text.trimChars piece))

end Address

def AddressError.message : AddressError → String
  | mismatch address depth =>
    "address `" ++ address.render ++ "` does not match the term shape at depth " ++ toString depth
  | unknownStep text => "unknown address step `" ++ text ++ "`"

end LambdaWorkbench
