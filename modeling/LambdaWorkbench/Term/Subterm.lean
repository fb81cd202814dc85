import LambdaWorkbench.Address.Text
import LambdaWorkbench.Term.Basic

/-!
# Subterms

Looking up and replacing the subterm at an address. An address that does not fit the term fails
in the same way for each operation: with the number of steps before the first that does not fit.
-/

namespace LambdaWorkbench.Term

/-- The subterm that `steps` lead to, `depth` steps below the root; otherwise the depth of the
first step that does not fit. -/
def subtermFrom (depth : Nat) : Address → Term → Except Nat Term
  | [], t => .ok t
  | .func :: steps, app func _ => subtermFrom (depth + 1) steps func
  | .body :: steps, lam _ body => subtermFrom (depth + 1) steps body
  | .arg :: steps, app _ arg => subtermFrom (depth + 1) steps arg
  | _ :: _, _ => .error depth

/-- The parameters of the lambdas that `steps` cross, outermost first. -/
def bindersFrom (depth : Nat) : Address → Term → Except Nat (List String)
  | [], _ => .ok []
  | .func :: steps, app func _ => bindersFrom (depth + 1) steps func
  | .body :: steps, lam param body => (bindersFrom (depth + 1) steps body).map (param :: ·)
  | .arg :: steps, app _ arg => bindersFrom (depth + 1) steps arg
  | _ :: _, _ => .error depth

/-- The term with `new` in the place that `steps` lead to. -/
def replaceFrom (new : Term) (depth : Nat) : Address → Term → Except Nat Term
  | [], _ => .ok new
  | .func :: steps, app func arg => (replaceFrom new (depth + 1) steps func).map (app · arg)
  | .body :: steps, lam param body => (replaceFrom new (depth + 1) steps body).map (lam param)
  | .arg :: steps, app func arg => (replaceFrom new (depth + 1) steps arg).map (app func)
  | _ :: _, _ => .error depth

def subterm (t : Term) (address : Address) : Except AddressError Term :=
  (subtermFrom 0 address t).mapError (.mismatch address)

/-- The parameters of the lambdas around the subterm at an address, outermost first. -/
def bindersAlong (t : Term) (address : Address) : Except AddressError (List String) :=
  (bindersFrom 0 address t).mapError (.mismatch address)

def replaceAt (t : Term) (address : Address) (new : Term) : Except AddressError Term :=
  (replaceFrom new 0 address t).mapError (.mismatch address)

end LambdaWorkbench.Term
