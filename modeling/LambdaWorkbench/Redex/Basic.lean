import LambdaWorkbench.Environment.Basic
import LambdaWorkbench.Term.Subterm

/-!
# Redexes

What can be reduced at one place of a term: an applied lambda, a free name with a definition, or a
free numeral within the limit. Every other place is inert, for one of five reasons.
-/

namespace LambdaWorkbench

inductive Redex where
  /-- A lambda takes its argument. -/
  | beta
  /-- A free name becomes its definition. -/
  | definition (name : String)
  /-- A free numeral becomes its Church encoding. -/
  | numeral (value : Nat)
  deriving DecidableEq, Repr

def Redex.describe : Redex → String
  | beta => "beta"
  | definition name => "definition of " ++ name
  | numeral value => "numeral " ++ toString value

/-- Why a place cannot be reduced. -/
inductive Inert where
  | undefinedName (name : String)
  | boundVariable (name : String)
  | notApplied
  | abstraction
  /-- A numeral, as spelled in the term, does not fit in 64 bits or is above the limit. -/
  | numeralTooLarge (name : String)
  deriving DecidableEq, Repr

def Inert.message : Inert → String
  | undefinedName name => "`" ++ name ++ "` is neither defined in the environment nor a numeral"
  | boundVariable name => "`" ++ name ++ "` is bound by an enclosing lambda"
  | notApplied => "application whose function side is not a lambda"
  | abstraction => "a lambda is not reducible by itself"
  | numeralTooLarge name => "numeral " ++ name ++ " is above the numeral limit"

namespace Environment

/-- What reducing a term below the lambdas that bind `binders` would do, at its root. A definition
goes before a numeral of the same spelling. -/
def classifyBelow (env : Environment) (binders : List String) : Term → Except Inert Redex
  | .var name _ =>
    if name ∈ binders then .error (.boundVariable name)
    else if env.contains name then .ok (.definition name)
    else match Text.naturalValue? name with
      | none => .error (.undefinedName name)
      | some value =>
        if env.expands value then .ok (.numeral value) else .error (.numeralTooLarge name)
  | .app (.lam _ _) _ => .ok .beta
  | .app _ _ => .error .notApplied
  | .lam _ _ => .error .abstraction

/-- What reducing `t` at `address` would do, or why it would do nothing. -/
def classify (env : Environment) (t : Term) (address : Address) :
    Except AddressError (Except Inert Redex) := do
  let sub ← t.subterm address
  let binders ← t.bindersAlong address
  return env.classifyBelow binders sub

end Environment

end LambdaWorkbench
