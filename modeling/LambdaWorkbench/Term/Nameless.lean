import LambdaWorkbench.Term.Scope

/-!
# The nameless reading

What a term means apart from the choice of its parameters: a bound variable is the distance to
its binder, a free one keeps its name, and a lambda has no parameter.
-/

namespace LambdaWorkbench

/-- A term without the names of bound variables. Distances count from one. -/
inductive Nameless where
  | bound (distance : Nat)
  | free (name : String)
  | lam (body : Nameless)
  | app (func arg : Nameless)
  deriving DecidableEq, Inhabited, Repr

/-- The nameless reading of a term inside `scope`. -/
def Term.namelessIn (scope : List String) : Term → Nameless
  | .var name _ =>
    match scope.idxOf? name with
    | some place => .bound (place + 1)
    | none => .free name
  | .lam param body => .lam (body.namelessIn (param :: scope))
  | .app func arg => .app (func.namelessIn scope) (arg.namelessIn scope)

def Term.nameless (t : Term) : Nameless :=
  t.namelessIn []

/-- The text of a nameless term: bound variables are numbers, and every application is in
parentheses, as is a lambda that is applied. -/
def Nameless.render (applied : Bool) : Nameless → String
  | bound distance => toString distance
  | free name => name
  | lam body =>
    let text := "λ." ++ body.render false
    if applied then "(" ++ text ++ ")" else text
  | app func arg => "(" ++ func.render true ++ " " ++ arg.render false ++ ")"

end LambdaWorkbench
