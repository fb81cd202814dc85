import LambdaWorkbench.Term.Fresh

/-!
# Substitution

Capture-avoiding substitution by names. A lambda whose parameter is free in the argument is
renamed, but only where the argument really comes to stand inside it.
-/

namespace LambdaWorkbench.Term

/-- Puts `arg`, whose free variables are `argFree`, for the free occurrences of the variable
`name`. -/
def substIn (name : String) (arg : Term) (argFree : List String) : Term → Term
  | var occurring index => if occurring = name then arg else var occurring index
  | app func right => app (substIn name arg argFree func) (substIn name arg argFree right)
  | lam param body =>
    if param = name then lam param body
    else if param ∈ argFree ∧ body.hasFree name then
      let fresh := freshName param (body.names ++ argFree ++ [name])
      lam fresh (substIn name arg argFree (body.renameFree param fresh))
    else lam param (substIn name arg argFree body)
termination_by t => t.size
decreasing_by all_goals simp [size] <;> omega

/-- Puts `arg` for the free occurrences of the variable `name`. Indices are copied and not worked
out anew. -/
def subst (body : Term) (name : String) (arg : Term) : Term :=
  substIn name arg arg.freeVars body

end LambdaWorkbench.Term
