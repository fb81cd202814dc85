import LambdaWorkbench.Redex.Basic
import LambdaWorkbench.Term.Substitution

/-!
# Reducing at an address

One reduction at an address that the caller chooses. A definition may come to stand under lambdas
that bind some of its free names; those lambdas are renamed first, so that the names stay free.
-/

namespace LambdaWorkbench

namespace Term

/-- Renames the lambdas that the steps cross and whose parameter is one of `free`, so that a term
with these free names can be put at the end of the steps. -/
def protect (free : List String) : Address → Term → Term
  | .body :: steps, lam param body =>
    if param ∈ free then
      let fresh := freshName param (body.names ++ free)
      lam fresh (protect free steps (body.renameFree param fresh))
    else lam param (protect free steps body)
  | .func :: steps, app func arg => app (protect free steps func) arg
  | .arg :: steps, app func arg => app func (protect free steps arg)
  | _, t => t

end Term

namespace Environment

/-- The whole term after the redex `sub` at `address` has been contracted, with the indices as
they are copied. -/
def contract (env : Environment) (t : Term) (address : Address) (sub : Term) :
    Redex → Except AddressError (Option Term)
  | .beta =>
    match sub with
    | .app (.lam param body) arg => (t.replaceAt address (body.subst param arg)).map some
    | _ => .ok none
  | .definition name =>
    match env.get? name with
    | some term => ((t.protect term.freeVars address).replaceAt address term).map some
    | none => .ok none
  | .numeral value => (t.replaceAt address (Term.church value)).map some

/-- The term after one reduction at `address`, its indices worked out anew; nothing when the place
is inert. -/
def reduceAt (env : Environment) (t : Term) (address : Address) :
    Except AddressError (Option Term) := do
  let sub ← t.subterm address
  let binders ← t.bindersAlong address
  match env.classifyBelow binders sub with
  | .error _ => return none
  | .ok redex =>
    let result ← env.contract t address sub redex
    return result.map Term.reindex

/-- The addresses of the redexes of a term below the lambdas that bind `binders`: the term itself,
then those in its parts in the order of the text. -/
def redexesBelow (env : Environment) (binders : List String) (t : Term) : List Address :=
  let here := match env.classifyBelow binders t with
    | .ok _ => [Address.root]
    | .error _ => []
  match t with
  | .var _ _ => here
  | .lam param body => here ++ (env.redexesBelow (param :: binders) body).map (.body :: ·)
  | .app func arg =>
    here ++ (env.redexesBelow binders func).map (.func :: ·)
      ++ (env.redexesBelow binders arg).map (.arg :: ·)

/-- The addresses of all redexes of a term, in their order. The first is that of the leftmost
outermost redex. -/
def redexes (env : Environment) (t : Term) : List Address :=
  env.redexesBelow [] t

end Environment

end LambdaWorkbench
