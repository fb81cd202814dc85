import LambdaWorkbench.Term.Basic

/-!
# Scopes

A scope lists the parameters of the enclosing lambdas, innermost first. A name means the first
parameter of that name; `scopeIndex` is its place counted from one. `Term.reindex` writes these
places into a term, and `Term.alphaEq` compares two terms by them.
-/

namespace LambdaWorkbench

/-- The place of `name` in a scope, counted from one at the innermost lambda, or 0 when nothing
binds it. -/
def scopeIndex (scope : List String) (name : String) : Nat :=
  match scope.idxOf? name with
  | some place => place + 1
  | none => 0

namespace Term

/-- A term inside `scope` with the index of every variable worked out from the names. -/
def reindexIn (scope : List String) : Term → Term
  | var name _ => var name (scopeIndex scope name)
  | lam param body => lam param (body.reindexIn (param :: scope))
  | app func arg => app (func.reindexIn scope) (arg.reindexIn scope)

/-- A whole term with the index of every variable worked out from the names. -/
def reindex (t : Term) : Term :=
  t.reindexIn []

/-- Equality up to the names of bound variables, for terms inside two scopes. -/
def alphaEqIn (scope scope' : List String) : Term → Term → Bool
  | var name _, var name' _ =>
    scopeIndex scope name == scopeIndex scope' name' &&
      (scopeIndex scope name != 0 || name == name')
  | lam param body, lam param' body' =>
    alphaEqIn (param :: scope) (param' :: scope') body body'
  | app func arg, app func' arg' =>
    alphaEqIn scope scope' func func' && alphaEqIn scope scope' arg arg'
  | _, _ => false

/-- Equality up to the names of bound variables. Indices do not matter. -/
def alphaEq (t u : Term) : Bool :=
  alphaEqIn [] [] t u

end Term

end LambdaWorkbench
