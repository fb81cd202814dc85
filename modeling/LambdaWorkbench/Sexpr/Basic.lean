/-!
# S-expressions

The trees that terms are written as: atoms and parenthesised lists. `Sexpr.render` writes a tree
with single spaces between the items of a list.
-/

namespace LambdaWorkbench

inductive Sexpr where
  | atom (name : String)
  | list (items : List Sexpr)
  deriving Inhabited, Repr

namespace Sexpr

def atomName? : Sexpr → Option String
  | atom name => some name
  | list _ => none

mutual

def render : Sexpr → String
  | atom name => name
  | list items => "(" ++ renderItems items ++ ")"

/-- The texts of the items of a list, with a space between two of them. -/
def renderItems : List Sexpr → String
  | [] => ""
  | [item] => item.render
  | item :: next :: rest => item.render ++ " " ++ renderItems (next :: rest)

end

@[simp] theorem render_atom (name : String) : (atom name).render = name := by
  simp [render]

@[simp] theorem render_list (items : List Sexpr) :
    (list items).render = "(" ++ renderItems items ++ ")" := by
  simp [render]

end Sexpr

end LambdaWorkbench
