/-!
# Styles

The notations that terms are printed in.
-/

namespace LambdaWorkbench

inductive Style where
  /-- Named variables, and parentheses around every application. -/
  | named
  /-- Bound variables as distances to their binders. -/
  | debruijn
  /-- Named variables, and only the parentheses that reading back needs. -/
  | compact
  deriving DecidableEq, Inhabited, Repr

structure UnknownStyle where
  text : String
  deriving DecidableEq, Repr

def UnknownStyle.message (unknown : UnknownStyle) : String :=
  "unknown style `" ++ unknown.text ++ "` (expected named, debruijn or compact)"

namespace Style

/-- The styles in the order they are offered in. -/
def all : List Style := [named, debruijn, compact]

def name : Style → String
  | named => "named"
  | debruijn => "debruijn"
  | compact => "compact"

def ofName (text : String) : Except UnknownStyle Style :=
  match all.find? (·.name == text) with
  | some style => .ok style
  | none => .error ⟨text⟩

theorem mem_all (style : Style) : style ∈ all := by
  cases style <;> decide

theorem ofName_name (style : Style) : ofName style.name = .ok style := by
  cases style <;> rfl

end Style

end LambdaWorkbench
