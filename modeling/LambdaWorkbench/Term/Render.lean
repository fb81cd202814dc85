import LambdaWorkbench.Sexpr.Shorthand
import LambdaWorkbench.Term.Nameless
import LambdaWorkbench.Term.Style

/-!
# Printing terms

A term in each of the styles. The two named styles use the lambda shorthand where the parameter
allows it and the word `lambda` elsewhere, so that what they print can be read back.
-/

namespace LambdaWorkbench.Term

/-- A lambda written out, with its own parentheses, for a parameter that the shorthand cannot
bind. -/
def wordLambda (param body : String) : String :=
  "(lambda (" ++ param ++ ") " ++ body ++ ")"

def parenthesized (needed : Bool) (text : String) : String :=
  if needed then "(" ++ text ++ ")" else text

/-- The named style: every application is in parentheses, as is a lambda that is applied. -/
def renderNamed (applied : Bool) : Term → String
  | var name _ => name
  | lam param body =>
    let text := body.renderNamed false
    if Shorthand.canBind param then parenthesized applied ("λ" ++ param ++ "." ++ text)
    else wordLambda param text
  | app func arg => "(" ++ func.renderNamed true ++ " " ++ arg.renderNamed false ++ ")"

/-- Where a subterm stands in compact output. -/
structure Place where
  /-- It is the function of an application. -/
  applied : Bool
  /-- It is the argument of an application. -/
  argument : Bool
  /-- Nothing follows it before the next closing parenthesis or the end. -/
  last : Bool
  deriving DecidableEq, Repr

namespace Place

/-- The place of a whole term, and of the body of a lambda. -/
def top : Place := ⟨false, false, true⟩

def func : Place := ⟨true, false, false⟩

/-- The place of an argument, `last` as given. -/
def arg (last : Bool) : Place := ⟨false, true, last⟩

end Place

/-- The compact style: an application is in parentheses as an argument, and a lambda is where it
is applied or where something follows it. -/
def renderCompact (place : Place) : Term → String
  | var name _ => name
  | lam param body =>
    let text := body.renderCompact .top
    if Shorthand.canBind param then
      parenthesized (place.applied || !place.last) ("λ" ++ param ++ "." ++ text)
    else wordLambda param text
  | app func arg =>
    parenthesized place.argument <|
      func.renderCompact .func ++ " " ++ arg.renderCompact (.arg (place.argument || place.last))

def render (style : Style) (t : Term) : String :=
  match style with
  | .named => t.renderNamed false
  | .debruijn => t.nameless.render false
  | .compact => t.renderCompact .top

end LambdaWorkbench.Term
