import LambdaWorkbench.Sexpr.Reader
import LambdaWorkbench.Sexpr.Shorthand
import LambdaWorkbench.Term.Scope

/-!
# Terms from S-expressions

A list of several items is an application that associates to the left, and a list of one item is
that item. The word `lambda` starts an abstraction wherever it stands in a list: the list of
parameters follows, and the rest of the list is the body. Faults are found from left to right.
-/

namespace LambdaWorkbench

namespace Term

def lambdaWord : String := "lambda"

def startsLambda : Sexpr → Bool
  | .atom name => name == lambdaWord
  | .list _ => false

/-- The names in a list of parameters, which has to hold atoms only. -/
def paramNames : List Sexpr → Except ParseError (List String)
  | [] => .ok []
  | .atom name :: rest => do return name :: (← paramNames rest)
  | .list items :: _ => .error (.invalidParameter (Sexpr.list items).render)

mutual

/-- The term that an S-expression stands for inside `scope`. -/
def ofSexpr (scope : List String) : Sexpr → Except ParseError Term
  | .atom name => .ok (var name (scopeIndex scope name))
  | .list items => ofItems scope items

/-- The term that the items of a list stand for inside `scope`. -/
def ofItems (scope : List String) : List Sexpr → Except ParseError Term
  | [] => .error .emptyExpression
  | item :: rest =>
    if startsLambda item then ofLambda scope rest
    else do
      let func ← ofSexpr scope item
      applyItems scope func rest

/-- `func` applied to the remaining items of its list. -/
def applyItems (scope : List String) (func : Term) : List Sexpr → Except ParseError Term
  | [] => .ok func
  | item :: rest =>
    if startsLambda item then do
      let arg ← ofLambda scope rest
      return app func arg
    else do
      let arg ← ofSexpr scope item
      applyItems scope (app func arg) rest

/-- The abstraction whose parameters and body follow the word `lambda`. -/
def ofLambda (scope : List String) : List Sexpr → Except ParseError Term
  | .list (first :: others) :: body => do
    let params ← paramNames (first :: others)
    let inner ← ofItems (params.reverse ++ scope) body
    return lams params inner
  | _ => .error .missingParameters

end

/-- The term that a text stands for; missing closing parentheses are added. -/
def parse (text : String) : Except ParseError Term :=
  ofSexpr [] (Sexpr.read (Shorthand.expand text))

/-- The term that a text with balanced parentheses stands for. -/
def parseStrict (text : String) : Except ParseError Term := do
  let items ← Sexpr.readStrict (Shorthand.expand text)
  ofSexpr [] items

end Term

end LambdaWorkbench
