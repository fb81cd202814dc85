import LambdaWorkbench.ParseError
import LambdaWorkbench.Sexpr.Basic
import LambdaWorkbench.Sexpr.Token

/-!
# Reading S-expressions

One reading of a text yields the items up to its end, or up to the first closing parenthesis that
closes nothing, and says which of the two it was. Lists still open at the end are closed there.
The tolerant reader `Sexpr.read` takes the items as they are; `Sexpr.readStrict` accepts balanced
texts only; `Sexpr.unclosedCount` is the number of closing parentheses that are missing.
-/

namespace LambdaWorkbench.Sexpr

/-- How a reading came to its end. -/
inductive Ending where
  | balanced
  /-- The text ended inside `count` open lists. -/
  | unclosed (count : Nat)
  /-- A closing parenthesis at byte `offset` closes nothing. -/
  | stray (offset : Nat)
  deriving DecidableEq, Repr

/-- The items that were read, and how the reading ended. -/
structure Reading where
  items : List Sexpr
  ending : Ending
  deriving Repr

/-- Closes the innermost list, whose items are given last first, and then the lists around it,
innermost first, each with the items before it, last first. -/
def closeAll (items : List Sexpr) : List (List Sexpr) → List Sexpr
  | [] => items.reverse
  | parent :: outer => closeAll (list items.reverse :: parent) outer

/-- Reads tokens inside the open lists `outer`. `items` are those of the innermost open list, last
first; `outer` holds the items of the lists around it, innermost first. -/
def readTokens : List (Nat × Token) → List Sexpr → List (List Sexpr) → Reading
  | [], items, outer =>
    ⟨closeAll items outer, if outer.isEmpty then .balanced else .unclosed outer.length⟩
  | (_, .atom name) :: rest, items, outer => readTokens rest (atom name :: items) outer
  | (_, .opening) :: rest, items, outer => readTokens rest [] (items :: outer)
  | (offset, .closing) :: _, items, [] => ⟨items.reverse, .stray offset⟩
  | (_, .closing) :: rest, items, parent :: outer =>
    readTokens rest (list items.reverse :: parent) outer

def reading (text : String) : Reading :=
  readTokens (Token.scan text) [] []

/-- The items of a text as one list. Missing closing parentheses are added at the end, and a
closing parenthesis that closes nothing ends the text. -/
def read (text : String) : Sexpr :=
  list (reading text).items

/-- The items of a balanced text as one list. -/
def readStrict (text : String) : Except ParseError Sexpr :=
  match (reading text).ending with
  | .balanced => .ok (read text)
  | .unclosed count => .error (.unclosedParens count)
  | .stray offset => .error (.strayParen offset)

/-- The number of closing parentheses missing at the end of a text; none are when a closing
parenthesis that closes nothing comes first. -/
def unclosedCount (text : String) : Nat :=
  match (reading text).ending with
  | .unclosed count => count
  | _ => 0

end LambdaWorkbench.Sexpr
