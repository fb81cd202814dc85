import LambdaWorkbench.Environment.Definitions

/-!
# The prelude

Definitions that a session starts with unless told otherwise: combinators, booleans, pairs and the
arithmetic of Church numerals.
-/

namespace LambdaWorkbench

def preludeLines : List String :=
  ["# combinators",
    "I = λx.x",
    "K = λx.λy.x",
    "S = λx.λy.λz.((x z) (y z))",
    "B = λf.λg.λx.(f (g x))",
    "C = λf.λx.λy.((f y) x)",
    "Y = λf.((λx.(f (x x))) λx.(f (x x)))",
    "",
    "# booleans",
    "TRUE = λt.λf.t",
    "FALSE = λt.λf.f",
    "AND = λp.λq.((p q) p)",
    "OR = λp.λq.((p p) q)",
    "NOT = λp.((p FALSE) TRUE)",
    "IF = λp.λa.λb.((p a) b)",
    "",
    "# pairs",
    "PAIR = λx.λy.λf.((f x) y)",
    "FST = λp.(p TRUE)",
    "SND = λp.(p FALSE)",
    "",
    "# numerals",
    "SUCC = λn.λf.λx.(f ((n f) x))",
    "PRED = λn.λf.λx.(((n λg.λh.(h (g f))) λu.x) λu.u)",
    "PLUS = λm.λn.λf.λx.((m f) ((n f) x))",
    "MULT = λm.λn.λf.(m (n f))",
    "POW = λb.λe.(e b)",
    "ISZERO = λn.((n λx.FALSE) TRUE)"]

/-- The text of the prelude, as a file of definitions. -/
def preludeText : String :=
  String.join (preludeLines.map (· ++ "\n"))

def Environment.prelude : Except ParseError Environment :=
  ofSource preludeText

end LambdaWorkbench
