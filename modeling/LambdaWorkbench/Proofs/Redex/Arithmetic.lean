import LambdaWorkbench.Proofs.Environment.Prelude
import LambdaWorkbench.Proofs.Nameless.Numerals
import LambdaWorkbench.Proofs.Redex.NormalOrder

/-! # The arithmetic of the prelude

Reductions in some order lead from a function of the prelude, applied to numbers, to the numeral of
its value. That numeral is a normal form, so a long enough run in normal order ends at it, although
such a run unfolds definitions and numbers only when it gets to them and takes other steps.
-/

namespace LambdaWorkbench

open Term Environment

/-- A spelling of a number that fits in 64 bits. -/
structure NumeralName (name : String) (n : Nat) : Prop where
  value : Text.naturalValue? name = some n
  fits : n ≤ Text.maxWord

variable {name name' text : String} {m n : Nat}

theorem numeralName_toString (fits : n ≤ Text.maxWord) : NumeralName (toString n) n :=
  ⟨Text.naturalValue?_toString n, fits⟩

theorem NumeralName.variableName (h : NumeralName name n) : VariableName name := by
  obtain ⟨nonempty, digits, -⟩ := Text.naturalValue?_eq_some_iff.mp h.value
  constructor
  · refine Shorthand.Readable.of_canBind ?_
    rw [Shorthand.canBind, Bool.and_eq_true, List.all_eq_true]
    exact ⟨by simpa using nonempty, fun c mem => Shorthand.isNameChar_of_isDigit (digits c mem)⟩
  · rintro rfl
    have word : Text.naturalValue? lambdaWord = none := by decide
    cases word.symm.trans h.value

namespace Term

theorem nameless_church (n : Nat) : (church n).nameless = .numeral n := by
  have body : (iterated n).namelessIn ["x", "f"] = .power (.bound 2) (.bound 1) n := by
    induction n with
    | zero => rfl
    | succ n ih =>
      rw [iterated, namelessIn, ih]
      rfl
  rw [nameless, church, namelessIn, namelessIn, body]
  rfl

end Term

namespace Environment

/-- Every long enough run in normal order, from the term that a text stands for, ends at a normal
form, which is `result` up to the names of parameters. -/
def NormalizesTo (env : Environment) (text : String) (result : Term) : Prop :=
  ∃ t, parse text = .ok t ∧ ∃ bound, ∀ count ≥ bound,
    (env.normalize .normalOrder count t).isNormal = true ∧
      ((env.normalize .normalOrder count t).last t).alphaEq result = true

variable {t result : Term} {s : Nameless}

theorem NormalizesTo.of_reduces {env : Environment} (parsed : parse text = .ok t)
    (reads : result.nameless = s) (reduces : env.rules.Reduces t.nameless s)
    (normal : env.rules.Normal s) : env.NormalizesTo text result := by
  obtain ⟨bound, reached⟩ := last_of_normalSteps normal (reduces.normalSteps normal)
  refine ⟨t, parsed, bound, fun count enough => ?_⟩
  have ended := reached count enough
  exact ⟨isNormal_iff.mpr (redexes_eq_nil_iff.mpr (ended ▸ normal)),
    alphaEq_iff_nameless.mpr (ended.trans reads.symm)⟩

/-! ## Calls -/

section Calls

variable {function front arg arg' : String} {body : Nameless}

theorem unfold_numeralName (h : NumeralName name n) :
    loadedPrelude.rules.unfold name = some (.numeral n) :=
  (unfold_numeral h.value h.fits).trans (congrArg some (nameless_church n))

/-- A defined name applied to a number. -/
theorem normalizesTo_unary (word : VariableName function) (spaced : function ++ " " = front)
    (defined : loadedPrelude.rules.unfold function = some body) (number : NumeralName arg n)
    (reads : result.nameless = s)
    (reduces : loadedPrelude.rules.Reduces (.app body (.numeral n)) s)
    (normal : loadedPrelude.rules.Normal s) :
    loadedPrelude.NormalizesTo (front ++ arg) result := by
  have printed : PrintsAs false true (app (free function) (free arg)) (front ++ arg) :=
    spaced ▸ (PrintsAs.var word).app (.var number.variableName)
  have unfolded : loadedPrelude.rules.Reduces (app (free function) (free arg)).nameless
      (.app body (.numeral n)) :=
    .app (.single (.unfold defined)) (.single (.unfold (unfold_numeralName number)))
  exact .of_reduces printed.parse_eq.1 reads (unfolded.trans reduces) normal

/-- A defined name applied to two numbers. -/
theorem normalizesTo_binary (word : VariableName function) (spaced : function ++ " " = front)
    (defined : loadedPrelude.rules.unfold function = some body) (left : NumeralName arg m)
    (right : NumeralName arg' n) (reads : result.nameless = s)
    (reduces : loadedPrelude.rules.Reduces (.app (.app body (.numeral m)) (.numeral n)) s)
    (normal : loadedPrelude.rules.Normal s) :
    loadedPrelude.NormalizesTo (front ++ arg ++ " " ++ arg') result := by
  have printed : PrintsAs false true (app (app (free function) (free arg)) (free arg'))
      (front ++ arg ++ " " ++ arg') :=
    spaced ▸ ((PrintsAs.var word).app (.var left.variableName)).app (.var right.variableName)
  have unfolded : loadedPrelude.rules.Reduces
      (app (app (free function) (free arg)) (free arg')).nameless
      (.app (.app body (.numeral m)) (.numeral n)) :=
    .app (.app (.single (.unfold defined)) (.single (.unfold (unfold_numeralName left))))
      (.single (.unfold (unfold_numeralName right)))
  exact .of_reduces printed.parse_eq.1 reads (unfolded.trans reduces) normal

end Calls

/-! ## The functions -/

theorem normalizesTo_succ (h : NumeralName name n) :
    loadedPrelude.NormalizesTo ("SUCC " ++ name) (church (n + 1)) := by
  have defined : loadedPrelude.rules.unfold "SUCC" = some .successor := by decide
  exact normalizesTo_unary (.of_canBind (by decide) (by decide)) (by decide) defined h
    (nameless_church (n + 1)) (Nameless.Rules.reduces_successor _ n)
    (Nameless.Rules.normal_numeral (n + 1))

theorem normalizesTo_pred (h : NumeralName name n) :
    loadedPrelude.NormalizesTo ("PRED " ++ name) (church (n - 1)) := by
  have defined : loadedPrelude.rules.unfold "PRED" = some .predecessor := by decide
  exact normalizesTo_unary (.of_canBind (by decide) (by decide)) (by decide) defined h
    (nameless_church (n - 1)) (Nameless.Rules.reduces_predecessor _ n)
    (Nameless.Rules.normal_numeral (n - 1))

theorem normalizesTo_plus (left : NumeralName name m) (right : NumeralName name' n) :
    loadedPrelude.NormalizesTo ("PLUS " ++ name ++ " " ++ name') (church (m + n)) := by
  have defined : loadedPrelude.rules.unfold "PLUS" = some .sum := by decide
  exact normalizesTo_binary (.of_canBind (by decide) (by decide)) (by decide) defined left right
    (nameless_church (m + n)) (Nameless.Rules.reduces_sum _ m n)
    (Nameless.Rules.normal_numeral (m + n))

theorem normalizesTo_mult (left : NumeralName name m) (right : NumeralName name' n) :
    loadedPrelude.NormalizesTo ("MULT " ++ name ++ " " ++ name') (church (m * n)) := by
  have defined : loadedPrelude.rules.unfold "MULT" = some .product := by decide
  exact normalizesTo_binary (.of_canBind (by decide) (by decide)) (by decide) defined left right
    (nameless_church (m * n)) (Nameless.Rules.reduces_product _ m n)
    (Nameless.Rules.normal_numeral (m * n))

/-- The definition of `TRUE`, or that of `FALSE`. -/
def truthTerm : Bool → Term
  | true => lams ["t", "f"] (var "t" 2)
  | false => lams ["t", "f"] (var "f" 1)

theorem get?_truthTerm (zero : Bool) :
    loadedPrelude.get? (if zero then "TRUE" else "FALSE") = some (truthTerm zero) := by
  cases zero <;> decide

theorem normalizesTo_isZero (h : NumeralName name n) :
    loadedPrelude.NormalizesTo ("ISZERO " ++ name) (truthTerm (n == 0)) := by
  have defined : loadedPrelude.rules.unfold "ISZERO" = some (.zeroTest "TRUE" "FALSE") := by
    decide
  have named := Nameless.Rules.reduces_zeroTest loadedPrelude.rules "TRUE" "FALSE" n
  have truth := unfold_of_get? (get?_truthTerm (n == 0))
  simp only [beq_iff_eq] at truth
  have normal : loadedPrelude.rules.Normal (truthTerm (n == 0)).nameless := by
    cases n == 0
    · exact (Nameless.Rules.normal_bound 1).lam.lam
    · exact (Nameless.Rules.normal_bound 2).lam.lam
  exact normalizesTo_unary (.of_canBind (by decide) (by decide)) (by decide) defined h rfl
    (named.tail (.unfold truth)) normal

/-- **The arithmetic of the prelude is correct.** Let numbers that fit in 64 bits be spelled by runs
of digits, in decimal notation or with zeros before it. In the environment of the prelude, which has
no limit for numerals, every long enough run in normal order from a function applied to such numbers
ends at a normal form. It is the numeral of the successor, of the predecessor (zero for zero), of
the sum or of the product, and the definition of `TRUE` or `FALSE` for the test for zero. The value
need not fit in 64 bits. -/
theorem prelude_arithmetic :
    ∃ env yes no, Environment.prelude = .ok env ∧ env.numeralLimit = none ∧
      env.get? "TRUE" = some yes ∧ env.get? "FALSE" = some no ∧
      (∀ n ≤ Text.maxWord, NumeralName (toString n) n) ∧
      ∀ a m b n, NumeralName a m → NumeralName b n →
        env.NormalizesTo ("SUCC " ++ a) (church (m + 1)) ∧
        env.NormalizesTo ("PRED " ++ a) (church (m - 1)) ∧
        env.NormalizesTo ("PLUS " ++ a ++ " " ++ b) (church (m + n)) ∧
        env.NormalizesTo ("MULT " ++ a ++ " " ++ b) (church (m * n)) ∧
        env.NormalizesTo ("ISZERO " ++ a) (if m = 0 then yes else no) := by
  refine ⟨loadedPrelude, truthTerm true, truthTerm false, prelude_eq, rfl, get?_truthTerm true,
    get?_truthTerm false, fun n => numeralName_toString, ?_⟩
  intro a m b n left right
  have isZero := normalizesTo_isZero left
  have truth : truthTerm (m == 0) = if m = 0 then truthTerm true else truthTerm false := by
    cases m <;> rfl
  rw [truth] at isZero
  exact ⟨normalizesTo_succ left, normalizesTo_pred left, normalizesTo_plus left right,
    normalizesTo_mult left right, isZero⟩

/-- Two and three, the latter with a zero before it, and zero, of which the predecessor is zero. -/
theorem prelude_arithmetic_small :
    ∃ env yes, Environment.prelude = .ok env ∧ env.get? "TRUE" = some yes ∧
      env.NormalizesTo "SUCC 2" (church 3) ∧ env.NormalizesTo "PRED 0" (church 0) ∧
      env.NormalizesTo "PLUS 2 03" (church 5) ∧ env.NormalizesTo "MULT 2 03" (church 6) ∧
      env.NormalizesTo "ISZERO 0" yes := by
  obtain ⟨env, yes, no, loaded, -, defined, -, spelled, correct⟩ := prelude_arithmetic
  have zero : NumeralName "0" 0 := spelled 0 (by decide)
  have two : NumeralName "2" 2 := spelled 2 (by decide)
  have three : NumeralName "03" 3 := ⟨by decide, by decide⟩
  obtain ⟨succ, -, plus, mult, -⟩ := correct "2" 2 "03" 3 two three
  obtain ⟨-, pred, -, -, isZero⟩ := correct "0" 0 "0" 0 zero zero
  exact ⟨env, yes, loaded, defined, succ, pred, plus, mult, isZero⟩

end Environment

end LambdaWorkbench
