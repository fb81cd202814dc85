import LambdaWorkbench.Proofs.Redex.Arithmetic

/-! # Exponentiation in the prelude

`POW` applies the exponent to the base. For every exponent but zero the result is the numeral of
the power. The exponent zero takes one lambda away and leaves the function that returns its
argument, which is not equal to the numeral of one up to the names of parameters.
-/

namespace LambdaWorkbench.Environment

open Term

variable {env : Environment} {name name' text : String} {m n : Nat} {t result : Term}

/-- A text normalizes to one term only, up to the names of parameters. -/
theorem NormalizesTo.unique (h : env.NormalizesTo text t) (h' : env.NormalizesTo text result) :
    t.alphaEq result = true := by
  obtain ⟨start, parsed, bound, reached⟩ := h
  obtain ⟨start', parsed', bound', reached'⟩ := h'
  obtain rfl : start = start' := Except.ok.inj (parsed.symm.trans parsed')
  have ends := (reached (max bound bound') (Nat.le_max_left _ _)).2
  have ends' := (reached' (max bound bound') (Nat.le_max_right _ _)).2
  rw [alphaEq_iff_nameless] at ends ends' ⊢
  exact ends.symm.trans ends'

/-- A number by itself. -/
theorem normalizesTo_church (h : NumeralName name n) :
    loadedPrelude.NormalizesTo name (church n) := by
  have printed : PrintsAs false true (free name) name := .var h.variableName
  exact .of_reduces printed.parse_eq.1 (nameless_church n)
    (.single (.unfold (unfold_numeralName h))) (Nameless.Rules.normal_numeral n)

theorem unfold_pow : loadedPrelude.rules.unfold "POW" = some .exponentiation := by
  decide

theorem normalizesTo_pow_succ (base : NumeralName name m) (exponent : NumeralName name' (n + 1)) :
    loadedPrelude.NormalizesTo ("POW " ++ name ++ " " ++ name') (church (m ^ (n + 1))) :=
  normalizesTo_binary (.of_canBind (by decide) (by decide)) (by decide) unfold_pow base exponent
    (nameless_church (m ^ (n + 1))) (Nameless.Rules.reduces_exponentiation _ m n)
    (Nameless.Rules.normal_numeral (m ^ (n + 1)))

theorem normalizesTo_pow_zero (base : NumeralName name m) (exponent : NumeralName name' 0) :
    loadedPrelude.NormalizesTo ("POW " ++ name ++ " " ++ name') (lam "x" (var "x" 1)) :=
  normalizesTo_binary (.of_canBind (by decide) (by decide)) (by decide) unfold_pow base exponent
    rfl (Nameless.Rules.reduces_exponentiation_zero _ m) (Nameless.Rules.normal_bound 1).lam

/-- The exponent zero does not yield the numeral of one. -/
theorem not_normalizesTo_pow_zero (base : NumeralName name m) (exponent : NumeralName name' 0) :
    ¬ loadedPrelude.NormalizesTo ("POW " ++ name ++ " " ++ name') (church (m ^ 0)) := by
  intro claimed
  have same := claimed.unique (normalizesTo_pow_zero base exponent)
  rw [Nat.pow_zero] at same
  cases same

/-- **Exponentiation in the prelude is correct for every exponent but zero.** Let two numbers that
fit in 64 bits be spelled by runs of digits. In the environment of the prelude, which has no limit
for numerals, every long enough run in normal order from `POW`, applied to the base and the
exponent, ends at the numeral of the power just when the exponent is not zero. That is what a
spelling of the power ends at. For the exponent zero it ends at the function that returns its
argument. The power need not fit in 64 bits. -/
theorem prelude_exponentiation {a b : String} (base : NumeralName a m)
    (exponent : NumeralName b n) :
    ∃ env, Environment.prelude = .ok env ∧ env.numeralLimit = none ∧
      (env.NormalizesTo ("POW " ++ a ++ " " ++ b) (church (m ^ n)) ↔ n ≠ 0) ∧
      (n = 0 → env.NormalizesTo ("POW " ++ a ++ " " ++ b) (lam "x" (var "x" 1))) ∧
      ∀ c, NumeralName c (m ^ n) → env.NormalizesTo c (church (m ^ n)) := by
  refine ⟨loadedPrelude, prelude_eq, rfl, ?_, ?_, fun c power => normalizesTo_church power⟩
  · cases n with
    | zero => exact iff_of_false (not_normalizesTo_pow_zero base exponent) (absurd rfl)
    | succ n => exact iff_of_true (normalizesTo_pow_succ base exponent) (Nat.succ_ne_zero n)
  · rintro rfl
    exact normalizesTo_pow_zero base exponent

/-- The base zero, with an exponent that has a zero before it. -/
theorem prelude_exponentiation_of_zero :
    NumeralName "0" 0 ∧ NumeralName "03" 3 ∧
      ∃ env, Environment.prelude = .ok env ∧ env.numeralLimit = none ∧
        env.NormalizesTo "POW 0 03" (church 0) ∧ env.NormalizesTo "000" (church 0) := by
  have zero : NumeralName "0" 0 := ⟨by decide, by decide⟩
  have three : NumeralName "03" 3 := ⟨by decide, by decide⟩
  obtain ⟨env, loaded, unlimited, correct, -, power⟩ := prelude_exponentiation zero three
  exact ⟨zero, three, env, loaded, unlimited, correct.mpr (by decide),
    power "000" ⟨by decide, by decide⟩⟩

/-- `POW 2 0` is not `1`, although all three numbers fit in 64 bits. -/
theorem prelude_exponentiation_zero :
    ∃ env, Environment.prelude = .ok env ∧ env.numeralLimit = none ∧
      NumeralName "2" 2 ∧ NumeralName "0" 0 ∧ NumeralName "1" (2 ^ 0) ∧
      env.NormalizesTo "1" (church (2 ^ 0)) ∧
      env.NormalizesTo "POW 2 0" (lam "x" (var "x" 1)) ∧
      ¬ env.NormalizesTo "POW 2 0" (church (2 ^ 0)) := by
  have zero : NumeralName "0" 0 := ⟨by decide, by decide⟩
  have one : NumeralName "1" (2 ^ 0) := ⟨by decide, by decide⟩
  have two : NumeralName "2" 2 := ⟨by decide, by decide⟩
  have identity := normalizesTo_pow_zero two zero
  have noNumeral := not_normalizesTo_pow_zero two zero
  exact ⟨loadedPrelude, prelude_eq, rfl, two, zero, one, normalizesTo_church one, identity,
    noNumeral⟩

end LambdaWorkbench.Environment
