import Mathlib.Algebra.Group.Nat.Defs
import LambdaWorkbench.Proofs.Nameless.Reduction

/-! # Church numerals

The numeral of `n` applies its first argument `n` times to its second. What the usual functions on
numerals yield follows from that: each puts its argument where it is applied, and the two distances
inside the numeral become whatever it is applied to. All reductions here only contract applied
lambdas, so the rules for names do not matter, except to the test for zero, which yields a name.
-/

namespace LambdaWorkbench.Nameless

/-- A term that applies a function `n` times. -/
def power (func arg : Nameless) : Nat → Nameless
  | 0 => arg
  | n + 1 => app func (power func arg n)

/-- The Church numeral of `n`. -/
def numeral (n : Nat) : Nameless :=
  lam (lam (power (bound 2) (bound 1) n))

variable {func arg : Nameless}

theorem power_add (func arg : Nameless) (m n : Nat) :
    power func (power func arg n) m = power func arg (m + n) := by
  induction m with
  | zero => rw [power, Nat.zero_add]
  | succ m ih => rw [power, ih, Nat.succ_add, power]

@[simp] theorem shift_power (func arg : Nameless) (n cutoff : Nat) :
    (power func arg n).shift cutoff = power (func.shift cutoff) (arg.shift cutoff) n := by
  induction n with
  | zero => rfl
  | succ n ih => rw [power, shift, ih, power]

@[simp] theorem subst_power (func arg new : Nameless) (n place : Nat) :
    (power func arg n).subst place new = power (func.subst place new) (arg.subst place new) n := by
  induction n with
  | zero => rfl
  | succ n ih => rw [power, subst, ih, power]

theorem closedUnder_power {depth : Nat} (hf : func.ClosedUnder depth) (ha : arg.ClosedUnder depth)
    (n : Nat) : (power func arg n).ClosedUnder depth := by
  induction n with
  | zero => exact ha
  | succ n ih => exact ⟨hf, ih⟩

theorem closedUnder_numeral (n : Nat) : (numeral n).ClosedUnder 0 := by
  have func : (bound 2).ClosedUnder 2 := Nat.le_refl 2
  have arg : (bound 1).ClosedUnder 2 := Nat.le_succ 1
  exact closedUnder_power func arg n

@[simp] theorem shift_numeral (n cutoff : Nat) : (numeral n).shift cutoff = numeral n :=
  ((closedUnder_numeral n).mono (Nat.zero_le cutoff)).shift_eq

@[simp] theorem subst_numeral (n place : Nat) (new : Nameless) :
    (numeral n).subst place new = numeral n :=
  ((closedUnder_numeral n).mono (Nat.zero_le place)).subst_eq new

/-! ## Functions on numerals -/

/-- `λn.λf.λx.f (n f x)` -/
def successor : Nameless :=
  lam (lam (lam (app (bound 2) (app (app (bound 3) (bound 2)) (bound 1)))))

/-- `λm.λn.λf.λx.m f (n f x)` -/
def sum : Nameless :=
  lam (lam (lam (lam (app (app (bound 4) (bound 2)) (app (app (bound 3) (bound 2)) (bound 1))))))

/-- `λm.λn.λf.m (n f)` -/
def product : Nameless :=
  lam (lam (lam (app (bound 3) (app (bound 2) (bound 1)))))

/-- `λb.λe.e b` -/
def exponentiation : Nameless :=
  lam (lam (app (bound 1) (bound 2)))

/-- `λg.λh.h (g f)`, where `f` is the outer one of two lambdas around it. -/
def delay : Nameless :=
  lam (lam (app (bound 1) (app (bound 2) (bound 4))))

/-- `λn.λf.λx.n (λg.λh.h (g f)) (λu.x) (λu.u)` -/
def predecessor : Nameless :=
  lam (lam (lam (app (app (app (bound 3) delay) (lam (bound 2))) (lam (bound 1)))))

/-- `λn.n (λx.no) yes` -/
def zeroTest (yes no : String) : Nameless :=
  lam (app (app (bound 1) (lam (free no))) (free yes))

namespace Rules

variable {rules : Rules} {func' arg' result : Nameless}

theorem normal_bound (distance : Nat) : rules.Normal (bound distance) :=
  nofun

theorem Normal.lam {body : Nameless} (h : rules.Normal body) : rules.Normal (.lam body) := by
  intro u step
  cases step with
  | lam inner => exact h _ inner

theorem Normal.power {distance : Nat} (h : rules.Normal arg) (n : Nat) :
    rules.Normal (power (bound distance) arg n) := by
  induction n with
  | zero => exact h
  | succ n ih =>
    intro u step
    cases step with
    | func _ inner => exact normal_bound distance _ inner
    | arg _ inner => exact ih _ inner

theorem normal_numeral (n : Nat) : rules.Normal (numeral n) :=
  ((normal_bound 1).power n).lam.lam

theorem Reduces.beta {body : Nameless} (h : body.contract arg = result) :
    rules.Reduces (.app (.lam body) arg) result :=
  .single (h ▸ .beta body arg)

theorem Reduces.power (hf : rules.Reduces func func') (ha : rules.Reduces arg arg') (n : Nat) :
    rules.Reduces (power func arg n) (Nameless.power func' arg' n) := by
  induction n with
  | zero => exact ha
  | succ n ih => exact hf.app ih

section Arithmetic

variable (rules : Rules)

/-- A numeral with one argument is the function that applies it so often. -/
theorem reduces_numeral (n : Nat) (func : Nameless) :
    rules.Reduces (.app (numeral n) func) (.lam (.power (func.shift 0) (bound 1) n)) :=
  .beta (by simp [contract, subst])

/-- A numeral with two arguments applies the first one so often to the second. -/
theorem reduces_numeral_arg (n : Nat) (func arg : Nameless) :
    rules.Reduces (.app (.app (numeral n) func) arg) (.power func arg n) :=
  ((reduces_numeral rules n func).app .refl).trans <|
    Reduces.beta (by simp [contract, subst, subst_shift])

theorem reduces_successor (n : Nat) :
    rules.Reduces (.app successor (numeral n)) (numeral (n + 1)) := by
  have start : rules.Reduces (.app successor (numeral n))
      (.lam (.lam (.app (bound 2) (.app (.app (numeral n) (bound 2)) (bound 1))))) :=
    .beta (by simp [contract, subst])
  have inner := reduces_numeral_arg rules n (bound 2) (bound 1)
  exact start.trans (Reduces.app .refl inner).lam.lam

theorem reduces_sum (m n : Nat) :
    rules.Reduces (.app (.app sum (numeral m)) (numeral n)) (numeral (m + n)) := by
  have first : rules.Reduces (.app sum (numeral m)) (.lam (.lam (.lam
      (.app (.app (numeral m) (bound 2)) (.app (.app (bound 3) (bound 2)) (bound 1)))))) :=
    .beta (by simp [contract, subst])
  have second : rules.Reduces (.app (.app sum (numeral m)) (numeral n)) (.lam (.lam
      (.app (.app (numeral m) (bound 2)) (.app (.app (numeral n) (bound 2)) (bound 1))))) :=
    (first.app .refl).trans (Reduces.beta (by simp [contract, subst]))
  have outer := reduces_numeral_arg rules m (bound 2) (.app (.app (numeral n) (bound 2)) (bound 1))
  have inner := reduces_numeral_arg rules n (bound 2) (bound 1)
  have joined := outer.trans (Reduces.power .refl inner m)
  rw [power_add] at joined
  exact second.trans (Reduces.lam joined).lam

/-- To apply `f` so often `m` times is to apply it `m * n` times. -/
theorem reduces_power_power (m n : Nat) :
    rules.Reduces (.power (.lam (.power (bound 3) (bound 1) n)) (bound 1) m)
      (.power (bound 2) (bound 1) (m * n)) := by
  induction m with
  | zero =>
    rw [Nat.zero_mul]
    exact .refl
  | succ m ih =>
    have last : rules.Reduces
        (.app (.lam (.power (bound 3) (bound 1) n)) (.power (bound 2) (bound 1) (m * n)))
        (.power (bound 2) (.power (bound 2) (bound 1) (m * n)) n) :=
      .beta (by simp [contract, subst])
    rw [power_add, Nat.add_comm, ← Nat.succ_mul] at last
    exact (Reduces.app .refl ih).trans last

/-- A numeral multiplies how often the function it is applied to applies `f`. -/
theorem reduces_numeral_multiplied (m n : Nat) :
    rules.Reduces (.app (numeral m) (.lam (.power (bound 2) (bound 1) n)))
      (.lam (.power (bound 2) (bound 1) (m * n))) := by
  have applied := reduces_numeral rules m (.lam (.power (bound 2) (bound 1) n))
  have shifted : (Nameless.lam (.power (bound 2) (bound 1) n)).shift 0 =
      .lam (.power (bound 3) (bound 1) n) := by
    simp [shift]
  rw [shifted] at applied
  exact applied.trans (reduces_power_power rules m n).lam

theorem reduces_product (m n : Nat) :
    rules.Reduces (.app (.app product (numeral m)) (numeral n)) (numeral (m * n)) := by
  have first : rules.Reduces (.app product (numeral m))
      (.lam (.lam (.app (numeral m) (.app (bound 2) (bound 1))))) :=
    .beta (by simp [contract, subst])
  have second : rules.Reduces (.app (.app product (numeral m)) (numeral n))
      (.lam (.app (numeral m) (.app (numeral n) (bound 1)))) :=
    (first.app .refl).trans (Reduces.beta (by simp [contract, subst]))
  have inner := reduces_numeral rules n (bound 1)
  have joined := (Reduces.app .refl inner).trans (reduces_numeral_multiplied rules m n)
  exact second.trans (Reduces.lam joined)

/-- The exponent is applied to the base, so the base becomes a function that is applied so often. -/
theorem reduces_exponent_applied (m n : Nat) :
    rules.Reduces (.app (.app exponentiation (numeral m)) (numeral n))
      (.lam (.power (numeral m) (bound 1) n)) := by
  have first : rules.Reduces (.app exponentiation (numeral m))
      (.lam (.app (bound 1) (numeral m))) :=
    .beta (by simp [contract, subst])
  have second : rules.Reduces (.app (.app exponentiation (numeral m)) (numeral n))
      (.app (numeral n) (numeral m)) :=
    (first.app .refl).trans (Reduces.beta (by simp [contract, subst]))
  have applied := reduces_numeral rules n (numeral m)
  rw [shift_numeral] at applied
  exact second.trans applied

/-- A numeral applied over and over multiplies how often its argument is applied. -/
theorem reduces_power_numeral (m n : Nat) :
    rules.Reduces (.power (numeral m) (bound 1) (n + 1))
      (.lam (.power (bound 2) (bound 1) (m ^ (n + 1)))) := by
  induction n with
  | zero =>
    rw [Nat.zero_add, Nat.pow_one]
    exact reduces_numeral rules m (bound 1)
  | succ n ih =>
    have multiplied := reduces_numeral_multiplied rules m (m ^ (n + 1))
    rw [← Nat.pow_succ'] at multiplied
    exact (Reduces.app .refl ih).trans multiplied

theorem reduces_exponentiation (m n : Nat) :
    rules.Reduces (.app (.app exponentiation (numeral m)) (numeral (n + 1)))
      (numeral (m ^ (n + 1))) :=
  (reduces_exponent_applied rules m (n + 1)).trans (reduces_power_numeral rules m n).lam

/-- The exponent zero yields the function that returns its argument, which is no numeral. -/
theorem reduces_exponentiation_zero (m : Nat) :
    rules.Reduces (.app (.app exponentiation (numeral m)) (numeral 0)) (.lam (bound 1)) :=
  reduces_exponent_applied rules m 0

/-- Each delay of a function puts off one application of `f`, and the first one puts off none. -/
theorem reduces_delay (n : Nat) :
    rules.Reduces (.power delay (.lam (bound 2)) (n + 1))
      (.lam (.app (bound 1) (.power (bound 3) (bound 2) n))) := by
  induction n with
  | zero =>
    have start : rules.Reduces (.app delay (.lam (bound 2)))
        (.lam (.app (bound 1) (.app (.lam (bound 3)) (bound 3)))) :=
      .beta (by simp [contract, subst, shift])
    have dropped : rules.Reduces (.app (.lam (bound 3)) (bound 3)) (bound 2) :=
      .beta (by simp [contract, subst])
    exact start.trans (Reduces.app .refl dropped).lam
  | succ n ih =>
    have start : rules.Reduces
        (.app delay (.lam (.app (bound 1) (.power (bound 3) (bound 2) n))))
        (.lam (.app (bound 1)
          (.app (.lam (.app (bound 1) (.power (bound 4) (bound 3) n))) (bound 3)))) :=
      .beta (by simp [contract, subst, shift])
    have applied : rules.Reduces
        (.app (.lam (.app (bound 1) (.power (bound 4) (bound 3) n))) (bound 3))
        (.power (bound 3) (bound 2) (n + 1)) :=
      .beta (by simp [contract, subst, Nameless.power])
    exact (Reduces.app .refl ih).trans (start.trans (Reduces.app .refl applied).lam)

theorem reduces_predecessor (n : Nat) :
    rules.Reduces (.app predecessor (numeral n)) (numeral (n - 1)) := by
  have start : rules.Reduces (.app predecessor (numeral n)) (.lam (.lam
      (.app (.app (.app (numeral n) delay) (.lam (bound 2))) (.lam (bound 1))))) :=
    .beta (by simp [contract, subst, delay])
  have counted := reduces_numeral_arg rules n delay (.lam (bound 2))
  have ended : rules.Reduces (.app (.power delay (.lam (bound 2)) n) (.lam (bound 1)))
      (.power (bound 2) (bound 1) (n - 1)) := by
    cases n with
    | zero => exact .beta (by simp [contract, subst, Nameless.power])
    | succ n =>
      have released : rules.Reduces
          (.app (.lam (.app (bound 1) (.power (bound 3) (bound 2) n))) (.lam (bound 1)))
          (.app (.lam (bound 1)) (.power (bound 2) (bound 1) n)) :=
        .beta (by simp [contract, subst])
      have kept : rules.Reduces (.app (.lam (bound 1)) (.power (bound 2) (bound 1) n))
          (.power (bound 2) (bound 1) n) :=
        .beta (by simp [contract, subst])
      exact ((reduces_delay rules n).app .refl).trans (released.trans kept)
  have inner : rules.Reduces
      (.app (.app (.app (numeral n) delay) (.lam (bound 2))) (.lam (bound 1)))
      (.power (bound 2) (bound 1) (n - 1)) :=
    (counted.app .refl).trans ended
  exact start.trans inner.lam.lam

/-- The test yields its first name for zero and its second one for any other number. -/
theorem reduces_zeroTest (yes no : String) (n : Nat) :
    rules.Reduces (.app (zeroTest yes no) (numeral n)) (.free (if n = 0 then yes else no)) := by
  have start : rules.Reduces (.app (zeroTest yes no) (numeral n))
      (.app (.app (numeral n) (.lam (.free no))) (.free yes)) :=
    .beta (by simp [contract, subst])
  have counted := reduces_numeral_arg rules n (.lam (.free no)) (.free yes)
  have ended : rules.Reduces (.power (.lam (.free no)) (.free yes) n)
      (.free (if n = 0 then yes else no)) := by
    cases n with
    | zero => exact .refl
    | succ n => exact .beta rfl
  exact start.trans (counted.trans ended)

end Arithmetic

end Rules

end LambdaWorkbench.Nameless
