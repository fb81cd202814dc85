import Mathlib.Tactic.SplitIfs
import LambdaWorkbench.Term.Nameless

/-! # Substitution in nameless terms

Distances count from one, so the variable bound by the innermost of `place + 1` lambdas outside a
term has distance `place + 1` there. `shift` makes room for one more lambda, `subst` takes one
away, and `contract` is the contraction of an applied lambda. The five laws below are all that the
theory of reduction needs about distances.
-/

namespace LambdaWorkbench.Nameless

/-- The term under one more lambda, put outside the `cutoff` innermost ones. -/
def shift (cutoff : Nat) : Nameless → Nameless
  | bound distance => bound (if distance ≤ cutoff then distance else distance + 1)
  | free name => free name
  | lam body => lam (body.shift (cutoff + 1))
  | app func arg => app (func.shift cutoff) (arg.shift cutoff)

/-- Puts a term for the variable of the lambda outside the `place` innermost ones, which goes. -/
def subst : Nameless → Nat → Nameless → Nameless
  | bound distance, place, arg =>
    if distance ≤ place then bound distance
    else if distance = place + 1 then arg else bound (distance - 1)
  | free name, _, _ => free name
  | lam body, place, arg => lam (body.subst (place + 1) (arg.shift 0))
  | app func right, place, arg => app (func.subst place arg) (right.subst place arg)

/-- What the lambda with this body yields for an argument. -/
def contract (body arg : Nameless) : Nameless :=
  body.subst 0 arg

theorem shift_shift (t : Nameless) {i k : Nat} (h : i ≤ k) :
    (t.shift k).shift i = (t.shift i).shift (k + 1) := by
  induction t generalizing i k with
  | bound distance =>
    simp only [shift, bound.injEq]
    split_ifs <;> omega
  | free name => rfl
  | lam body ih => simp only [shift, ih (Nat.succ_le_succ h)]
  | app func arg ihf iha => simp only [shift, ihf h, iha h]

theorem subst_shift (t arg : Nameless) (k : Nat) : (t.shift k).subst k arg = t := by
  induction t generalizing arg k with
  | bound distance =>
    simp only [shift]
    split_ifs with h
    · simp only [subst, if_pos h]
    · simp only [subst]
      rw [if_neg (by omega), if_neg (by omega), Nat.add_sub_cancel]
  | free name => rfl
  | lam body ih => simp only [shift, subst, ih]
  | app func right ihf iha => simp only [shift, subst, ihf, iha]

/-- A shift outside the place of a substitution. -/
theorem shift_subst (t arg : Nameless) {i j : Nat} (h : j ≤ i) :
    (t.subst j arg).shift i = (t.shift (i + 1)).subst j (arg.shift i) := by
  induction t generalizing arg i j with
  | bound distance =>
    grind [shift, subst]
  | free name => rfl
  | lam body ih =>
    simp only [shift, subst]
    rw [ih _ (Nat.succ_le_succ h), shift_shift arg (Nat.zero_le i)]
  | app func right ihf iha => simp only [shift, subst, ihf _ h, iha _ h]

/-- A shift inside the place of a substitution. -/
theorem shift_subst_inside (t arg : Nameless) {i j : Nat} (h : i ≤ j) :
    (t.subst j arg).shift i = (t.shift i).subst (j + 1) (arg.shift i) := by
  induction t generalizing arg i j with
  | bound distance =>
    grind [shift, subst]
  | free name => rfl
  | lam body ih =>
    simp only [shift, subst]
    rw [ih _ (Nat.succ_le_succ h), shift_shift arg (Nat.zero_le i)]
  | app func right ihf iha => simp only [shift, subst, ihf _ h, iha _ h]

/-- Two substitutions change places. -/
theorem subst_subst (t u v : Nameless) {i j : Nat} (h : i ≤ j) :
    (t.subst i u).subst j v = (t.subst (j + 1) (v.shift i)).subst i (u.subst j v) := by
  induction t generalizing u v i j with
  | bound distance =>
    grind [subst, subst_shift]
  | free name => rfl
  | lam body ih =>
    simp only [subst]
    rw [ih _ _ (Nat.succ_le_succ h), shift_shift v (Nat.zero_le i),
      shift_subst_inside u v (Nat.zero_le j)]
  | app func right ihf iha => simp only [subst, ihf _ _ h, iha _ _ h]

/-- Every bound variable is bound in the term itself or by one of `depth` lambdas around it. -/
def ClosedUnder (depth : Nat) : Nameless → Prop
  | bound distance => distance ≤ depth
  | free _ => True
  | lam body => body.ClosedUnder (depth + 1)
  | app func arg => func.ClosedUnder depth ∧ arg.ClosedUnder depth

theorem ClosedUnder.shift_eq {t : Nameless} {k : Nat} (h : t.ClosedUnder k) : t.shift k = t := by
  induction t generalizing k with
  | bound distance => simp only [shift, if_pos (show distance ≤ k from h)]
  | free name => rfl
  | lam body ih => simp only [shift, ih h]
  | app func arg ihf iha => simp only [shift, ihf h.1, iha h.2]

theorem ClosedUnder.subst_eq {t : Nameless} {k : Nat} (h : t.ClosedUnder k) (arg : Nameless) :
    t.subst k arg = t := by
  have cancelled := subst_shift t arg k
  rwa [h.shift_eq] at cancelled

theorem ClosedUnder.mono {t : Nameless} {k k' : Nat} (h : t.ClosedUnder k) (le : k ≤ k') :
    t.ClosedUnder k' := by
  induction t generalizing k k' with
  | bound distance => exact Nat.le_trans h le
  | free name => trivial
  | lam body ih => exact ih h (Nat.succ_le_succ le)
  | app func arg ihf iha => exact ⟨ihf h.1 le, iha h.2 le⟩

end LambdaWorkbench.Nameless
