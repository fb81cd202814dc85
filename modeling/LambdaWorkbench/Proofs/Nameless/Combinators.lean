import LambdaWorkbench.Proofs.Nameless.Standardization

/-! # Combinators

A combinator with enough arguments becomes what its equation says by weak head steps alone: every
step contracts at the end of the left spine, so the arguments are put where they belong just as
they are, whatever redexes they have. The lambdas of a combinator are applied one after the other,
and an argument that is inside already passes the later substitutions unchanged.
-/

namespace LambdaWorkbench.Nameless

/-- An argument that two lambdas have been put around passes the substitution for the outer one. -/
theorem subst_shift_shift (t arg : Nameless) :
    ((t.shift 0).shift 0).subst 1 arg = t.shift 0 := by
  rw [shift_shift t (Nat.le_refl 0), subst_shift]

/-- `λx.x` -/
def identity : Nameless :=
  lam (bound 1)

/-- `λx.λy.x`, which is `TRUE` as well. -/
def keepFirst : Nameless :=
  lam (lam (bound 2))

/-- `λt.λf.f` -/
def keepSecond : Nameless :=
  lam (lam (bound 1))

/-- `λx.λy.λz.x z (y z)` -/
def distributor : Nameless :=
  lam (lam (lam (app (app (bound 3) (bound 1)) (app (bound 2) (bound 1)))))

/-- `λf.λg.λx.f (g x)` -/
def compositor : Nameless :=
  lam (lam (lam (app (bound 3) (app (bound 2) (bound 1)))))

/-- `λf.λx.λy.f y x` -/
def exchanger : Nameless :=
  lam (lam (lam (app (app (bound 3) (bound 1)) (bound 2))))

/-- `λx.λy.λf.f x y` -/
def pairing : Nameless :=
  lam (lam (lam (app (app (bound 1) (bound 3)) (bound 2))))

/-- `λp.p name` -/
def selector (name : String) : Nameless :=
  lam (app (bound 1) (free name))

namespace Rules

variable {rules : Rules} {a b c body result : Nameless}

/-! ## Lambdas with all their arguments -/

theorem WeakHeads.apply (h : body.subst 0 a = result) :
    rules.WeakHeads (app (lam body) a) result :=
  .single (h ▸ .beta body a)

theorem WeakHeads.apply₂ (h : (body.subst 1 (a.shift 0)).subst 0 b = result) :
    rules.WeakHeads (app (app (lam (lam body)) a) b) result :=
  (WeakHeads.func (WeakHeads.apply rfl) b).trans (WeakHeads.apply h)

theorem WeakHeads.apply₃
    (h : ((body.subst 2 ((a.shift 0).shift 0)).subst 1 (b.shift 0)).subst 0 c = result) :
    rules.WeakHeads (app (app (app (lam (lam (lam body))) a) b) c) result :=
  (WeakHeads.func (WeakHeads.apply₂ rfl) c).trans (WeakHeads.apply h)

/-! ## The equations -/

section Equations

variable (rules : Rules) (a b c : Nameless)

theorem weakHeads_identity : rules.WeakHeads (app identity a) a :=
  .apply rfl

theorem weakHeads_keepFirst : rules.WeakHeads (app (app keepFirst a) b) a :=
  .apply₂ (by simp [subst, subst_shift])

theorem weakHeads_keepSecond : rules.WeakHeads (app (app keepSecond a) b) b :=
  .apply₂ rfl

theorem weakHeads_distributor :
    rules.WeakHeads (app (app (app distributor a) b) c) (app (app a c) (app b c)) :=
  .apply₃ (by simp [subst, subst_shift, subst_shift_shift])

theorem weakHeads_compositor :
    rules.WeakHeads (app (app (app compositor a) b) c) (app a (app b c)) :=
  .apply₃ (by simp [subst, subst_shift, subst_shift_shift])

theorem weakHeads_exchanger :
    rules.WeakHeads (app (app (app exchanger a) b) c) (app (app a c) b) :=
  .apply₃ (by simp [subst, subst_shift, subst_shift_shift])

theorem weakHeads_pairing :
    rules.WeakHeads (app (app (app pairing a) b) c) (app (app c a) b) :=
  .apply₃ (by simp [subst, subst_shift, subst_shift_shift])

end Equations

/-- A selector picks what the function called `part` picks of the two terms of a pair. -/
theorem weakHeads_selector {pairName part : String} {picks : Nameless}
    (pair : rules.unfold pairName = some pairing) (picker : rules.unfold part = some picks)
    (picked : rules.WeakHeads (app (app picks a) b) result) :
    rules.WeakHeads (app (selector part) (app (app (free pairName) a) b)) result := by
  -- the pair comes to the end of the spine, and then `part`, which the pair puts there
  have selected : rules.WeakHeads (app (selector part) (app (app (free pairName) a) b))
      (app (app (app (free pairName) a) b) (free part)) :=
    .apply rfl
  have paired : rules.WeakHeads (app (app (app (free pairName) a) b) (free part))
      (app (app (app pairing a) b) (free part)) :=
    .single (.func _ (.func b (.func a (.unfold pair))))
  have named : rules.WeakHeads (app (app (free part) a) b) (app (app picks a) b) :=
    .single (.func b (.func a (.unfold picker)))
  exact selected.trans <| paired.trans <| (weakHeads_pairing rules a b (free part)).trans <|
    named.trans picked

end Rules

end LambdaWorkbench.Nameless
