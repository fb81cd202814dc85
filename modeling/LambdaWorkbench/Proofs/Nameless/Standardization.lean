import LambdaWorkbench.Proofs.Nameless.Reduction

/-! # Standard reductions and normal order

A weak head step contracts at the end of the left spine: it never goes under a lambda or into an
argument. In a standard reduction the weak head steps come first, and then the parts of the result
are reduced in the same manner. Every reduction can be made standard, and a standard reduction to
a normal term is a reduction in normal order, the one that always contracts the first redex.
-/

namespace LambdaWorkbench.Nameless.Rules

/-- One contraction at the end of the left spine. -/
inductive WeakHead (rules : Rules) : Nameless → Nameless → Prop
  | beta (body arg : Nameless) : WeakHead rules (app (lam body) arg) (body.contract arg)
  | unfold {name : String} {body : Nameless} :
      rules.unfold name = some body → WeakHead rules (free name) body
  | func {func func' : Nameless} (arg : Nameless) :
      WeakHead rules func func' → WeakHead rules (app func arg) (app func' arg)

/-- Any number of weak head steps. -/
abbrev WeakHeads (rules : Rules) : Nameless → Nameless → Prop :=
  Relation.ReflTransGen rules.WeakHead

/-- Weak head steps to a term of the shape of the result, then its parts. -/
inductive Standard (rules : Rules) : Nameless → Nameless → Prop
  | bound {t : Nameless} {distance : Nat} :
      rules.WeakHeads t (bound distance) → Standard rules t (bound distance)
  | free {t : Nameless} {name : String} :
      rules.WeakHeads t (free name) → Standard rules t (free name)
  | lam {t body body' : Nameless} : rules.WeakHeads t (.lam body) →
      Standard rules body body' → Standard rules t (lam body')
  | app {t func func' arg arg' : Nameless} : rules.WeakHeads t (.app func arg) →
      Standard rules func func' → Standard rules arg arg' → Standard rules t (app func' arg')

variable {rules : Rules}

theorem WeakHeads.func {func func' : Nameless} (h : rules.WeakHeads func func')
    (arg : Nameless) : rules.WeakHeads (app func arg) (app func' arg) :=
  h.lift (app · arg) fun _ _ => WeakHead.func arg

theorem Standard.refl (t : Nameless) : rules.Standard t t := by
  induction t with
  | bound distance => exact .bound .refl
  | free name => exact .free .refl
  | lam body ih => exact .lam .refl ih
  | app func arg ihf iha => exact .app .refl ihf iha

theorem Standard.of_weakHeads {t u v : Nameless} (heads : rules.WeakHeads t u)
    (h : rules.Standard u v) : rules.Standard t v := by
  cases h with
  | bound rest => exact .bound (heads.trans rest)
  | free rest => exact .free (heads.trans rest)
  | lam rest hb => exact .lam (heads.trans rest) hb
  | app rest hf ha => exact .app (heads.trans rest) hf ha

/-! ## Shifts and substitutions keep reductions standard -/

theorem WeakHead.shift {t u : Nameless} (h : rules.WeakHead t u) (k : Nat) :
    rules.WeakHead (t.shift k) (u.shift k) := by
  induction h with
  | beta body arg =>
    rw [contract, shift_subst _ _ (Nat.zero_le k)]
    exact .beta _ _
  | unfold h =>
    rw [((rules.closed h).mono (Nat.zero_le k)).shift_eq]
    exact .unfold h
  | func arg _ ih => exact .func _ ih

theorem WeakHead.subst {t u : Nameless} (h : rules.WeakHead t u) (k : Nat) (v : Nameless) :
    rules.WeakHead (t.subst k v) (u.subst k v) := by
  induction h with
  | beta body arg =>
    rw [contract, subst_subst _ _ _ (Nat.zero_le k)]
    exact .beta _ _
  | unfold h =>
    rw [((rules.closed h).mono (Nat.zero_le k)).subst_eq]
    exact .unfold h
  | func arg _ ih => exact .func _ ih

theorem WeakHeads.shift {t u : Nameless} (h : rules.WeakHeads t u) (k : Nat) :
    rules.WeakHeads (t.shift k) (u.shift k) :=
  h.lift (Nameless.shift k) fun _ _ step => step.shift k

theorem WeakHeads.subst {t u : Nameless} (h : rules.WeakHeads t u) (k : Nat) (v : Nameless) :
    rules.WeakHeads (t.subst k v) (u.subst k v) :=
  h.lift (Nameless.subst · k v) fun _ _ step => step.subst k v

theorem Standard.shift {t u : Nameless} (h : rules.Standard t u) (k : Nat) :
    rules.Standard (t.shift k) (u.shift k) := by
  induction h generalizing k with
  | bound heads => exact .of_weakHeads (heads.shift k) (.refl _)
  | free heads => exact .of_weakHeads (heads.shift k) (.refl _)
  | lam heads _ ih => exact .lam (heads.shift k) (ih (k + 1))
  | app heads _ _ ihf iha => exact .app (heads.shift k) (ihf k) (iha k)

theorem Standard.subst {t u v w : Nameless} (h : rules.Standard t u) (hv : rules.Standard v w)
    (k : Nat) : rules.Standard (t.subst k v) (u.subst k w) := by
  induction h generalizing v w k with
  | bound heads =>
    refine .of_weakHeads (heads.subst k v) ?_
    unfold Nameless.subst
    split
    · exact .refl _
    · split
      · exact hv
      · exact .refl _
  | free heads => exact .of_weakHeads (heads.subst k v) (.refl _)
  | lam heads _ ih => exact .lam (heads.subst k v) (ih (hv.shift 0) (k + 1))
  | app heads _ _ ihf iha => exact .app (heads.subst k v) (ihf hv k) (iha hv k)

/-! ## Every reduction can be made standard -/

/-- A contraction of the result moves to its place in a standard reduction. -/
theorem Standard.tail {t u v : Nameless} (h : rules.Standard t u) (step : rules.Contracts u v) :
    rules.Standard t v := by
  induction step generalizing t with
  | beta body' arg' =>
    -- the function of the application becomes a lambda by weak head steps alone
    cases h with
    | app heads hf ha =>
      cases hf with
      | lam inner hb =>
        have toRedex := heads.trans (WeakHeads.func inner _)
        exact .of_weakHeads (toRedex.tail (.beta _ _)) (hb.subst ha 0)
  | unfold eq =>
    cases h with
    | free heads => exact .of_weakHeads (heads.tail (.unfold eq)) (.refl _)
  | lam _ ih =>
    cases h with
    | lam heads hb => exact .lam heads (ih hb)
  | func arg _ ih =>
    cases h with
    | app heads hf ha => exact .app heads (ih hf) ha
  | arg func _ ih =>
    cases h with
    | app heads hf ha => exact .app heads hf (ih ha)

theorem Reduces.standard {t u : Nameless} (h : rules.Reduces t u) : rules.Standard t u := by
  induction h with
  | refl => exact .refl _
  | tail _ step ih => exact ih.tail step

/-! ## Normal order -/

/-- Contracts the first redex of a term. -/
def normalStep (rules : Rules) (t : Nameless) : Option Nameless :=
  (rules.redexes t).head?.bind (rules.stepAt t)

/-- Any number of steps in normal order. -/
abbrev NormalSteps (rules : Rules) : Nameless → Nameless → Prop :=
  Relation.ReflTransGen fun t u => rules.normalStep t = some u

theorem normalStep_of_contractum {t u : Nameless} (h : rules.contractum t = some u) :
    rules.normalStep t = some u := by
  cases t <;> simp [normalStep, redexes, h, Address.root]

theorem normalStep_lam (body : Nameless) :
    rules.normalStep (lam body) = (rules.normalStep body).map lam := by
  cases h : rules.redexes body <;> simp [normalStep, redexes, contractum, h]

/-- In an application that is no redex itself, the function comes before the argument. -/
theorem normalStep_app {func : Nameless} (notLam : ∀ body, func ≠ lam body) (arg : Nameless) :
    rules.normalStep (app func arg) =
      ((rules.normalStep func).map (app · arg)).or ((rules.normalStep arg).map (app func)) := by
  have inert : rules.contractum (app func arg) = none := by
    cases func with
    | lam body => exact absurd rfl (notLam body)
    | bound distance | free name | app first second => rfl
  cases hf : rules.redexes func with
  | nil =>
    cases ha : rules.redexes arg <;> simp [normalStep, redexes, inert, hf, ha]
  | cons first rest =>
    have isRedex : (rules.stepAt func first).isSome := mem_redexes.mp (by simp [hf])
    obtain ⟨func', step⟩ := Option.isSome_iff_exists.mp isRedex
    simp [normalStep, redexes, inert, hf, step]

theorem WeakHead.ne_lam {t u : Nameless} (h : rules.WeakHead t u) (body : Nameless) :
    t ≠ lam body := by
  cases h <;> exact Nameless.noConfusion

/-- A weak head step contracts the first redex. -/
theorem WeakHead.normalStep_eq {t u : Nameless} (h : rules.WeakHead t u) :
    rules.normalStep t = some u := by
  induction h with
  | beta body arg => exact normalStep_of_contractum rfl
  | unfold h => exact normalStep_of_contractum h
  | func arg step ih =>
    rw [normalStep_app step.ne_lam, ih]
    rfl

theorem Contracts.of_normalStep {t u : Nameless} (h : rules.normalStep t = some u) :
    rules.Contracts t u := by
  obtain ⟨address, -, step⟩ := Option.bind_eq_some_iff.mp h
  exact .of_stepAt step

theorem Normal.normalStep_eq {t : Nameless} (h : rules.Normal t) : rules.normalStep t = none := by
  rw [normalStep, redexes_eq_nil_iff.mpr h]
  rfl

theorem WeakHeads.normalSteps {t u : Nameless} (h : rules.WeakHeads t u) :
    rules.NormalSteps t u :=
  h.lift id fun _ _ step => step.normalStep_eq

theorem NormalSteps.reduces {t u : Nameless} (h : rules.NormalSteps t u) : rules.Reduces t u :=
  h.lift id fun _ _ step => Contracts.of_normalStep step

theorem NormalSteps.lam {body body' : Nameless} (h : rules.NormalSteps body body') :
    rules.NormalSteps (.lam body) (.lam body') :=
  h.lift Nameless.lam fun first second step => by
    show rules.normalStep (.lam first) = some (.lam second)
    rw [normalStep_lam, step]
    rfl

/-- A lambda only reduces to lambdas. -/
theorem Reduces.of_lam {body u : Nameless} (h : rules.Reduces (.lam body) u) :
    ∃ body', u = .lam body' := by
  induction h with
  | refl => exact ⟨body, rfl⟩
  | tail _ step ih =>
    obtain ⟨body', rfl⟩ := ih
    cases step with
    | lam _ => exact ⟨_, rfl⟩

/-- As long as the function ends as no lambda, it was never applied on the way. -/
theorem NormalSteps.func {func func' : Nameless} (h : rules.NormalSteps func func')
    (notLam : ∀ body, func' ≠ .lam body) (arg : Nameless) :
    rules.NormalSteps (.app func arg) (.app func' arg) := by
  induction h using Relation.ReflTransGen.head_induction_on with
  | refl => exact .refl
  | @head first second step rest ih =>
    refine .head ?_ ih
    have firstNotLam : ∀ body, first ≠ .lam body := by
      rintro body rfl
      have whole : rules.Reduces (.lam body) func' :=
        .head (.of_normalStep step) (NormalSteps.reduces rest)
      obtain ⟨body', eq⟩ := whole.of_lam
      exact notLam body' eq
    rw [normalStep_app firstNotLam, step]
    rfl

theorem NormalSteps.arg {func arg arg' : Nameless} (h : rules.NormalSteps arg arg')
    (notLam : ∀ body, func ≠ .lam body) (normal : rules.Normal func) :
    rules.NormalSteps (.app func arg) (.app func arg') :=
  h.lift (Nameless.app func) fun first second step => by
    show rules.normalStep (.app func first) = some (.app func second)
    rw [normalStep_app notLam, normal.normalStep_eq, step]
    rfl

/-- A standard reduction to a normal term is in normal order. -/
theorem Standard.normalSteps {t n : Nameless} (h : rules.Standard t n) (normal : rules.Normal n) :
    rules.NormalSteps t n := by
  induction h with
  | bound heads => exact heads.normalSteps
  | free heads => exact heads.normalSteps
  | lam heads _ ih => exact heads.normalSteps.trans (ih normal.of_lam).lam
  | @app _ func func' arg arg' heads _ _ ihf iha =>
    have notLam : ∀ body, func' ≠ .lam body := by
      rintro body rfl
      exact normal _ (.beta body arg')
    calc
      rules.NormalSteps _ (.app func arg) := heads.normalSteps
      rules.NormalSteps _ (.app func' arg) := (ihf normal.of_func).func notLam arg
      rules.NormalSteps _ (.app func' arg') := (iha normal.of_arg).arg notLam normal.of_func

/-- **Normal order is normalizing.** It finds the normal term that any reduction finds. -/
theorem Reduces.normalSteps {t n : Nameless} (h : rules.Reduces t n) (normal : rules.Normal n) :
    rules.NormalSteps t n :=
  h.standard.normalSteps normal

end LambdaWorkbench.Nameless.Rules
