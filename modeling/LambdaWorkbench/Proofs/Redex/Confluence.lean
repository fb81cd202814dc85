import LambdaWorkbench.Proofs.Nameless.Confluence
import LambdaWorkbench.Proofs.Redex.Simulation
import Mathlib.Control.Monad.Basic

/-! # Confluence of reduction

Whatever order redexes are reduced in, two reductions of one term can be continued to terms that
are equal up to the names of parameters. The definitions may be recursive and the term need not
have a normal form. A normal form is therefore unique, and no policy can miss it for another one.
-/

namespace LambdaWorkbench.Environment

variable {env : Environment} {t u v : Term}

theorem Reaches.meet (hu : env.Reaches t u) (hv : env.Reaches t v) :
    ∃ w₁ w₂, env.Reaches u w₁ ∧ env.Reaches v w₂ ∧ w₁.alphaEq w₂ = true := by
  obtain ⟨s, hus, hvs⟩ := hu.reduces.meet hv.reduces
  obtain ⟨w₁, reaches₁, same₁⟩ := Reaches.of_reduces hus
  obtain ⟨w₂, reaches₂, same₂⟩ := Reaches.of_reduces hvs
  exact ⟨w₁, w₂, reaches₁, reaches₂, Term.alphaEq_iff_nameless.mpr (same₁.trans same₂.symm)⟩

theorem Reaches.alphaEq_of_normal (hu : env.Reaches t u) (hv : env.Reaches t v)
    (normal : env.redexes u = []) (normal' : env.redexes v = []) : u.alphaEq v = true := by
  rw [redexes_eq_nil_iff] at normal normal'
  exact Term.alphaEq_iff_nameless.mpr (normal.unique normal' hu.reduces hv.reduces)

/-- **Reduction is confluent.** Two reductions of a term can be continued to a common term, its
normal forms are all the same, and so are those that runs under two policies end at. -/
theorem reduction_confluent (env : Environment) (t : Term) :
    (∀ u v, env.Reaches t u → env.Reaches t v →
      ∃ w₁ w₂, env.Reaches u w₁ ∧ env.Reaches v w₂ ∧ w₁.alphaEq w₂ = true) ∧
    (∀ u v, env.Reaches t u → env.Reaches t v → env.redexes u = [] → env.redexes v = [] →
      u.alphaEq v = true) ∧
    ∀ policy policy' count count', (env.normalize policy count t).isNormal = true →
      (env.normalize policy' count' t).isNormal = true →
      ((env.normalize policy count t).last t).alphaEq
        ((env.normalize policy' count' t).last t) = true := by
  refine ⟨fun u v hu hv => hu.meet hv, fun u v hu hv => hu.alphaEq_of_normal hv, ?_⟩
  intro policy policy' count count' ended ended'
  exact (reaches_last env policy count t).alphaEq_of_normal (reaches_last env policy' count' t)
    (isNormal_iff.mp ended) (isNormal_iff.mp ended')

/-- The argument `(λy.y) z` is copied before it is reduced, or reduced before it is copied. -/
theorem reduction_confluent_copied :
    let t : Term := .app (.lam "x" (.app (.var "x" 1) (.var "x" 1)))
      (.app (.lam "y" (.var "y" 1)) (.free "z"))
    ∃ u v w₁ w₂, empty.reduceAt t [] = .ok (some u) ∧ empty.reduceAt t [.arg] = .ok (some v) ∧
      u.alphaEq v = false ∧ empty.Reaches u w₁ ∧ empty.Reaches v w₂ ∧ w₁.alphaEq w₂ = true ∧
      (empty.normalize .normalOrder 5 t).isNormal = true ∧
      (empty.normalize .applicativeOrder 5 t).isNormal = true ∧
      ((empty.normalize .normalOrder 5 t).last t).alphaEq
        ((empty.normalize .applicativeOrder 5 t).last t) = true := by
  intro t
  have copied : empty.reduceAt t [] = .ok (some (.app (.app (.lam "y" (.var "y" 1)) (.free "z"))
      (.app (.lam "y" (.var "y" 1)) (.free "z")))) := by decide +kernel
  have reduced : empty.reduceAt t [.arg] =
      .ok (some (.app (.lam "x" (.app (.var "x" 1) (.var "x" 1))) (.free "z"))) := by decide +kernel
  have normalEnds : (empty.normalize .normalOrder 5 t).isNormal = true := by decide +kernel
  have applicativeEnds : (empty.normalize .applicativeOrder 5 t).isNormal = true := by
    decide +kernel
  obtain ⟨meet, -, agree⟩ := reduction_confluent empty t
  obtain ⟨w₁, w₂, left, right, same⟩ := meet _ _ (.single ⟨_, copied⟩) (.single ⟨_, reduced⟩)
  exact ⟨_, _, w₁, w₂, copied, reduced, rfl, left, right, same, normalEnds, applicativeEnds,
    agree _ _ 5 5 normalEnds applicativeEnds⟩

end LambdaWorkbench.Environment
