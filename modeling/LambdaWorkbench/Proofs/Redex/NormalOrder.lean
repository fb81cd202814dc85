import LambdaWorkbench.Proofs.Nameless.Standardization
import LambdaWorkbench.Proofs.Redex.Listing
import LambdaWorkbench.Proofs.Redex.Runs
import Mathlib.Control.Monad.Basic

/-! # Normal order

A run in normal order always reduces the first redex of the list. Its steps read as the normal
steps of the reading, so standardization makes it end at a normal form whenever there is one.
-/

namespace LambdaWorkbench.Environment

variable {env : Environment} {t n : Term}

/-- A step of a run in normal order is a normal step of the reading. -/
theorem advance_normalOrder (env : Environment) (t : Term) :
    (env.advance .normalOrder t).map Term.nameless = env.rules.normalStep t.nameless := by
  have sorted := Nameless.Rules.redexes_pairwise env.rules t.nameless
  rw [advance_nameless, Policy.select_normalOrder sorted, Nameless.Rules.normalStep]

/-- The run follows the normal steps of the reading to their end, and stays there. -/
theorem last_of_normalSteps {s : Nameless} (normal : env.rules.Normal s)
    (h : env.rules.NormalSteps t.nameless s) :
    ∃ bound, ∀ count ≥ bound, ((env.normalize .normalOrder count t).last t).nameless = s := by
  generalize start : t.nameless = first at h
  induction h using Relation.ReflTransGen.head_induction_on generalizing t with
  | refl =>
    have ended : env.advance .normalOrder t = none := by
      rw [← Option.map_eq_none_iff, advance_normalOrder, start, normal.normalStep_eq]
    refine ⟨0, fun count _ => ?_⟩
    rw [last_of_advance_none ended, start]
  | head step _ ih =>
    rw [← start, ← advance_normalOrder] at step
    obtain ⟨u, advanced, reads⟩ := Option.map_eq_some_iff.mp step
    obtain ⟨bound, reached⟩ := ih reads
    refine ⟨bound + 1, fun count enough => ?_⟩
    obtain ⟨fewer, rfl⟩ : ∃ fewer, count = fewer + 1 := ⟨count - 1, by omega⟩
    rw [last_of_advance_some advanced]
    exact reached fewer (by omega)

/-- **Normal order is normalizing.** If reductions in any order lead from `t` to a normal form,
every long enough run in normal order ends at it, up to the names of parameters. -/
theorem normalOrder_normalizing (reaches : env.Reaches t n) (normal : env.redexes n = []) :
    ∃ bound, ∀ count ≥ bound, (env.normalize .normalOrder count t).isNormal = true ∧
      ((env.normalize .normalOrder count t).last t).alphaEq n = true := by
  rw [redexes_eq_nil_iff] at normal
  have leftmost := reaches.reduces.normalSteps normal
  obtain ⟨bound, reached⟩ := last_of_normalSteps normal leftmost
  refine ⟨bound, fun count enough => ?_⟩
  have reads := reached count enough
  exact ⟨isNormal_iff.mpr (redexes_eq_nil_iff.mpr (reads ▸ normal)),
    Term.alphaEq_iff_nameless.mpr reads⟩

/-- The argument reduces to itself for ever. One such step may be made before it is dropped. -/
theorem normalOrder_normalizing_dropped :
    let twice : Term := .lam "x" (.app (.var "x" 1) (.var "x" 1))
    let t : Term := .app (.lam "y" (.free "a")) (.app twice twice)
    empty.Reaches t (.free "a") ∧ empty.redexes (.free "a") = [] ∧
      ∃ bound, ∀ count ≥ bound, (empty.normalize .normalOrder count t).isNormal = true ∧
        ((empty.normalize .normalOrder count t).last t).alphaEq (.free "a") = true := by
  intro twice t
  have loops : empty.reduceAt t [.arg] = .ok (some t) := by decide +kernel
  have drops : empty.reduceAt t [] = .ok (some (.free "a")) := by decide +kernel
  have reaches : empty.Reaches t (.free "a") :=
    .head ⟨_, loops⟩ (.single ⟨_, drops⟩)
  have normal : empty.redexes (.free "a") = [] := by decide +kernel
  exact ⟨reaches, normal, normalOrder_normalizing reaches normal⟩

end LambdaWorkbench.Environment
