import LambdaWorkbench.Proofs.Redex.Agreement
import LambdaWorkbench.Proofs.Redex.Selection
import LambdaWorkbench.Proofs.Redex.Simulation

/-! # Runs, one step at a time

A run ends only at a normal form, as what a policy picks can be reduced. A bounded run is its first
step followed by a bounded run from there, and a run may be broken off and taken up again.
-/

namespace LambdaWorkbench.Environment

variable {env : Environment} {policy : Policy} {t u : Term}

/-- What a policy picks can be reduced. -/
theorem advance_of_select {address : Address} (h : policy.select (env.redexes t) = some address) :
    ∃ u, env.reduceAt t address = .ok (some u) ∧ env.advance policy t = some u := by
  obtain ⟨u, eq⟩ := mem_redexes_iff.mp (Policy.mem_of_select h)
  exact ⟨u, eq, by simp only [advance, h, eq]⟩

theorem advance_eq_none_iff : env.advance policy t = none ↔ env.redexes t = [] := by
  have unpicked : policy.select (env.redexes t) = none ↔ env.redexes t = [] :=
    Policy.select_eq_none_iff
  rw [← unpicked]
  cases picked : policy.select (env.redexes t) with
  | none => simp only [advance, picked]
  | some address =>
    obtain ⟨u, -, advanced⟩ := advance_of_select picked
    rw [advanced]
    exact iff_of_false (Option.some_ne_none u) (Option.some_ne_none address)

/-! ## The first step -/

theorem normalize_zero (env : Environment) (policy : Policy) (t : Term) :
    env.normalize policy 0 t = ⟨[], (env.redexes t).isEmpty⟩ :=
  rfl

theorem normalize_of_advance_none (h : env.advance policy t = none) (count : Nat) :
    env.normalize policy count t = ⟨[], true⟩ := by
  have normal := List.isEmpty_iff.mpr (advance_eq_none_iff.mp h)
  cases count with
  | zero => rw [normalize_zero, normal]
  | succ count => simp only [normalize, take_start_succ, h, List.getLast?_nil, Option.getD_none,
      normal]

theorem normalize_of_advance_some (h : env.advance policy t = some u) (count : Nat) :
    env.normalize policy (count + 1) t =
      ⟨u :: (env.normalize policy count u).steps, (env.normalize policy count u).isNormal⟩ := by
  simp only [normalize, take_start_succ, h, List.getLast?_cons, Option.getD_some]

theorem last_of_advance_none (h : env.advance policy t = none) (count : Nat) :
    (env.normalize policy count t).last t = t := by
  rw [normalize_of_advance_none h]
  rfl

theorem last_of_advance_some (h : env.advance policy t = some u) (count : Nat) :
    (env.normalize policy (count + 1) t).last t = (env.normalize policy count u).last u := by
  rw [normalize_of_advance_some h, Normalized.last, List.getLast?_cons]
  rfl

/-- A run that is not over has made all its steps. -/
theorem length_steps {count : Nat} (h : (env.normalize policy count t).isNormal = false) :
    (env.normalize policy count t).steps.length = count := by
  induction count generalizing t with
  | zero => rfl
  | succ count ih =>
    cases step : env.advance policy t with
    | none =>
      rw [normalize_of_advance_none step] at h
      cases h
    | some u =>
      rw [normalize_of_advance_some step] at h ⊢
      rw [List.length_cons, ih h]

/-! ## Breaking off -/

/-- A run that is broken off and taken up where it was goes through the same terms. -/
theorem steps_add (env : Environment) (policy : Policy) (first second : Nat) (t : Term) :
    (env.normalize policy (first + second) t).steps =
      (env.normalize policy first t).steps ++
        (env.normalize policy second ((env.normalize policy first t).last t)).steps := by
  induction first generalizing t with
  | zero =>
    rw [Nat.zero_add]
    rfl
  | succ first ih =>
    cases step : env.advance policy t with
    | none =>
      rw [last_of_advance_none step]
      simp only [normalize_of_advance_none step, List.nil_append]
    | some u =>
      rw [last_of_advance_some step, Nat.add_right_comm, normalize_of_advance_some step,
        normalize_of_advance_some step, ih u]
      rfl

end LambdaWorkbench.Environment
