import LambdaWorkbench.Proofs.Redex.Runs

/-! # Runs that are taken up again

A run is a chain of reductions, each at the redex that the policy picks. A bound cuts it off without
leaving a trace in it: a run of two lengths is one run of their sum, wherever the cut falls. A run
that has yielded nothing has ended for good, and it only yields nothing where no redex is left.
-/

namespace LambdaWorkbench

variable {env : Environment} {policy : Policy} {t u : Term}

/-! ## Bounded runs -/

namespace Environment

/-- The second term is the first one after the redex that the policy picks. -/
def Follows (env : Environment) (policy : Policy) (t u : Term) : Prop :=
  ∃ address, policy.select (env.redexes t) = some address ∧
    env.reduceAt t address = .ok (some u)

theorem follows_of_advance (h : env.advance policy t = some u) : env.Follows policy t u := by
  cases picked : policy.select (env.redexes t) with
  | none =>
    simp only [advance, picked] at h
    cases h
  | some address =>
    obtain ⟨v, reduced, advanced⟩ := advance_of_select picked
    obtain rfl : v = u := Option.some.inj (advanced.symm.trans h)
    exact ⟨address, picked, reduced⟩

theorem length_steps_le (env : Environment) (policy : Policy) (count : Nat) (t : Term) :
    (env.normalize policy count t).steps.length ≤ count := by
  induction count generalizing t with
  | zero => exact Nat.le_refl 0
  | succ count ih =>
    cases step : env.advance policy t with
    | none =>
      rw [normalize_of_advance_none step]
      exact Nat.zero_le _
    | some u =>
      rw [normalize_of_advance_some step]
      exact Nat.succ_le_succ (ih u)

theorem isChain_steps (env : Environment) (policy : Policy) (count : Nat) (t : Term) :
    (t :: (env.normalize policy count t).steps).IsChain (env.Follows policy) := by
  induction count generalizing t with
  | zero => exact .singleton t
  | succ count ih =>
    cases step : env.advance policy t with
    | none =>
      rw [normalize_of_advance_none step]
      exact .singleton t
    | some u =>
      rw [normalize_of_advance_some step]
      exact .cons_cons (follows_of_advance step) (ih u)

theorem last_add (env : Environment) (policy : Policy) (first second : Nat) (t : Term) :
    (env.normalize policy (first + second) t).last t =
      (env.normalize policy second ((env.normalize policy first t).last t)).last
        ((env.normalize policy first t).last t) := by
  simp only [Normalized.last, steps_add, List.getLast?_append]
  cases (env.normalize policy second _).steps.getLast? <;> rfl

/-- Whether a run has ended is seen from its last term alone. -/
theorem isNormal_add (env : Environment) (policy : Policy) (first second : Nat) (t : Term) :
    (env.normalize policy (first + second) t).isNormal =
      (env.normalize policy second ((env.normalize policy first t).last t)).isNormal :=
  congrArg (fun last => (env.redexes last).isEmpty) (last_add env policy first second t)

end Environment

/-! ## Runs in progress -/

namespace Run

/-- A run after it has been asked for `count` terms. -/
def after : Nat → Run → Run
  | 0, run => run
  | count + 1, run => after count run.next.2

theorem after_add (first second : Nat) (run : Run) :
    run.after (first + second) = (run.after first).after second := by
  induction first generalizing run with
  | zero => rw [Nat.zero_add, after]
  | succ first ih => rw [Nat.add_right_comm, after, after, ih]

/-- A run that has yielded nothing has no term left to go on from. -/
theorem next_after_of_next_eq_none {run : Run} (ended : run.next.1 = none) (count : Nat) :
    (run.after count).next.1 = none := by
  induction count generalizing run with
  | zero => exact ended
  | succ count ih =>
    refine ih ?_
    have idle : run.next.2.current = none := ended
    rw [next, idle, Option.bind_none]

end Run

namespace Environment

/-- **Runs can be taken up again.** A bounded run is followed by a bounded run from its last term as
if there had been no bound between them, and the two end at a normal form when the second does. A
bounded run makes no more steps than its bound, and fewer only if it ends at a normal form; each of
its terms is the one before it after the redex that the policy picks. A run in progress that has
once yielded nothing yields nothing any more, and what a policy picks can always be reduced. -/
theorem run_resumes (env : Environment) (policy : Policy) (t : Term) :
    (∀ first second,
      let cut := env.normalize policy first t
      let rest := env.normalize policy second (cut.last t)
      let whole := env.normalize policy (first + second) t
      whole.steps = cut.steps ++ rest.steps ∧ whole.isNormal = rest.isNormal) ∧
    (∀ count,
      let outcome := env.normalize policy count t
      outcome.steps.length ≤ count ∧
      (outcome.steps.length < count → outcome.isNormal = true) ∧
      (t :: outcome.steps).IsChain (env.Follows policy)) ∧
    (∀ (run : Run) (asked later : Nat), asked ≤ later →
      (run.after asked).next.1 = none → (run.after later).next.1 = none) ∧
    ∀ (u : Term) address, policy.select (env.redexes u) = some address →
      ∃ v, env.reduceAt u address = .ok (some v) ∧ env.advance policy u = some v := by
  refine ⟨?_, ?_, ?_, fun u address => advance_of_select⟩
  · intro first second cut rest whole
    exact ⟨steps_add env policy first second t, isNormal_add env policy first second t⟩
  · intro count outcome
    refine ⟨length_steps_le env policy count t, ?_, isChain_steps env policy count t⟩
    intro fewer
    by_contra running
    have all := length_steps (Bool.eq_false_iff.mpr running)
    exact Nat.ne_of_lt fewer all
  · intro run asked later le ended
    obtain ⟨more, rfl⟩ := Nat.exists_eq_add_of_le le
    rw [Run.after_add]
    exact Run.next_after_of_next_eq_none ended more

/-- The run of `(λx.x) ((λx.x) y)` is over after two steps, whether or not it is cut after the first
one, and the five steps that are allowed after that are not made. -/
theorem run_resumes_identities :
    let identity : Term := .lam "x" (.var "x" 1)
    let t : Term := .app identity (.app identity (.free "y"))
    let u : Term := .app identity (.free "y")
    let run := Run.start empty .applicativeOrder t
    empty.normalize .applicativeOrder 1 t = ⟨[u], false⟩ ∧
      (empty.normalize .applicativeOrder (1 + 6) t).steps =
        [u] ++ (empty.normalize .applicativeOrder 6 u).steps ∧
      (empty.normalize .applicativeOrder (1 + 6) t).isNormal =
        (empty.normalize .applicativeOrder 6 u).isNormal ∧
      (empty.normalize .applicativeOrder 7 t).steps.length < 7 ∧
      (empty.normalize .applicativeOrder 7 t).isNormal = true ∧
      [t, u].IsChain (empty.Follows .applicativeOrder) ∧
      (run.after 2).next.1 = none ∧ (run.after 9).next.1 = none ∧
      Policy.applicativeOrder.select (empty.redexes t) = some [.arg] ∧
      ∃ v, empty.reduceAt t [.arg] = .ok (some v) ∧
        empty.advance .applicativeOrder t = some v := by
  intro identity t u run
  have cut : empty.normalize .applicativeOrder 1 t = ⟨[u], false⟩ := by decide +kernel
  have fewer : (empty.normalize .applicativeOrder 7 t).steps.length < 7 := by decide +kernel
  have ended : (run.after 2).next.1 = none := by decide +kernel
  have picked : Policy.applicativeOrder.select (empty.redexes t) = some [.arg] := by
    decide +kernel
  obtain ⟨resumes, bounded, ends, reduces⟩ := run_resumes empty .applicativeOrder t
  obtain ⟨steps, isNormal⟩ := resumes 1 6
  obtain ⟨-, -, chain⟩ := bounded 1
  rw [cut] at steps isNormal chain
  exact ⟨cut, steps, isNormal, fewer, (bounded 7).2.1 fewer, chain, ended,
    ends run 2 9 (by decide) ended, picked, reduces t [.arg] picked⟩

end Environment

end LambdaWorkbench
