import Mathlib.Data.List.Forall2
import LambdaWorkbench.Proofs.Redex.Simulation

/-! # Names of parameters do not matter

Terms that are equal up to the names of parameters are reduced alike, also under environments whose
definitions are equal in that sense and stand in another order. The two runs may rename different
lambdas and pick different names for them. What both have in common is the reading, on which the
redexes, their kinds and their contractions depend.
-/

namespace LambdaWorkbench

/-- Two operations fail with related faults, or succeed with related values. -/
inductive SameOutcome {ε α : Type} (faults : ε → ε → Prop) (values : α → α → Prop) :
    Except ε α → Except ε α → Prop
  | error {fault fault' : ε} : faults fault fault' →
      SameOutcome faults values (.error fault) (.error fault')
  | ok {value value' : α} : values value value' →
      SameOutcome faults values (.ok value) (.ok value')

/-- Two places are inert for the same reason. Only a bound variable may have another name. -/
inductive Inert.Alike : Inert → Inert → Prop
  | refl (reason : Inert) : Alike reason reason
  | boundVariable (name name' : String) : Alike (.boundVariable name) (.boundVariable name')

namespace Term

variable {t t' sub : Term} {address : Address} {binders : List String}

theorem fits_of_alphaEqIn {scope scope' : List String} (same : alphaEqIn scope scope' t t' = true)
    (step : Step) : t'.fits step = t.fits step := by
  cases t <;> cases t' <;> cases step <;> first | rfl | cases same

/-- Where an address stops to fit does not depend on names. -/
theorem Misfit.of_alphaEqIn {scope scope' : List String} {position : Nat}
    (h : Misfit t address position) (same : alphaEqIn scope scope' t t' = true) :
    Misfit t' address position := by
  induction h generalizing t' scope scope' with
  | here misfit => exact .here ((fits_of_alphaEqIn same _).trans misfit)
  | func _ ih =>
    match t', same with
    | app _ _, same => exact .func (ih (Bool.and_eq_true_iff.mp same).1)
  | body _ ih =>
    match t', same with
    | lam _ _, same => exact .body (ih same)
  | arg _ ih =>
    match t', same with
    | app _ _, same => exact .arg (ih (Bool.and_eq_true_iff.mp same).2)

theorem subterm_error_of_alphaEq {fault : AddressError} (same : t.alphaEq t' = true)
    (h : t.subterm address = .error fault) : t'.subterm address = .error fault := by
  obtain ⟨position, misfit, rfl⟩ := Misfit.of_subterm h
  exact (misfit.of_alphaEqIn same).subterm_eq

/-- A path is there in every term with the same reading, and leads to the same subterm of it. -/
theorem Path.of_nameless_eq (h : Path t address binders sub) (same : t.nameless = t'.nameless) :
    ∃ binders' sub', Path t' address binders' sub' ∧
      sub.namelessIn binders.reverse = sub'.namelessIn binders'.reverse := by
  have reads := h.subterm?_nameless []
  rw [List.append_nil, ← nameless, same] at reads
  obtain ⟨binders', sub', path'⟩ := Path.of_subterm?_nameless reads
  have reads' := path'.subterm?_nameless []
  rw [List.append_nil, ← nameless, reads] at reads'
  exact ⟨binders', sub', path', Option.some.inj reads'⟩

theorem Path.exists_reduceAt_eq (h : Path t address binders sub) (env : Environment) :
    ∃ next, env.reduceAt t address = .ok next := by
  cases kind : env.classifyBelow binders sub with
  | error reason => exact ⟨none, by rw [h.reduceAt_eq, kind]⟩
  | ok redex =>
    obtain ⟨u, -, eq, -⟩ := h.reduceAt_of_redex kind
    exact ⟨some u, eq⟩

end Term

namespace Environment

/-- Two environments have the same limit and define the same names, in whatever order, as terms
that are equal up to the names of parameters. -/
structure AlphaEq (env env' : Environment) : Prop where
  limit : env.numeralLimit = env'.numeralLimit
  defined : ∀ name, Option.Rel (fun t u => t.alphaEq u = true) (env.get? name) (env'.get? name)

variable {env env' : Environment} {t t' : Term}

theorem AlphaEq.expands_eq (same : env.AlphaEq env') (value : Nat) :
    env.expands value = env'.expands value := by
  rw [expands, expands, same.limit]

theorem AlphaEq.contains_eq (same : env.AlphaEq env') (name : String) :
    env.contains name = env'.contains name := by
  have defined := same.defined name
  rw [contains, contains]
  generalize env.get? name = first at *
  generalize env'.get? name = second at *
  cases defined <;> rfl

/-- Free names stand for the same readings. -/
theorem AlphaEq.rules_eq (same : env.AlphaEq env') : env.rules = env'.rules := by
  have unfolds : env.rules.unfold = env'.rules.unfold := by
    funext name
    have defined := same.defined name
    simp only [rules, same.expands_eq]
    generalize env.get? name = first at defined
    generalize env'.get? name = second at defined
    cases defined with
    | none => rfl
    | some reads => exact congrArg some (Term.alphaEq_iff_nameless.mp reads)
  cases first : env.rules
  cases second : env'.rules
  rw [first, second] at unfolds
  cases unfolds
  rfl

/-- Subterms with the same reading are redexes of the same kind, or inert for the same reason. -/
theorem AlphaEq.classifyBelow_alike (same : env.AlphaEq env') {binders binders' : List String}
    (reads : t.namelessIn binders.reverse = t'.namelessIn binders'.reverse) :
    SameOutcome Inert.Alike Eq (env.classifyBelow binders t) (env'.classifyBelow binders' t') := by
  rw [← Term.alphaEqIn_iff] at reads
  cases t with
  | var name index =>
    cases t' with
    | var name' index' =>
      rw [Term.alphaEqIn_iff, Term.namelessIn_var, Term.namelessIn_var] at reads
      simp only [List.mem_reverse] at reads
      rw [classifyBelow, classifyBelow]
      by_cases bound : name ∈ binders
      · by_cases bound' : name' ∈ binders'
        · rw [if_pos bound, if_pos bound']
          exact .error (.boundVariable name name')
        · rw [if_pos bound, if_neg bound'] at reads
          cases reads
      · by_cases bound' : name' ∈ binders'
        · rw [if_neg bound, if_pos bound'] at reads
          cases reads
        rw [if_neg bound, if_neg bound'] at reads
        cases reads
        rw [if_neg bound, if_neg bound', same.contains_eq]
        split
        · exact .ok rfl
        · cases Text.naturalValue? name with
          | none => exact .error (.refl _)
          | some value =>
            simp only [same.expands_eq]
            split
            · exact .ok rfl
            · exact .error (.refl _)
    | lam param' body' | app func' arg' => cases reads
  | lam param body =>
    cases t' with
    | lam param' body' => exact .error (.refl _)
    | var name' index' | app func' arg' => cases reads
  | app func arg =>
    cases t' with
    | app func' arg' =>
      obtain ⟨funcs, -⟩ := Bool.and_eq_true_iff.mp reads
      cases func <;> cases func' <;> first | cases funcs | skip
      · exact .error (.refl _)
      · exact .ok rfl
      · exact .error (.refl _)
    | var name' index' | lam param' body' => cases reads

theorem AlphaEq.classify_alike (sameEnv : env.AlphaEq env') (same : t.alphaEq t' = true)
    (address : Address) :
    SameOutcome Eq (SameOutcome Inert.Alike Eq) (env.classify t address)
      (env'.classify t' address) := by
  cases found : t.subterm address with
  | error fault =>
    rw [Term.classify_of_error found,
      Term.classify_of_error (Term.subterm_error_of_alphaEq same found)]
    exact .error rfl
  | ok sub =>
    obtain ⟨binders, path⟩ := Term.Path.of_subterm found
    obtain ⟨binders', sub', path', reads⟩ :=
      path.of_nameless_eq (Term.alphaEq_iff_nameless.mp same)
    rw [path.classify_eq, path'.classify_eq]
    exact .ok (sameEnv.classifyBelow_alike reads)

theorem AlphaEq.reduceAt_alike (sameEnv : env.AlphaEq env') (same : t.alphaEq t' = true)
    (address : Address) :
    SameOutcome Eq (Option.Rel fun u u' => u.alphaEq u' = true) (env.reduceAt t address)
      (env'.reduceAt t' address) := by
  cases found : t.subterm address with
  | error fault =>
    rw [Term.reduceAt_of_error found,
      Term.reduceAt_of_error (Term.subterm_error_of_alphaEq same found)]
    exact .error rfl
  | ok sub =>
    obtain ⟨binders, path⟩ := Term.Path.of_subterm found
    have reads := Term.alphaEq_iff_nameless.mp same
    obtain ⟨binders', sub', path', -⟩ := path.of_nameless_eq reads
    obtain ⟨next, eq⟩ := path.exists_reduceAt_eq env
    obtain ⟨next', eq'⟩ := path'.exists_reduceAt_eq env'
    have steps := stepAt_nameless env t address
    have steps' := stepAt_nameless env' t' address
    rw [sameEnv.rules_eq, reads, steps', eq, eq'] at steps
    rw [eq, eq']
    refine .ok ?_
    cases next with
    | none =>
      cases next' with
      | none => exact .none
      | some u' => cases steps
    | some u =>
      cases next' with
      | none => cases steps
      | some u' => exact .some (Term.alphaEq_iff_nameless.mpr (Option.some.inj steps).symm)

/-! ## Runs -/

theorem AlphaEq.redexes_eq (sameEnv : env.AlphaEq env') (same : t.alphaEq t' = true) :
    env.redexes t = env'.redexes t' := by
  rw [Environment.redexes_eq, Environment.redexes_eq, sameEnv.rules_eq,
    Term.alphaEq_iff_nameless.mp same]

theorem AlphaEq.advance_alike (sameEnv : env.AlphaEq env') (same : t.alphaEq t' = true)
    (policy : Policy) :
    (env.advance policy t).map Term.nameless = (env'.advance policy t').map Term.nameless := by
  rw [advance_nameless, advance_nameless, sameEnv.rules_eq, Term.alphaEq_iff_nameless.mp same]

theorem AlphaEq.take_alike (sameEnv : env.AlphaEq env') (same : t.alphaEq t' = true)
    (policy : Policy) (count : Nat) :
    List.Forall₂ (fun u u' => u.alphaEq u' = true) ((Run.start env policy t).take count)
      ((Run.start env' policy t').take count) := by
  induction count generalizing t t' with
  | zero => exact .nil
  | succ count ih =>
    have next := sameEnv.advance_alike same policy
    rw [take_start_succ, take_start_succ]
    cases first : env.advance policy t with
    | none =>
      rw [first, Option.map_none, eq_comm, Option.map_eq_none_iff] at next
      rw [next]
      exact .nil
    | some u =>
      rw [first, Option.map_some, eq_comm, Option.map_eq_some_iff] at next
      obtain ⟨u', second, reads⟩ := next
      rw [second]
      have same' : u.alphaEq u' = true := Term.alphaEq_iff_nameless.mpr reads.symm
      exact .cons same' (ih same')

/-- Of alike runs the terms that they end at are alike. -/
theorem getLast?_alike {us us' : List Term} (same : t.alphaEq t' = true)
    (h : List.Forall₂ (fun u u' => u.alphaEq u' = true) us us') :
    (us.getLast?.getD t).alphaEq (us'.getLast?.getD t') = true := by
  induction h generalizing t t' with
  | nil => exact same
  | cons first _ ih =>
    rw [List.getLast?_cons, List.getLast?_cons]
    exact ih first

/-- **Reduction depends on neither the names of parameters nor the order of definitions.** For
terms and environments that are equal up to these, the redexes are the same, every address fails or
is classified alike, reductions fail alike or lead to terms that are equal up to the names of
parameters, and so do bounded runs of every policy, term by term. -/
theorem reduction_respects_alphaEq (sameEnv : env.AlphaEq env') (same : t.alphaEq t' = true) :
    env.redexes t = env'.redexes t' ∧
    (∀ address, SameOutcome Eq (SameOutcome Inert.Alike Eq) (env.classify t address)
      (env'.classify t' address)) ∧
    (∀ address, SameOutcome Eq (Option.Rel fun u u' => u.alphaEq u' = true)
      (env.reduceAt t address) (env'.reduceAt t' address)) ∧
    ∀ policy count,
      List.Forall₂ (fun u u' => u.alphaEq u' = true) (env.normalize policy count t).steps
        (env'.normalize policy count t').steps ∧
      (env.normalize policy count t).isNormal = (env'.normalize policy count t').isNormal := by
  refine ⟨sameEnv.redexes_eq same, sameEnv.classify_alike same, sameEnv.reduceAt_alike same, ?_⟩
  intro policy count
  have steps := sameEnv.take_alike same policy count
  refine ⟨steps, ?_⟩
  rw [normalize, normalize, sameEnv.redexes_eq (getLast?_alike same steps)]

/-- `F` stands for `y` below a lambda that binds `y` in one term and `z` in the other, so that only
the first run has to rename it. -/
theorem reduction_respects_alphaEq_renamed :
    let env := (empty.insert "F" (.free "y")).insert "I" (.lam "a" (.var "a" 1))
    let env' := (empty.insert "I" (.lam "b" (.var "b" 1))).insert "F" (.free "y")
    let t : Term := .lam "y" (.app (.free "I") (.app (.free "F") (.var "y" 1)))
    let t' : Term := .lam "z" (.app (.free "I") (.app (.free "F") (.var "z" 1)))
    env.AlphaEq env' ∧ t.alphaEq t' = true ∧
      env.redexes t = [[.body, .func], [.body, .arg, .func]] ∧
      env'.redexes t' = [[.body, .func], [.body, .arg, .func]] ∧
      env.reduceAt t [.body, .arg, .func] = .ok (some (.lam "y'" (.app (.free "I")
        (.app (.free "y") (.var "y'" 1))))) ∧
      SameOutcome Eq (Option.Rel fun u u' => u.alphaEq u' = true)
        (env.reduceAt t [.body, .arg, .func]) (env'.reduceAt t' [.body, .arg, .func]) ∧
      List.Forall₂ (fun u u' => u.alphaEq u' = true) (env.normalize .normalOrder 5 t).steps
        (env'.normalize .normalOrder 5 t').steps := by
  intro env env' t t'
  have sameEnv : env.AlphaEq env' := by
    refine ⟨rfl, ?_⟩
    intro name
    simp only [env, env', get?_insert]
    by_cases isF : name = "F"
    · subst isF
      exact .some rfl
    · by_cases isI : name = "I"
      · subst isI
        exact .some rfl
      · simp only [if_neg isF, if_neg isI]
        exact .none
  have same : t.alphaEq t' = true := rfl
  have listed : env.redexes t = [[.body, .func], [.body, .arg, .func]] := by decide +kernel
  obtain ⟨redexes, -, reductions, runs⟩ := reduction_respects_alphaEq sameEnv same
  exact ⟨sameEnv, same, listed, redexes ▸ listed, rfl, reductions _, (runs .normalOrder 5).1⟩

end Environment

end LambdaWorkbench
