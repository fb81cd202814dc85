import LambdaWorkbench.Proofs.Term.Indices

/-! # What a reduction does to the reading

Read without names, a reduction replaces one subterm and nothing else: an applied lambda by its
contraction on distances, a free name by what it stands for. The renamings that keep names apart,
inside a body and along a path, do not show.
-/

namespace LambdaWorkbench

/-- What a redex with this reading becomes. -/
def Redex.contractum (env : Environment) : Redex → Nameless → Option Nameless
  | .beta, .app (.lam body) arg => some (body.contract arg)
  | .beta, _ => none
  | .definition name, _ => (env.get? name).map Term.nameless
  | .numeral value, _ => some (Term.church value).nameless

namespace Environment

/-- The three ways in which a term can be reduced at its root. -/
theorem classifyBelow_cases {env : Environment} {binders : List String} {t : Term} {redex : Redex}
    (h : env.classifyBelow binders t = .ok redex) :
    (∃ param body arg, t = .app (.lam param body) arg ∧ redex = .beta) ∨
    (∃ name index term, t = .var name index ∧ name ∉ binders ∧ env.get? name = some term ∧
      redex = .definition name) ∨
    (∃ name index value, t = .var name index ∧ name ∉ binders ∧ env.get? name = none ∧
      Text.naturalValue? name = some value ∧ env.expands value = true ∧
      redex = .numeral value) := by
  unfold classifyBelow at h
  split at h
  · rename_i name index
    split_ifs at h with bound defined
    · cases h
      obtain ⟨term, eq⟩ := Option.isSome_iff_exists.mp defined
      exact .inr (.inl ⟨name, index, term, rfl, bound, eq, rfl⟩)
    · have absent : env.get? name = none := by simpa [contains] using defined
      split at h
      · cases h
      · rename_i value eq
        split_ifs at h with small
        cases h
        exact .inr (.inr ⟨name, index, value, rfl, bound, absent, eq, small, rfl⟩)
  · cases h
    exact .inl ⟨_, _, _, rfl, rfl⟩
  · cases h
  · cases h

/-- What free names stand for: their definitions, and numerals within the limit. -/
def rules (env : Environment) : Nameless.Rules where
  unfold name :=
    match env.get? name with
    | some term => some term.nameless
    | none =>
      match Text.naturalValue? name with
      | some value => if env.expands value then some (Term.church value).nameless else none
      | none => none
  closed := by
    intro name body h
    split at h
    · cases h
      exact Term.closedUnder_namelessIn _ []
    · split at h
      · split_ifs at h
        cases h
        exact Term.closedUnder_namelessIn _ []
      · cases h

/-- The kinds of redex are the ways in which the reading can be contracted. -/
theorem rules_contractum (env : Environment) (binders scope : List String)
    (same : ∀ name, name ∈ binders ↔ name ∈ scope) (t : Term) :
    env.rules.contractum (t.namelessIn scope) =
      match env.classifyBelow binders t with
      | .ok redex => redex.contractum env (t.namelessIn scope)
      | .error _ => none := by
  cases t with
  | var name index =>
    rw [Term.namelessIn_var, classifyBelow]
    by_cases bound : name ∈ scope
    · simp [bound, (same name).mpr bound, Nameless.Rules.contractum]
    · have free : name ∉ binders := fun mem => bound ((same name).mp mem)
      obtain absent | ⟨term, defined⟩ := (env.get? name).eq_none_or_eq_some
      · simp only [bound, free, if_false, Nameless.Rules.contractum, rules, contains, absent]
        cases Text.naturalValue? name with
        | none => rfl
        | some value => by_cases small : env.expands value <;> simp [small, Redex.contractum]
      · simp [bound, free, Nameless.Rules.contractum, rules, contains, defined, Redex.contractum]
  | lam param body => rfl
  | app func arg =>
    cases func with
    | var name index =>
      rw [Term.namelessIn, Term.namelessIn_var]
      split <;> rfl
    | lam param body | app first second => rfl

end Environment

namespace Term.Path

variable {env : Environment} {t sub : Term} {address : Address} {binders : List String}
  {redex : Redex}

theorem of_classify (h : env.classify t address = .ok (.ok redex)) :
    ∃ binders sub, Path t address binders sub ∧ env.classifyBelow binders sub = .ok redex := by
  cases found : t.subterm address with
  | error fault =>
    rw [Environment.classify, found] at h
    cases h
  | ok sub =>
    obtain ⟨binders, path⟩ := of_subterm found
    rw [path.classify_eq] at h
    exact ⟨binders, sub, path, Except.ok.inj h⟩

/-- A redex at the end of a path is contracted there, in the reading as by name. What replaces it
meets no lambda that binds one of the free names of a definition. -/
theorem contract_eq (h : Path t address binders sub)
    (kind : env.classifyBelow binders sub = .ok redex) :
    ∃ u new, env.contract t address sub redex = .ok (some u) ∧
      redex.contractum env (sub.namelessIn binders.reverse) = some new ∧
      t.nameless.replaceAt? address new = some u.nameless ∧
      ∀ name term, redex = .definition name → env.get? name = some term →
        ∃ binders', Path u address binders' term ∧ ∀ free ∈ term.freeVars, free ∉ binders' := by
  obtain ⟨param, body, arg, rfl, rfl⟩ | ⟨name, index, term, rfl, -, defined, rfl⟩ |
    ⟨name, index, value, rfl, -, -, -, -, rfl⟩ := Environment.classifyBelow_cases kind
  · obtain ⟨u, eq, -, reads⟩ := h.replaceAt_eq (body.subst param arg)
    rw [namelessIn_subst] at reads
    exact ⟨u, _, by rw [Environment.contract, eq]; rfl, rfl, reads, by simp⟩
  · obtain ⟨binders', _, path, apart⟩ := h.protect term.freeVars
    obtain ⟨u, eq, path', reads⟩ := path.replaceAt_eq term
    have alone : term.namelessIn binders'.reverse = term.nameless :=
      namelessIn_eq_nameless fun free mem inBinders =>
        apart free mem (List.mem_reverse.mp inBinders)
    rw [nameless, namelessIn_protect, alone] at reads
    refine ⟨u, term.nameless, by rw [Environment.contract, defined]; simp only [eq]; rfl,
      by rw [Redex.contractum, defined]; rfl, reads, ?_⟩
    intro name' term' same defined'
    cases same
    rw [defined] at defined'
    cases defined'
    exact ⟨binders', path', apart⟩
  · obtain ⟨u, eq, -, reads⟩ := h.replaceAt_eq (church value)
    rw [namelessIn_eq_nameless (by simp)] at reads
    exact ⟨u, _, by rw [Environment.contract, eq]; rfl, rfl, reads, by simp⟩

theorem reduceAt_of_redex (h : Path t address binders sub)
    (kind : env.classifyBelow binders sub = .ok redex) :
    ∃ u new, env.reduceAt t address = .ok (some u) ∧ u.reindex = u ∧
      redex.contractum env (sub.namelessIn binders.reverse) = some new ∧
      t.nameless.replaceAt? address new = some u.nameless ∧
      ∀ name term, redex = .definition name → env.get? name = some term →
        ∃ binders', u.bindersAlong address = .ok binders' ∧
          ∀ free ∈ term.freeVars, free ∉ binders' ∧ free ∈ u.freeVars := by
  obtain ⟨u, new, eq, becomes, reads, stays⟩ := h.contract_eq kind
  refine ⟨u.reindex, new, by simp only [h.reduceAt_eq, kind, eq]; rfl, reindex_reindex u, becomes,
    by rw [nameless_reindex, reads], fun name term isDefinition defined => ?_⟩
  obtain ⟨binders', path, apart⟩ := stays name term isDefinition defined
  have path' := path.reindexIn []
  refine ⟨binders', path'.bindersAlong_eq, fun free mem => ⟨apart free mem, ?_⟩⟩
  exact path'.mem_freeVars (by rwa [freeVars_reindexIn]) (apart free mem)

end Term.Path

namespace Environment

/-- **One reduction replaces one subterm of the reading.** Where an address has a redex, the
reduction succeeds there; its result reads as the term with the redex contracted by distance, or
with a definition whose free names all stay free, or with a Church numeral. The result has its
indices worked out, and indices in the input play no part in it. -/
theorem reduceAt_replaces_reading {env : Environment} {t : Term} {address : Address}
    {redex : Redex} (h : env.classify t address = .ok (.ok redex)) :
    ∃ u sub new, env.reduceAt t address = .ok (some u) ∧
      t.nameless.subterm? address = some sub ∧ redex.contractum env sub = some new ∧
      t.nameless.replaceAt? address new = some u.nameless ∧
      (∀ name term, redex = .definition name → env.get? name = some term →
        ∃ binders, u.bindersAlong address = .ok binders ∧
          ∀ free ∈ term.freeVars, free ∉ binders ∧ free ∈ u.freeVars) ∧
      u.reindex = u ∧
      ∀ env' t', env.SameUpToIndices env' → t.unindexed = t'.unindexed →
        env'.reduceAt t' address = .ok (some u) := by
  obtain ⟨binders, sub, path, kind⟩ := Term.Path.of_classify h
  obtain ⟨u, new, eq, indexed, becomes, reads, stays⟩ := path.reduceAt_of_redex kind
  have found := path.subterm?_nameless []
  rw [List.append_nil] at found
  exact ⟨u, _, new, eq, found, becomes, reads, stays, indexed,
    fun env' t' sameEnv sameTerm => (sameEnv.reduceAt_eq sameTerm address).symm.trans eq⟩

/-- `F` stands for `y` and is looked up below a lambda that binds `y`. -/
theorem reduceAt_replaces_reading_capture :
    let env := empty.insert "F" (.free "y")
    let t : Term := .lam "y" (.app (.free "F") (.var "y" 1))
    env.classify t [.body, .func] = .ok (.ok (.definition "F")) ∧
      ∃ u sub new, env.reduceAt t [.body, .func] = .ok (some u) ∧
        t.nameless.subterm? [.body, .func] = some sub ∧
        (Redex.definition "F").contractum env sub = some new ∧
        t.nameless.replaceAt? [.body, .func] new = some u.nameless ∧
        u = .lam "y'" (.app (.free "y") (.var "y'" 1)) := by
  intro env t
  have kind : env.classify t [.body, .func] = .ok (.ok (.definition "F")) := rfl
  obtain ⟨u, sub, new, eq, found, becomes, reads, -⟩ := reduceAt_replaces_reading kind
  have result : env.reduceAt t [.body, .func] =
      .ok (some (.lam "y'" (.app (.free "y") (.var "y'" 1)))) := rfl
  rw [result] at eq
  cases eq
  exact ⟨kind, _, sub, new, result, found, becomes, reads, rfl⟩

end Environment

end LambdaWorkbench
