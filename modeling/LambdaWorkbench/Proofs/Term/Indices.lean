import LambdaWorkbench.Proofs.Term.Path

/-! # Stored indices do not matter

Reduction goes by names and works the indices out anew at the end. Each of its parts commutes with
forgetting the indices, so inputs that differ only there give the same result, errors included.
-/

namespace LambdaWorkbench

namespace Term

/-- A term with the index of every variable forgotten. -/
def unindexed : Term → Term
  | var name _ => free name
  | lam param body => lam param body.unindexed
  | app func arg => app func.unindexed arg.unindexed

@[simp] theorem freeVars_unindexed (t : Term) : t.unindexed.freeVars = t.freeVars := by
  induction t with
  | var name index => rfl
  | lam param body ih => simp only [unindexed, freeVars, ih]
  | app func arg ihf iha => simp only [unindexed, freeVars, ihf, iha]

@[simp] theorem names_unindexed (t : Term) : t.unindexed.names = t.names := by
  induction t with
  | var name index => rfl
  | lam param body ih => simp only [unindexed, names, ih]
  | app func arg ihf iha => simp only [unindexed, names, ihf, iha]

@[simp] theorem hasFree_unindexed (name : String) (t : Term) :
    t.unindexed.hasFree name = t.hasFree name := by
  rw [Bool.eq_iff_iff, hasFree_iff_mem_freeVars, hasFree_iff_mem_freeVars, freeVars_unindexed]

theorem reindexIn_unindexed (t : Term) (scope : List String) :
    t.unindexed.reindexIn scope = t.reindexIn scope := by
  induction t generalizing scope with
  | var name index => rfl
  | lam param body ih => simp only [unindexed, reindexIn, ih]
  | app func arg ihf iha => simp only [unindexed, reindexIn, ihf, iha]

theorem unindexed_reindexIn (t : Term) (scope : List String) :
    (t.reindexIn scope).unindexed = t.unindexed := by
  induction t generalizing scope with
  | var name index => rfl
  | lam param body ih => simp only [unindexed, reindexIn, ih]
  | app func arg ihf iha => simp only [unindexed, reindexIn, ihf, iha]

/-- Terms that differ only in indices are the same once the indices are worked out. -/
theorem reindex_eq_of_unindexed {t t' : Term} (h : t.unindexed = t'.unindexed) :
    t.reindex = t'.reindex := by
  rw [reindex, reindex, ← reindexIn_unindexed t, ← reindexIn_unindexed t', h]

theorem unindexed_renameFree (old new : String) (t : Term) :
    (t.renameFree old new).unindexed = t.unindexed.renameFree old new := by
  induction t with
  | var name index => simp only [renameFree, unindexed, free]; split <;> rfl
  | lam param body ih => simp only [renameFree, unindexed]; split <;> simp [unindexed, ih]
  | app func arg ihf iha => simp only [renameFree, unindexed, ihf, iha]

theorem unindexed_substIn (name : String) (arg : Term) (argFree : List String) (t : Term) :
    (substIn name arg argFree t).unindexed =
      substIn name arg.unindexed argFree t.unindexed := by
  fun_induction substIn name arg argFree t with
  | case1 index => simp [unindexed, free, substIn]
  | case2 occurring index other => simp [unindexed, free, substIn, other]
  | case3 func right ihf iha => simp only [unindexed, substIn, ihf, iha]
  | case4 body => simp [unindexed, substIn]
  | case5 param body differ clash fresh =>
    rename_i ih
    have clash' : param ∈ argFree ∧ body.unindexed.hasFree name := by simpa using clash
    rw [unindexed, unindexed, substIn, if_neg differ, if_pos clash', ih, unindexed_renameFree,
      names_unindexed]
  | case6 param body differ noClash ih =>
    have noClash' : ¬ (param ∈ argFree ∧ body.unindexed.hasFree name) := by simpa using noClash
    rw [unindexed, unindexed, substIn, if_neg differ, if_neg noClash', ih]

theorem unindexed_subst (body : Term) (name : String) (arg : Term) :
    (body.subst name arg).unindexed = body.unindexed.subst name arg.unindexed := by
  rw [subst, subst, unindexed_substIn, freeVars_unindexed]

theorem unindexed_protect (free : List String) (steps : Address) (t : Term) :
    (t.protect free steps).unindexed = t.unindexed.protect free steps := by
  fun_induction protect free steps t with
  | case1 steps param body clash fresh =>
    rename_i ih
    rw [unindexed, unindexed, protect, if_pos clash, ih, unindexed_renameFree, names_unindexed]
  | case2 steps param body noClash ih => rw [unindexed, unindexed, protect, if_neg noClash, ih]
  | case3 steps func arg ih => rw [unindexed, unindexed, protect, ih]
  | case4 steps func arg ih => rw [unindexed, unindexed, protect, ih]
  | case5 steps t notBody notFunc notArg =>
    cases steps with
    | nil => cases t <;> rfl
    | cons step rest =>
      cases t <;> cases step <;> first | rfl | grind

section Along

variable {t sub : Term} {address : Address} {binders : List String} {position : Nat}

theorem Path.unindexed (h : Path t address binders sub) :
    Path t.unindexed address binders sub.unindexed := by
  induction h with
  | root t => exact .root _
  | func _ ih => exact .func ih
  | body _ ih => exact .body ih
  | arg _ ih => exact .arg ih

theorem fits_unindexed (t : Term) (step : Step) : t.unindexed.fits step = t.fits step := by
  cases t <;> cases step <;> rfl

theorem Misfit.unindexed (h : Misfit t address position) :
    Misfit t.unindexed address position := by
  induction h with
  | here misfit => exact .here ((fits_unindexed _ _).trans misfit)
  | func _ ih => exact .func ih
  | body _ ih => exact .body ih
  | arg _ ih => exact .arg ih

theorem Path.unindexed_replaceFrom (h : Path t address binders sub) (new : Term) (depth : Nat) :
    (replaceFrom new depth address t).map Term.unindexed =
      replaceFrom new.unindexed depth address t.unindexed := by
  induction h generalizing depth with
  | root t => rfl
  | @func func _ _ rest _ _ ih =>
    rw [Term.unindexed, replaceFrom, replaceFrom, ← ih]
    cases replaceFrom new (depth + 1) rest func <;> rfl
  | @body _ body _ rest _ _ ih =>
    rw [Term.unindexed, replaceFrom, replaceFrom, ← ih]
    cases replaceFrom new (depth + 1) rest body <;> rfl
  | @arg _ arg _ rest _ _ ih =>
    rw [Term.unindexed, replaceFrom, replaceFrom, ← ih]
    cases replaceFrom new (depth + 1) rest arg <;> rfl

end Along

theorem unindexed_subterm (t : Term) (address : Address) :
    (t.subterm address).map unindexed = t.unindexed.subterm address := by
  obtain ⟨binders, sub, path⟩ | ⟨position, misfit⟩ := path_or_misfit t address
  · rw [path.subterm_eq, path.unindexed.subterm_eq]
    rfl
  · rw [misfit.subterm_eq, misfit.unindexed.subterm_eq]
    rfl

theorem bindersAlong_unindexed (t : Term) (address : Address) :
    t.unindexed.bindersAlong address = t.bindersAlong address := by
  obtain ⟨binders, sub, path⟩ | ⟨position, misfit⟩ := path_or_misfit t address
  · rw [path.bindersAlong_eq, path.unindexed.bindersAlong_eq]
  · rw [misfit.bindersAlong_eq, misfit.unindexed.bindersAlong_eq]

theorem unindexed_replaceAt (t : Term) (address : Address) (new : Term) :
    (t.replaceAt address new).map unindexed =
      t.unindexed.replaceAt address new.unindexed := by
  obtain ⟨binders, sub, path⟩ | ⟨position, misfit⟩ := path_or_misfit t address
  · rw [replaceAt, replaceAt, ← path.unindexed_replaceFrom]
    cases replaceFrom new 0 address t <;> rfl
  · rw [misfit.replaceAt_eq, misfit.unindexed.replaceAt_eq]
    rfl

theorem map_reindex_replaceAt {t t' new new' : Term} (outer : t.unindexed = t'.unindexed)
    (inner : new.unindexed = new'.unindexed) (address : Address) :
    ((t.replaceAt address new).map some).map (Option.map reindex) =
      ((t'.replaceAt address new').map some).map (Option.map reindex) := by
  have results : (t.replaceAt address new).map unindexed =
      (t'.replaceAt address new').map unindexed := by
    rw [unindexed_replaceAt, unindexed_replaceAt, outer, inner]
  cases first : t.replaceAt address new <;> cases second : t'.replaceAt address new' <;>
    rw [first, second] at results
  · cases results; rfl
  · cases results
  · cases results
  · exact congrArg (fun u => Except.ok (some u)) (reindex_eq_of_unindexed (Except.ok.inj results))

end Term

namespace Environment

/-- Two environments define the same names, as terms that differ only in indices, and have the
same limit. -/
def SameUpToIndices (env env' : Environment) : Prop :=
  env.numeralLimit = env'.numeralLimit ∧
    ∀ name, (env.get? name).map Term.unindexed = (env'.get? name).map Term.unindexed

variable {env env' : Environment}

theorem SameUpToIndices.contains_eq (same : env.SameUpToIndices env') (name : String) :
    env.contains name = env'.contains name := by
  have defined := congrArg Option.isSome (same.2 name)
  rwa [Option.isSome_map, Option.isSome_map] at defined

theorem classifyBelow_unindexed (env : Environment) (binders : List String) (t : Term) :
    env.classifyBelow binders t.unindexed = env.classifyBelow binders t := by
  cases t with
  | var name index | lam param body => rfl
  | app func arg => cases func <;> rfl

theorem SameUpToIndices.classifyBelow_eq (same : env.SameUpToIndices env')
    (binders : List String) (t : Term) :
    env.classifyBelow binders t = env'.classifyBelow binders t := by
  cases t with
  | var name index =>
    have limit : ∀ value, env.expands value = env'.expands value := fun value => by
      rw [expands, expands, same.1]
    simp only [classifyBelow, same.contains_eq, limit]
  | lam param body => rfl
  | app func arg => cases func <;> rfl

/-- What one contraction gives, once the indices are worked out. -/
theorem SameUpToIndices.contract_eq (same : env.SameUpToIndices env') {t t' sub sub' : Term}
    (whole : t.unindexed = t'.unindexed) (part : sub.unindexed = sub'.unindexed)
    (address : Address) (redex : Redex) :
    (env.contract t address sub redex).map (Option.map Term.reindex) =
      (env'.contract t' address sub' redex).map (Option.map Term.reindex) := by
  cases redex with
  | beta =>
    match sub, sub', part with
    | .app (.lam param body) arg, .app (.lam param' body') arg', part =>
      simp only [Term.unindexed, Term.app.injEq, Term.lam.injEq] at part
      obtain ⟨⟨rfl, bodies⟩, args⟩ := part
      have new : (body.subst param arg).unindexed = (body'.subst param arg').unindexed := by
        rw [Term.unindexed_subst, Term.unindexed_subst, bodies, args]
      exact Term.map_reindex_replaceAt whole new address
    | .app (.var _ _) _, .app (.var _ _) _, _ | .app (.app _ _) _, .app (.app _ _) _, _ => rfl
    | .var _ _, .var _ _, _ | .lam _ _, .lam _ _, _ => rfl
  | definition name =>
    have defined := same.2 name
    simp only [contract]
    match env.get? name, env'.get? name, defined with
    | none, none, _ => rfl
    | some term, some term', defined =>
      have terms : term.unindexed = term'.unindexed := Option.some.inj defined
      have guarded : (t.protect term.freeVars address).unindexed =
          (t'.protect term'.freeVars address).unindexed := by
        rw [Term.unindexed_protect, Term.unindexed_protect, whole, ← Term.freeVars_unindexed,
          terms, Term.freeVars_unindexed]
      exact Term.map_reindex_replaceAt guarded terms address
  | numeral value => exact Term.map_reindex_replaceAt whole rfl address

/-- **Stored indices do not matter** for the outcome of a reduction. -/
theorem SameUpToIndices.reduceAt_eq (same : env.SameUpToIndices env') {t t' : Term}
    (whole : t.unindexed = t'.unindexed) (address : Address) :
    env.reduceAt t address = env'.reduceAt t' address := by
  have parts : (t.subterm address).map Term.unindexed =
      (t'.subterm address).map Term.unindexed := by
    rw [Term.unindexed_subterm, Term.unindexed_subterm, whole]
  match found : t.subterm address, found' : t'.subterm address, parts with
  | .error fault, .error fault', parts =>
    cases parts
    rw [Term.reduceAt_of_error found, Term.reduceAt_of_error found']
  | .ok sub, .ok sub', parts =>
    have part : sub.unindexed = sub'.unindexed := Except.ok.inj parts
    obtain ⟨binders, path⟩ := Term.Path.of_subterm found
    obtain ⟨binders', path'⟩ := Term.Path.of_subterm found'
    have crossed : t.bindersAlong address = t'.bindersAlong address := by
      rw [← Term.bindersAlong_unindexed, whole, Term.bindersAlong_unindexed]
    rw [path.bindersAlong_eq, path'.bindersAlong_eq] at crossed
    cases crossed
    have classes : env.classifyBelow binders sub = env'.classifyBelow binders sub' := by
      rw [same.classifyBelow_eq, ← classifyBelow_unindexed, part, classifyBelow_unindexed]
    rw [path.reduceAt_eq, path'.reduceAt_eq, classes]
    cases env'.classifyBelow binders sub' with
    | error reason => rfl
    | ok redex => exact same.contract_eq whole part address redex

end Environment

end LambdaWorkbench
