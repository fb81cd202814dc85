import LambdaWorkbench.Proofs.Term.Path

/-! # The parameters that a substitution renames

A substitution renames a lambda where its parameter would bind a free name of the argument, and
nowhere else. It decides this for a body in which the lambdas further out have been renamed
already, but such a renaming neither touches the parameters inside nor makes the variable appear or
vanish. The only names it takes away are free in the argument, so a fresh name does not occur in
the body as it was at first, either.
-/

namespace LambdaWorkbench

/-! ## Primes -/

/-- A name with so many primes after it. -/
def primed (name : String) : Nat → String
  | 0 => name
  | count + 1 => primed name count ++ "'"

theorem primed_prime (name : String) (count : Nat) :
    primed (name ++ "'") count = primed name (count + 1) := by
  induction count with
  | zero => rfl
  | succ count ih => rw [primed, ih, ← primed]

/-- The search adds one prime after the other, as long as the name is taken. -/
theorem primeWhileUsed_eq_primed (used : List String) (fuel : Nat) (name : String) :
    ∃ count ≤ fuel, primeWhileUsed used fuel name = primed name count ∧
      ∀ fewer < count, primed name fewer ∈ used := by
  induction fuel generalizing name with
  | zero => exact ⟨0, Nat.le_refl 0, rfl, fun _ less => absurd less (Nat.not_lt_zero _)⟩
  | succ fuel ih =>
    unfold primeWhileUsed
    split
    · rename_i taken
      obtain ⟨count, le, eq, before⟩ := ih (name ++ "'")
      refine ⟨count + 1, Nat.succ_le_succ le, by rw [eq, primed_prime], ?_⟩
      intro fewer less
      cases fewer with
      | zero => exact taken
      | succ fewer => exact primed_prime name fewer ▸ before fewer (Nat.lt_of_succ_lt_succ less)
    · exact ⟨0, Nat.zero_le _, rfl, fun _ less => absurd less (Nat.not_lt_zero _)⟩

/-- A name that is taken gets at least one prime. -/
theorem exists_freshName_eq_primed {name : String} {used : List String} (taken : name ∈ used) :
    ∃ count, freshName name used = primed name (count + 1) := by
  obtain ⟨count, -, eq, -⟩ := primeWhileUsed_eq_primed used used.length name
  cases count with
  | zero =>
    have unprimed : freshName name used = name := eq
    exact absurd taken (unprimed ▸ freshName_not_mem name used)
  | succ count => exact ⟨count, eq⟩

namespace Term

variable {t body : Term} {name old new outer param param' : String} {address : Address}
  {argFree binders : List String}

/-! ## What a renaming keeps -/

theorem hasFree_renameFree (notOld : name ≠ old) (notNew : name ≠ new) (t : Term) :
    (t.renameFree old new).hasFree name = t.hasFree name := by
  induction t with
  | var occurring index =>
    rw [renameFree]
    split
    · rename_i same
      rw [hasFree, hasFree, same, beq_false_of_ne notOld.symm, beq_false_of_ne notNew.symm]
    · rfl
  | lam param body ih =>
    rw [renameFree]
    split
    · rfl
    · rw [hasFree, hasFree, ih]
  | app func arg ihf iha => rw [renameFree, hasFree, hasFree, ihf, iha]

/-- A renaming takes away no name but the old one. -/
theorem mem_names_renameFree (h : name ∈ t.names) (notOld : name ≠ old) :
    name ∈ (t.renameFree old new).names := by
  induction t with
  | var occurring index =>
    have same : name = occurring := List.mem_singleton.mp h
    rw [renameFree, if_neg (same ▸ notOld)]
    exact h
  | lam param body ih =>
    rw [renameFree]
    split
    · exact h
    · rcases List.mem_cons.mp h with rfl | inBody
      · exact List.mem_cons_self
      · exact List.mem_cons_of_mem _ (ih inBody)
  | app func arg ihf iha =>
    rcases List.mem_append.mp h with inFunc | inArg
    · exact List.mem_append_left _ (ihf inFunc)
    · exact List.mem_append_right _ (iha inArg)

/-- A renaming keeps every lambda in its place, and its parameter. -/
theorem Path.renameFree_lam (h : Path t address binders (lam param body)) (old new : String) :
    Path (t.renameFree old new) address binders (lam param body) ∨
      Path (t.renameFree old new) address binders (lam param (body.renameFree old new)) := by
  have path := h.renameFree old new
  rw [Term.renameFree] at path
  split_ifs at path
  · exact .inl path
  · exact .inl path
  · exact .inr path

/-! ## Lambdas in a substitution -/

/-- The parameter `param'` that a lambda below `binders` has after a substitution for `name` of an
argument with the free names `argFree`: another one just where the old one would bind one of these,
and then the old one with primes, which nothing in its scope has. -/
structure RenamedAsNeeded (name : String) (argFree binders : List String) (param : String)
    (body : Term) (param' : String) : Prop where
  renamed_iff : param' ≠ param ↔
    param ∈ argFree ∧ param ≠ name ∧ name ∈ body.freeVars ∧ name ∉ binders
  fresh : param' ≠ param → (∃ count, param' = primed param (count + 1)) ∧
    param' ∉ argFree ∧ param' ≠ name ∧ param' ∉ body.names

theorem RenamedAsNeeded.kept (notNeeded :
      ¬ (param ∈ argFree ∧ param ≠ name ∧ name ∈ body.freeVars ∧ name ∉ binders)) :
    RenamedAsNeeded name argFree binders param body param :=
  ⟨iff_of_false (fun differs => differs rfl) notNeeded, fun differs => absurd rfl differs⟩

/-- A lambda further out that does not bind the variable does not matter. -/
theorem RenamedAsNeeded.below (h : RenamedAsNeeded name argFree binders param body param')
    (differ : outer ≠ name) :
    RenamedAsNeeded name argFree (outer :: binders) param body param' := by
  refine ⟨?_, h.fresh⟩
  rw [h.renamed_iff, List.mem_cons, not_or]
  exact ⟨fun ⟨clash, other, free, notBound⟩ => ⟨clash, other, free, differ.symm, notBound⟩,
    fun ⟨clash, other, free, _, notBound⟩ => ⟨clash, other, free, notBound⟩⟩

/-- What holds for a body in which a name has been renamed holds for the body as it was. -/
theorem RenamedAsNeeded.of_renameFree
    (h : RenamedAsNeeded name argFree binders param (body.renameFree old new) param')
    (clash : old ∈ argFree) (notOld : name ≠ old) (notNew : name ≠ new) :
    RenamedAsNeeded name argFree binders param body param' := by
  obtain ⟨renamed_iff, fresh⟩ := h
  rw [← hasFree_iff_mem_freeVars, hasFree_renameFree notOld notNew,
    hasFree_iff_mem_freeVars] at renamed_iff
  refine ⟨renamed_iff, fun differs => ?_⟩
  obtain ⟨primes, notInArg, notName, unused⟩ := fresh differs
  refine ⟨primes, notInArg, notName, fun mem => unused (mem_names_renameFree mem ?_)⟩
  rintro rfl
  exact notInArg clash

/-- The fresh name for a parameter that clashes. -/
theorem renamedAsNeeded_freshName (differ : param ≠ name)
    (clash : param ∈ argFree ∧ body.hasFree name = true) :
    RenamedAsNeeded name argFree [] param body
      (freshName param (body.names ++ argFree ++ [name])) := by
  have unused := freshName_not_mem param (body.names ++ argFree ++ [name])
  have taken : param ∈ body.names ++ argFree ++ [name] :=
    List.mem_append_left _ (List.mem_append_right _ clash.1)
  have differs : freshName param (body.names ++ argFree ++ [name]) ≠ param :=
    fun eq => (eq ▸ unused) taken
  simp only [List.mem_append, List.mem_singleton, not_or] at unused
  obtain ⟨⟨notInBody, notInArg⟩, notName⟩ := unused
  exact ⟨iff_of_true differs
      ⟨clash.1, differ, hasFree_iff_mem_freeVars.mp clash.2, List.not_mem_nil⟩,
    fun _ => ⟨exists_freshName_eq_primed taken, notInArg, notName, notInBody⟩⟩

/-- A lambda stays where it is in a substitution, and is renamed as needed. -/
theorem Path.substIn (h : Path t address binders (lam param body)) (name : String) (arg : Term)
    (argFree : List String) :
    ∃ binders' param' body', Path (substIn name arg argFree t) address binders' (lam param' body') ∧
      RenamedAsNeeded name argFree binders param body param' := by
  fun_induction Term.substIn name arg argFree t generalizing address binders param body with
  | case1 index => cases h
  | case2 occurring index other => cases h
  | case3 func right ihf iha =>
    obtain - | inFunc | - | inArg := h
    · obtain ⟨binders', param', body', path, renamed⟩ := ihf inFunc
      exact ⟨binders', param', body', .func path, renamed⟩
    · obtain ⟨binders', param', body', path, renamed⟩ := iha inArg
      exact ⟨binders', param', body', .arg path, renamed⟩
  | case4 inner =>
    -- the variable is bound from here on
    refine ⟨binders, param, body, h, .kept fun needed => ?_⟩
    obtain - | - | inBody | - := h
    · exact needed.2.1 rfl
    · exact needed.2.2.2 List.mem_cons_self
  | case5 first inner differ clash fresh =>
    rename_i ih
    have notUsed : fresh ∉ inner.names ++ argFree ++ [name] := freshName_not_mem first _
    have notName : name ≠ fresh := fun eq =>
      notUsed (List.mem_append_right _ (List.mem_singleton.mpr eq.symm))
    obtain - | - | inBody | - := h
    · exact ⟨[], fresh, _, .root _, renamedAsNeeded_freshName differ clash⟩
    · -- the substitution goes on in the renamed body, where the lambda still is
      rcases inBody.renameFree_lam first fresh with same | renamedBody
      · obtain ⟨binders', param', body', path, renamed⟩ := ih same
        exact ⟨fresh :: binders', param', body', .body path, renamed.below differ⟩
      · obtain ⟨binders', param', body', path, renamed⟩ := ih renamedBody
        have asBefore := renamed.of_renameFree clash.1 (Ne.symm differ) notName
        exact ⟨fresh :: binders', param', body', .body path, asBefore.below differ⟩
  | case6 first inner differ noClash ih =>
    obtain - | - | inBody | - := h
    · refine ⟨[], first, _, .root _, .kept fun needed => noClash ?_⟩
      exact ⟨needed.1, hasFree_iff_mem_freeVars.mpr needed.2.2.1⟩
    · obtain ⟨binders', param', body', path, renamed⟩ := ih inBody
      exact ⟨first :: binders', param', body', .body path, renamed.below differ⟩

/-- **Substitution renames a lambda only where it must.** Every lambda stays at its address. It
gets another parameter just when its own is free in the argument and is not the variable, and the
variable is free in its body and bound by no lambda above it. The new parameter is the old one with
primes; it is not free in the argument, is not the variable and does not occur in the body. Without
a free occurrence of the variable the term stays as it is. -/
theorem subst_renames_as_needed (t : Term) (name : String) (arg : Term) :
    (∀ address param body, t.subterm address = .ok (lam param body) →
      ∃ binders param' body', t.bindersAlong address = .ok binders ∧
        (t.subst name arg).subterm address = .ok (lam param' body') ∧
        (param' ≠ param ↔ param ∈ arg.freeVars ∧ param ≠ name ∧ name ∈ body.freeVars ∧
          name ∉ binders) ∧
        (param' ≠ param → (∃ count, param' = primed param (count + 1)) ∧
          param' ∉ arg.freeVars ∧ param' ≠ name ∧ param' ∉ body.names)) ∧
    (name ∉ t.freeVars → t.subst name arg = t) := by
  constructor
  · intro address param body found
    obtain ⟨binders, path⟩ := Path.of_subterm found
    obtain ⟨_, param', body', after, renamed⟩ := path.substIn name arg arg.freeVars
    exact ⟨binders, param', body', path.bindersAlong_eq, after.subterm_eq, renamed.renamed_iff,
      renamed.fresh⟩
  · intro absent
    refine substIn_of_not_hasFree arg arg.freeVars (Bool.eq_false_iff.mpr fun occurs => ?_)
    exact absent (hasFree_iff_mem_freeVars.mp occurs)

/-- Both lambdas are renamed. The inner one passes over the name that the outer one has got. -/
theorem subst_renames_as_needed_nested :
    let inner : Term := app (app (free "x") (var "y" 2)) (var "y'" 1)
    let t : Term := lam "y" (lam "y'" inner)
    let arg : Term := app (free "y") (free "y'")
    t.subterm [.body] = .ok (lam "y'" inner) ∧ "y'''" ≠ "y'" ∧ "w" ∉ t.freeVars ∧
      t.subst "x" arg =
        lam "y''" (lam "y'''" (app (app arg (var "y''" 2)) (var "y'''" 1))) ∧
      "y'" ∈ arg.freeVars ∧ "y'" ≠ "x" ∧ "x" ∈ inner.freeVars ∧
      "y'''" ∉ arg.freeVars ∧ "y'''" ≠ "x" ∧ "y'''" ∉ inner.names ∧ t.subst "w" arg = t := by
  intro inner t arg
  have found : t.subterm [.body] = .ok (lam "y'" inner) := rfl
  have absent : "w" ∉ t.freeVars := by decide
  have differs : "y'''" ≠ "y'" := by decide
  have result : t.subst "x" arg =
      lam "y''" (lam "y'''" (app (app arg (var "y''" 2)) (var "y'''" 1))) := by decide +kernel
  obtain ⟨renames, -⟩ := subst_renames_as_needed t "x" arg
  obtain ⟨-, unchanged⟩ := subst_renames_as_needed t "w" arg
  obtain ⟨binders, param', body', -, after, renamed_iff, fresh⟩ := renames _ _ _ found
  rw [result] at after
  cases after
  obtain ⟨clash, notName, occurs, -⟩ := renamed_iff.mp differs
  obtain ⟨-, notInArg, notVariable, notInBody⟩ := fresh differs
  exact ⟨found, differs, absent, result, clash, notName, occurs, notInArg, notVariable,
    notInBody, unchanged absent⟩

end Term

end LambdaWorkbench
