import Mathlib.Logic.Basic
import LambdaWorkbench.Proofs.Nameless.Substitution
import LambdaWorkbench.Term.Substitution

/-! # What operations on terms read as

Terms bind by name, and two routines rename lambdas on the way. Read without names, a renaming
changes nothing and a substitution is the one on distances. The lemmas carry a list of lambdas
`inner` that were crossed since the place of interest, in front of the scope of that place.
-/

namespace LambdaWorkbench

/-! ## Scopes -/

theorem scopeIndex_cons (param : String) (scope : List String) (name : String) :
    scopeIndex (param :: scope) name =
      if param = name then 1
      else if scopeIndex scope name = 0 then 0 else scopeIndex scope name + 1 := by
  simp only [scopeIndex, List.idxOf?_cons, beq_iff_eq]
  by_cases same : param = name
  · rw [if_pos same, if_pos same]
  · rw [if_neg same, if_neg same]
    obtain absent | ⟨place, present⟩ := (scope.idxOf? name).eq_none_or_eq_some
    · simp [absent]
    · simp [present]

theorem scopeIndex_eq_zero_iff (scope : List String) (name : String) :
    scopeIndex scope name = 0 ↔ name ∉ scope := by
  rw [← List.idxOf?_eq_none_iff, scopeIndex]
  cases scope.idxOf? name <;> simp

theorem scopeIndex_le_length (scope : List String) (name : String) :
    scopeIndex scope name ≤ scope.length := by
  induction scope with
  | nil => exact Nat.le_refl 0
  | cons param rest ih =>
    rw [scopeIndex_cons, List.length_cons]
    split_ifs <;> omega

theorem scopeIndex_append (inner outer : List String) (name : String) :
    scopeIndex (inner ++ outer) name =
      if name ∈ inner then scopeIndex inner name
      else if name ∈ outer then inner.length + scopeIndex outer name else 0 := by
  have inOuter := scopeIndex_eq_zero_iff outer name
  induction inner with
  | nil => grind
  | cons param rest ih =>
    have inRest := scopeIndex_eq_zero_iff rest name
    simp only [List.cons_append, scopeIndex_cons, ih]
    grind

namespace Term

theorem namelessIn_var (scope : List String) (name : String) (index : Nat) :
    (var name index).namelessIn scope =
      if name ∈ scope then .bound (scopeIndex scope name) else .free name := by
  rw [namelessIn, scopeIndex]
  cases h : scope.idxOf? name with
  | none => rw [if_neg (List.idxOf?_eq_none_iff.mp h)]
  | some place => rw [if_pos (List.isSome_idxOf?.mp (by rw [h]; rfl))]

/-- Only the places of the free names matter. -/
theorem namelessIn_congr {t : Term} {scope scope' : List String}
    (h : ∀ name ∈ t.freeVars, scopeIndex scope name = scopeIndex scope' name) :
    t.namelessIn scope = t.namelessIn scope' := by
  induction t generalizing scope scope' with
  | var name index =>
    have same := h name (List.mem_singleton.mpr rfl)
    have bothIn : name ∈ scope ↔ name ∈ scope' := by
      rw [← not_iff_not, ← scopeIndex_eq_zero_iff, ← scopeIndex_eq_zero_iff, same]
    simp only [namelessIn_var, bothIn, same]
  | lam param body ih =>
    refine congrArg Nameless.lam (ih fun name inBody => ?_)
    by_cases eq : param = name
    · simp only [scopeIndex_cons, if_pos eq]
    · have free : name ∈ (lam param body).freeVars :=
        List.mem_filter.mpr ⟨inBody, by simpa using Ne.symm eq⟩
      simp only [scopeIndex_cons, h name free]
  | app func arg ihf iha =>
    exact congrArg₂ Nameless.app (ihf fun name mem => h name (List.mem_append_left _ mem))
      (iha fun name mem => h name (List.mem_append_right _ mem))

/-- A term whose free names are not in a scope reads there as it does alone. -/
theorem namelessIn_eq_nameless {t : Term} {scope : List String}
    (h : ∀ name ∈ t.freeVars, name ∉ scope) : t.namelessIn scope = t.nameless :=
  namelessIn_congr fun name mem => ((scopeIndex_eq_zero_iff scope name).mpr (h name mem)).trans rfl

theorem freeVars_iterated {name : String} {n : Nat} (h : name ∈ (iterated n).freeVars) :
    name = "f" ∨ name = "x" := by
  induction n with
  | zero => exact .inr (List.mem_singleton.mp h)
  | succ n ih =>
    rcases List.mem_append.mp h with head | rest
    · exact .inl (List.mem_singleton.mp head)
    · exact ih rest

@[simp] theorem freeVars_church (n : Nat) : (church n).freeVars = [] := by
  refine List.eq_nil_iff_forall_not_mem.mpr fun name mem => ?_
  simp only [church, freeVars, List.mem_filter, decide_eq_true_eq] at mem
  obtain ⟨⟨inBody, notX⟩, notF⟩ := mem
  exact (freeVars_iterated inBody).elim notF notX

theorem closedUnder_namelessIn (t : Term) (scope : List String) :
    (t.namelessIn scope).ClosedUnder scope.length := by
  induction t generalizing scope with
  | var name index =>
    rw [namelessIn_var]
    split
    · exact scopeIndex_le_length scope name
    · trivial
  | lam param body ih => exact ih (param :: scope)
  | app func arg ihf iha => exact ⟨ihf scope, iha scope⟩

/-- One more lambda around a term that does not use it. -/
theorem namelessIn_insert {t : Term} {name : String} (inner : List String)
    (unused : name ∈ t.freeVars → name ∈ inner) (outer : List String) :
    t.namelessIn (inner ++ name :: outer) = (t.namelessIn (inner ++ outer)).shift inner.length := by
  induction t generalizing inner with
  | var occurring index =>
    have other : occurring ∉ inner → occurring ≠ name := by
      rintro notIn rfl
      exact notIn (unused (List.mem_singleton.mpr rfl))
    have short := scopeIndex_le_length inner occurring
    have positive := scopeIndex_eq_zero_iff outer occurring
    have longer := scopeIndex_cons name outer occurring
    simp only [namelessIn_var, scopeIndex_append]
    grind [Nameless.shift]
  | lam param body ih =>
    refine congrArg Nameless.lam (ih (param :: inner) fun inBody => ?_)
    by_cases eq : name = param
    · exact eq ▸ List.mem_cons_self
    · exact List.mem_cons_of_mem _ (unused (List.mem_filter.mpr ⟨inBody, by simpa using eq⟩))
  | app func arg ihf iha =>
    exact congrArg₂ Nameless.app (ihf inner fun mem => unused (List.mem_append_left _ mem))
      (iha inner fun mem => unused (List.mem_append_right _ mem))

/-- A lambda that a term does not use can go. -/
theorem namelessIn_subst_unused {t : Term} {name : String} (inner : List String)
    (unused : name ∈ t.freeVars → name ∈ inner) (outer : List String) (v : Nameless) :
    (t.namelessIn (inner ++ name :: outer)).subst inner.length v =
      t.namelessIn (inner ++ outer) := by
  rw [namelessIn_insert inner unused, Nameless.subst_shift]

/-! ## Renaming -/

theorem namelessIn_renameFree {t : Term} {old new : String} (fresh : new ∉ t.names)
    (inner : List String) (oldFree : old ∉ inner) (newFree : new ∉ inner) (outer : List String) :
    (t.renameFree old new).namelessIn (inner ++ new :: outer) =
      t.namelessIn (inner ++ old :: outer) := by
  induction t generalizing inner with
  | var name index =>
    have other : name ≠ new := fun eq => fresh (List.mem_singleton.mpr eq.symm)
    rw [renameFree]
    split <;> simp only [namelessIn_var, scopeIndex_append, scopeIndex_cons] <;> grind
  | lam param body ih =>
    have inBody : new ∉ body.names := fun mem => fresh (List.mem_cons_of_mem _ mem)
    rw [renameFree]
    split
    · -- the parameter hides the old name, so the body is as it was and uses neither lambda
      rename_i same
      refine congrArg Nameless.lam (namelessIn_congr fun name mem => ?_)
      have other : name ≠ new := fun eq => inBody (eq ▸ mem_names_of_mem_freeVars mem)
      simp only [scopeIndex_append, scopeIndex_cons]
      grind
    · rename_i differ
      have newOther : new ≠ param := fun eq => fresh (eq ▸ List.mem_cons_self)
      exact congrArg Nameless.lam (ih inBody (param :: inner)
        (List.not_mem_cons_of_ne_of_not_mem (Ne.symm differ) oldFree)
        (List.not_mem_cons_of_ne_of_not_mem newOther newFree))
  | app func arg ihf iha =>
    rw [names, List.mem_append, not_or] at fresh
    exact congrArg₂ Nameless.app (ihf fresh.1 inner oldFree newFree)
      (iha fresh.2 inner oldFree newFree)

/-- Renaming the parameter of a lambda to a name that its body does not have. -/
theorem namelessIn_lam_renameFree {body : Term} {param fresh : String}
    (notUsed : fresh ∉ body.names) (scope : List String) :
    (lam fresh (body.renameFree param fresh)).namelessIn scope =
      (lam param body).namelessIn scope :=
  congrArg Nameless.lam (namelessIn_renameFree notUsed [] List.not_mem_nil List.not_mem_nil scope)

/-! ## Substitution -/

/-- One more lambda that binds none of some names. -/
theorem forall_not_mem_cons {free inner : List String} {param : String} (notFree : param ∉ free)
    (apart : ∀ name ∈ free, name ∉ inner) : ∀ name ∈ free, name ∉ param :: inner := by
  intro name mem
  refine List.not_mem_cons_of_ne_of_not_mem ?_ (apart name mem)
  rintro rfl
  exact notFree mem

/-- Without an occurrence nothing is renamed, and the term stays as it is. -/
theorem substIn_of_not_hasFree {name : String} {t : Term} (arg : Term) (argFree : List String)
    (h : t.hasFree name = false) : substIn name arg argFree t = t := by
  induction t with
  | var occurring index =>
    have other : occurring ≠ name := by simpa [hasFree] using h
    rw [substIn, if_neg other]
  | lam param body ih =>
    rw [substIn]
    split
    · rfl
    · rename_i differ
      have absent : body.hasFree name = false := by simpa [hasFree, differ] using h
      rw [if_neg (by simp [absent]), ih absent]
  | app func right ihf iha =>
    rw [hasFree, Bool.or_eq_false_iff] at h
    rw [substIn, ihf h.1, iha h.2]

/-- A lambda that the free names of the argument do not meet is passed by the substitution. -/
theorem subst_namelessIn_lam {param : String} {body arg : Term} {name : String}
    {inner : List String} (apart : param ∉ arg.freeVars) (outer : List String) :
    ((lam param body).namelessIn (inner ++ name :: outer)).subst inner.length
        (arg.namelessIn (inner ++ outer)) =
      .lam ((body.namelessIn (param :: inner ++ name :: outer)).subst (inner.length + 1)
        (arg.namelessIn (param :: inner ++ outer))) := by
  have lifted : arg.namelessIn (param :: (inner ++ outer)) =
      (arg.namelessIn (inner ++ outer)).shift 0 :=
    namelessIn_insert [] (fun mem => absurd mem apart) (inner ++ outer)
  rw [List.cons_append, List.cons_append, lifted]
  rfl

/-- Substitution by names reads as substitution by distance, below lambdas that the free names of
the argument do not meet. -/
theorem namelessIn_substIn {t arg : Term} {name : String} (inner : List String)
    (notBound : name ∉ inner) (apart : ∀ free ∈ arg.freeVars, free ∉ inner)
    (outer : List String) :
    (substIn name arg arg.freeVars t).namelessIn (inner ++ outer) =
      (t.namelessIn (inner ++ name :: outer)).subst inner.length
        (arg.namelessIn (inner ++ outer)) := by
  generalize argFree : arg.freeVars = free at *
  fun_induction substIn name arg free t generalizing inner with
  | case1 index =>
    have tooFar : ¬ inner.length + 1 ≤ inner.length := by omega
    simp [namelessIn_var, scopeIndex_append, scopeIndex_cons, notBound, Nameless.subst, tooFar]
  | case2 occurring index other =>
    refine (namelessIn_subst_unused inner (fun mem => ?_) outer _).symm
    exact absurd (List.mem_singleton.mp mem).symm other
  | case3 func right ihf iha =>
    exact congrArg₂ Nameless.app (ihf inner notBound apart) (iha inner notBound apart)
  | case4 body =>
    exact congrArg Nameless.lam (namelessIn_subst_unused (name :: inner)
      (fun _ => List.mem_cons_self) outer _).symm
  | case5 param body differ clash fresh =>
    rename_i ih
    have notUsed : fresh ∉ body.names ++ free ++ [name] := freshName_not_mem param _
    simp only [List.mem_append, List.mem_singleton, not_or] at notUsed
    obtain ⟨⟨notInBody, notInArg⟩, notName⟩ := notUsed
    rw [← namelessIn_lam_renameFree notInBody, subst_namelessIn_lam (argFree ▸ notInArg)]
    exact congrArg Nameless.lam (ih (fresh :: inner)
      (List.not_mem_cons_of_ne_of_not_mem (Ne.symm notName) notBound)
      (forall_not_mem_cons notInArg apart))
  | case6 param body differ noClash ih =>
    by_cases occurs : body.hasFree name = true
    · have notInArg : param ∉ free := fun mem => noClash ⟨mem, occurs⟩
      rw [subst_namelessIn_lam (argFree ▸ notInArg)]
      exact congrArg Nameless.lam (ih (param :: inner)
        (List.not_mem_cons_of_ne_of_not_mem (Ne.symm differ) notBound)
        (forall_not_mem_cons notInArg apart))
    · rw [substIn_of_not_hasFree arg free (Bool.eq_false_iff.mpr occurs)]
      refine (namelessIn_subst_unused inner (fun mem => ?_) outer _).symm
      exact absurd (hasFree_iff_mem_freeVars.mpr (List.mem_filter.mp mem).1) occurs

/-- The body of an applied lambda, with the argument for the parameter, reads as the contraction
by distance. -/
theorem namelessIn_subst (body arg : Term) (param : String) (scope : List String) :
    (body.subst param arg).namelessIn scope =
      (body.namelessIn (param :: scope)).contract (arg.namelessIn scope) :=
  namelessIn_substIn [] List.not_mem_nil (fun _ _ => List.not_mem_nil) scope

/-! ## Equality up to the names of parameters -/

theorem alphaEqIn_iff {t u : Term} {scope scope' : List String} :
    alphaEqIn scope scope' t u = true ↔ t.namelessIn scope = u.namelessIn scope' := by
  induction t generalizing u scope scope' with
  | var name index =>
    cases u with
    | var name' index' =>
      have zero := scopeIndex_eq_zero_iff scope name
      have zero' := scopeIndex_eq_zero_iff scope' name'
      simp only [alphaEqIn, namelessIn_var]
      grind
    | lam param body | app func arg =>
      simp only [alphaEqIn, namelessIn_var]
      grind [namelessIn]
  | lam param body ih =>
    cases u with
    | var name index => simp only [alphaEqIn, namelessIn_var]; grind [namelessIn]
    | lam param' body' => simp only [alphaEqIn, namelessIn, ih, Nameless.lam.injEq]
    | app func arg => simp [alphaEqIn, namelessIn]
  | app func arg ihf iha =>
    cases u with
    | var name index => simp only [alphaEqIn, namelessIn_var]; grind [namelessIn]
    | lam param body => simp [alphaEqIn, namelessIn]
    | app func' arg' => simp only [alphaEqIn, namelessIn, Bool.and_eq_true, ihf, iha,
        Nameless.app.injEq]

/-- Terms are equal up to the names of parameters when they read the same. -/
theorem alphaEq_iff_nameless {t u : Term} : t.alphaEq u = true ↔ t.nameless = u.nameless :=
  alphaEqIn_iff

/-! ## Indices -/

@[simp] theorem namelessIn_reindexIn (t : Term) (scope scope' : List String) :
    (t.reindexIn scope).namelessIn scope' = t.namelessIn scope' := by
  induction t generalizing scope scope' with
  | var name index => rfl
  | lam param body ih => simp only [reindexIn, namelessIn, ih]
  | app func arg ihf iha => simp only [reindexIn, namelessIn, ihf, iha]

@[simp] theorem nameless_reindex (t : Term) : t.reindex.nameless = t.nameless :=
  namelessIn_reindexIn t [] []

@[simp] theorem freeVars_reindexIn (t : Term) (scope : List String) :
    (t.reindexIn scope).freeVars = t.freeVars := by
  induction t generalizing scope with
  | var name index => rfl
  | lam param body ih => simp only [reindexIn, freeVars, ih]
  | app func arg ihf iha => simp only [reindexIn, freeVars, ihf, iha]

theorem reindexIn_reindexIn (t : Term) (scope scope' : List String) :
    (t.reindexIn scope).reindexIn scope' = t.reindexIn scope' := by
  induction t generalizing scope scope' with
  | var name index => rfl
  | lam param body ih => simp only [reindexIn, ih]
  | app func arg ihf iha => simp only [reindexIn, ihf, iha]

@[simp] theorem reindex_reindex (t : Term) : t.reindex.reindex = t.reindex :=
  reindexIn_reindexIn t [] []

end Term

end LambdaWorkbench
