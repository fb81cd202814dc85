import LambdaWorkbench.Proofs.Term.Composition
import LambdaWorkbench.Proofs.Term.Indices

/-! # Equality up to names as equality of readings

The comparison goes through two terms at once and looks names up in two scopes, in which they may
be shadowed in different ways. What it decides is plain equality of two readings, each of one term
alone. So it is an equivalence that goes through lambdas and applications, and it is blind to
indices.
-/

namespace LambdaWorkbench

/-- The names of the free variables in the order of the text, with repetitions. -/
def Nameless.freeNames : Nameless → List String
  | bound _ => []
  | free name => [name]
  | lam body => body.freeNames
  | app func arg => func.freeNames ++ arg.freeNames

namespace Term

variable {t t' u u' : Term} {scope : List String}

/-! ## Readings -/

/-- Inside a scope the term reads as the nameless one: an occurrence is bound by the innermost
parameter of its name, at the distance to it, and otherwise it is free. -/
inductive ReadsAs : List String → Term → Nameless → Prop
  | bound {inner : List String} {name : String} (outer : List String) (index : Nat) :
      name ∉ inner → ReadsAs (inner ++ name :: outer) (var name index) (.bound (inner.length + 1))
  | free {scope : List String} {name : String} (index : Nat) :
      name ∉ scope → ReadsAs scope (var name index) (.free name)
  | lam {scope : List String} {param : String} {body : Term} {reading : Nameless} :
      ReadsAs (param :: scope) body reading → ReadsAs scope (lam param body) (.lam reading)
  | app {scope : List String} {func arg : Term} {left right : Nameless} :
      ReadsAs scope func left → ReadsAs scope arg right →
      ReadsAs scope (app func arg) (.app left right)

theorem namelessIn_var_bound {inner : List String} {name : String} (first : name ∉ inner)
    (outer : List String) (index : Nat) :
    (var name index).namelessIn (inner ++ name :: outer) = .bound (inner.length + 1) := by
  have mem : name ∈ name :: outer := List.mem_cons_self
  rw [namelessIn_var, if_pos (List.mem_append_right inner mem), scopeIndex_append, if_neg first,
    if_pos mem, scopeIndex_cons, if_pos rfl]

theorem readsAs_namelessIn (t : Term) (scope : List String) :
    ReadsAs scope t (t.namelessIn scope) := by
  induction t generalizing scope with
  | var name index =>
    by_cases mem : name ∈ scope
    · obtain ⟨inner, outer, rfl, first⟩ := List.eq_append_cons_of_mem mem
      rw [namelessIn_var_bound first]
      exact .bound outer index first
    · rw [namelessIn_var, if_neg mem]
      exact .free index mem
  | lam param body ih => exact .lam (ih (param :: scope))
  | app func arg ihf iha => exact .app (ihf scope) (iha scope)

/-- Every term has exactly one reading in a scope. -/
theorem readsAs_iff {reading : Nameless} :
    ReadsAs scope t reading ↔ t.namelessIn scope = reading := by
  constructor
  · intro h
    induction h with
    | bound outer index first => exact namelessIn_var_bound first outer index
    | free index absent => rw [namelessIn_var, if_neg absent]
    | lam _ ih => exact congrArg Nameless.lam ih
    | app _ _ ihf iha => exact congrArg₂ Nameless.app ihf iha
  · rintro rfl
    exact readsAs_namelessIn t scope

/-! ## Free names and indices -/

theorem freeNames_namelessIn (t : Term) (scope : List String) :
    (t.namelessIn scope).freeNames = t.freeVars.filter (· ∉ scope) := by
  induction t generalizing scope with
  | var name index =>
    rw [namelessIn_var]
    split
    · rename_i mem
      simp [Nameless.freeNames, freeVars, mem]
    · rename_i absent
      simp [Nameless.freeNames, freeVars, absent]
  | lam param body ih =>
    rw [namelessIn, Nameless.freeNames, ih, freeVars, List.filter_filter]
    refine List.filter_congr fun name _ => ?_
    simp [Bool.and_comm]
  | app func arg ihf iha =>
    rw [namelessIn, Nameless.freeNames, ihf, iha, freeVars, List.filter_append]

/-- The free names of the reading of a term are those of the term. -/
theorem freeNames_nameless (t : Term) : t.nameless.freeNames = t.freeVars := by
  rw [nameless, freeNames_namelessIn]
  simp

theorem nameless_eq_of_unindexed (h : t.unindexed = t'.unindexed) : t.nameless = t'.nameless := by
  rw [← nameless_reindex t, reindex_eq_of_unindexed h, nameless_reindex]

/-- **Equality up to names is equality of readings.** Each term has one reading, in which a bound
occurrence is the distance to the innermost parameter of its name, and two terms are equal up to
the names of parameters exactly when their readings are equal. Hence this is an equivalence, and
applications and lambdas of one parameter keep it. It does not see indices, and terms that are equal
up to names have the same free names, in the same order. -/
theorem alphaEq_decides_reading :
    (∀ (t : Term) reading, ReadsAs [] t reading ↔ t.nameless = reading) ∧
    (∀ t u : Term, t.alphaEq u = true ↔ t.nameless = u.nameless) ∧
    Equivalence (fun t u : Term => t.alphaEq u = true) ∧
    (∀ func func' arg arg' : Term, func.alphaEq func' = true → arg.alphaEq arg' = true →
      (app func arg).alphaEq (app func' arg') = true) ∧
    (∀ param (body body' : Term), body.alphaEq body' = true →
      (lam param body).alphaEq (lam param body') = true) ∧
    (∀ t t' u u' : Term, t.unindexed = t'.unindexed → u.unindexed = u'.unindexed →
      t.alphaEq u = t'.alphaEq u') ∧
    (∀ t : Term, t.alphaEq t.reindex = true) ∧
    ∀ t u : Term, t.alphaEq u = true → t.freeVars = u.freeVars := by
  refine ⟨fun _ _ => readsAs_iff, fun _ _ => alphaEq_iff_nameless, ⟨?_, ?_, ?_⟩, ?_, ?_, ?_, ?_, ?_⟩
  · intro t
    exact alphaEq_iff_nameless.mpr rfl
  · intro t u same
    exact alphaEq_iff_nameless.mpr (alphaEq_iff_nameless.mp same).symm
  · intro t u v same same'
    exact alphaEq_iff_nameless.mpr
      ((alphaEq_iff_nameless.mp same).trans (alphaEq_iff_nameless.mp same'))
  · intro func func' arg arg' funcs args
    exact alphaEq_iff_nameless.mpr (congrArg₂ Nameless.app (alphaEq_iff_nameless.mp funcs)
      (alphaEq_iff_nameless.mp args))
  · intro param body body' bodies
    have below : body.namelessIn [param] = body'.namelessIn [param] :=
      namelessIn_append_congr rfl (alphaEq_iff_nameless.mp bodies) [param]
    exact alphaEq_iff_nameless.mpr (congrArg Nameless.lam below)
  · intro t t' u u' same same'
    rw [Bool.eq_iff_iff, alphaEq_iff_nameless, alphaEq_iff_nameless, nameless_eq_of_unindexed same,
      nameless_eq_of_unindexed same']
  · intro t
    exact alphaEq_iff_nameless.mpr (nameless_reindex t).symm
  · intro t u same
    rw [← freeNames_nameless t, ← freeNames_nameless u, alphaEq_iff_nameless.mp same]

/-- In `λx.λy.λx.x y z` the middle occurrence is two lambdas away, and the first parameter binds
nothing; a different shadowing with the same distances makes no difference. -/
theorem alphaEq_decides_reading_shadowed :
    let t : Term := lam "x" (lam "y" (lam "x" (app (app (var "x" 7) (var "y" 0)) (free "z"))))
    let u : Term := lam "p" (lam "p" (lam "q" (app (app (var "q" 1) (var "p" 2)) (free "z"))))
    let reading : Nameless := .lam (.lam (.lam (.app (.app (.bound 1) (.bound 2)) (.free "z"))))
    ReadsAs [] t reading ∧ t.alphaEq u = true ∧ u.alphaEq t = true ∧
      u.alphaEq t.reindex = true ∧ (app t u).alphaEq (app u t) = true ∧
      (lam "z" t).alphaEq (lam "z" u) = true ∧
      t.unindexed.alphaEq u.unindexed = t.alphaEq u ∧ t.freeVars = u.freeVars := by
  intro t u reading
  have same : t.alphaEq u = true := by decide +kernel
  obtain ⟨reads, -, equivalence, applied, abstracted, blind, indexed, free⟩ :=
    alphaEq_decides_reading
  have back : u.alphaEq t = true := equivalence.symm same
  exact ⟨(reads t reading).mpr (by decide +kernel), same, back,
    equivalence.trans back (indexed t), applied t u u t same back, abstracted "z" t u same,
    blind _ _ _ _ (by decide +kernel) (by decide +kernel), free t u same⟩

end Term

end LambdaWorkbench
