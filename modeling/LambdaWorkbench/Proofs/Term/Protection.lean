import LambdaWorkbench.Proofs.Term.Freeness
import LambdaWorkbench.Proofs.Term.Parameters

/-! # Protected paths

Before a definition is put at the end of a path, the lambdas on the path that would bind one of its
free names get other parameters. Each of these renamings changes the rest of the path before the
walk goes on along it, but it neither moves a lambda nor touches a parameter inside. So the lambdas
on the path can be looked at one by one: each parameter is as it was, or it was one of the names and
has become fresh.
-/

namespace LambdaWorkbench.Term

variable {t body : Term} {param param' : String} {avoid binders : List String}
  {steps address : Address}

/-! ## Shape -/

theorem fits_unnamed (t : Term) (step : Step) : t.unnamed.fits step = t.fits step := by
  cases t <;> cases step <;> rfl

theorem subtermFrom_unnamed (t : Term) (address : Address) (depth : Nat) :
    subtermFrom depth address t.unnamed = (subtermFrom depth address t).map unnamed := by
  induction address generalizing t depth with
  | nil => cases t <;> rfl
  | cons step rest ih =>
    cases fit : t.fits step with
    | false =>
      rw [(error_of_not_fits fit rest depth).1,
        (error_of_not_fits ((fits_unnamed t step).trans fit) rest depth).1]
      rfl
    | true =>
      match t, step, fit with
      | app func arg, .func, _ => exact ih func (depth + 1)
      | lam param body, .body, _ => exact ih body (depth + 1)
      | app func arg, .arg, _ => exact ih arg (depth + 1)

theorem subterm_unnamed (t : Term) (address : Address) :
    t.unnamed.subterm address = (t.subterm address).map unnamed := by
  rw [subterm, subterm, subtermFrom_unnamed]
  cases subtermFrom 0 address t <;> rfl

theorem unnamed_protect (avoid : List String) (steps : Address) (t : Term) :
    (t.protect avoid steps).unnamed = t.unnamed := by
  fun_induction protect avoid steps t with
  | case1 steps param body clash fresh =>
    rename_i ih
    rw [unnamed, ih, unnamed_renameFree, unnamed]
  | case2 steps param body noClash ih => rw [unnamed, ih, unnamed]
  | case3 steps func arg ih => rw [unnamed, ih, unnamed]
  | case4 steps func arg ih => rw [unnamed, ih, unnamed]
  | case5 => rfl

/-! ## Lambdas on the path -/

/-- The steps go through the lambda at this address, into its body. -/
def Crosses (steps address : Address) : Prop :=
  address.child .body <+: steps

theorem crosses_root (steps : Address) : Crosses (.body :: steps) [] :=
  List.prefix_append [Step.body] steps

theorem crosses_cons {step step' : Step} :
    Crosses (step :: steps) (step' :: address) ↔ step' = step ∧ Crosses steps address :=
  List.cons_prefix_cons

/-- The parameter `param'` that protection of a path for the names `avoid` makes of `param`. On the
path it is none of the names, and another one it is only on the path, for one of the names. -/
structure Guarded (avoid : List String) (steps address : Address) (param param' : String) :
    Prop where
  apart : Crosses steps address → param' ∉ avoid
  kept : ¬ (Crosses steps address ∧ param ∈ avoid) → param' = param

theorem Guarded.cons (h : Guarded avoid steps address param param') (step : Step) :
    Guarded avoid (step :: steps) (step :: address) param param' where
  apart crossed := h.apart (crosses_cons.mp crossed).2
  kept other := h.kept fun ⟨crossed, mem⟩ => other ⟨crosses_cons.mpr ⟨rfl, crossed⟩, mem⟩

theorem guarded_of_not_crosses (off : ¬ Crosses steps address) :
    Guarded avoid steps address param param :=
  ⟨fun crossed => absurd crossed off, fun _ => rfl⟩

/-- A lambda stays where it is, and its parameter is guarded. -/
theorem Path.protect_lam (h : Path t address binders (lam param body)) (avoid : List String)
    (steps : Address) :
    ∃ binders' param' body',
      Path (t.protect avoid steps) address binders' (lam param' body') ∧
        Guarded avoid steps address param param' := by
  fun_induction Term.protect avoid steps t generalizing address binders param body with
  | case1 steps first inner clash fresh =>
    rename_i ih
    have unused : fresh ∉ avoid := fun mem =>
      freshName_not_mem first (inner.names ++ avoid) (List.mem_append_right _ mem)
    obtain - | - | inBody | - := h
    · exact ⟨[], fresh, _, .root _, fun _ => unused,
        fun other => absurd ⟨crosses_root steps, clash⟩ other⟩
    · -- the walk goes on in the renamed body, where the lambda still is
      obtain ⟨body', renamed⟩ :
          ∃ body', Path (inner.renameFree first fresh) _ _ (lam param body') :=
        (inBody.renameFree_lam first fresh).elim (⟨_, ·⟩) (⟨_, ·⟩)
      obtain ⟨binders', param', body', path, guarded⟩ := ih renamed
      exact ⟨_, param', body', .body path, guarded.cons .body⟩
  | case2 steps first inner noClash ih =>
    obtain - | - | inBody | - := h
    · exact ⟨[], first, _, .root _, fun _ => noClash, fun _ => rfl⟩
    · obtain ⟨binders', param', body', path, guarded⟩ := ih inBody
      exact ⟨_, param', body', .body path, guarded.cons .body⟩
  | case3 steps func arg ih =>
    obtain - | inFunc | - | inArg := h
    · obtain ⟨binders', param', body', path, guarded⟩ := ih inFunc
      exact ⟨_, param', body', .func path, guarded.cons .func⟩
    · exact ⟨_, param, body, .arg inArg, guarded_of_not_crosses (by simp [crosses_cons])⟩
  | case4 steps func arg ih =>
    obtain - | inFunc | - | inArg := h
    · exact ⟨_, param, body, .func inFunc, guarded_of_not_crosses (by simp [crosses_cons])⟩
    · obtain ⟨binders', param', body', path, guarded⟩ := ih inArg
      exact ⟨_, param', body', .arg path, guarded.cons .arg⟩
  | case5 steps t notBody notFunc notArg =>
    -- the steps do not lead on from here
    refine ⟨binders, param, body, h, guarded_of_not_crosses ?_⟩
    rintro ⟨rest, rfl⟩
    cases h with
    | root t => exact notBody _ _ _ rfl rfl
    | func _ => exact notFunc _ _ _ rfl rfl
    | body _ => exact notBody _ _ _ rfl rfl
    | arg _ => exact notArg _ _ _ rfl rfl

/-- **Protection changes names only.** A term with a protected path equals the term up to the names
of parameters and has the same shape, so an address leads to parts of one shape in both, or fails in
both alike. Every lambda stays where it is. Its parameter is another one exactly if the lambda is
crossed on the path and its parameter was one of the protected names, and no crossed lambda has such
a parameter in the end. So if the steps are an address of the term, they still are, and lead past
none of the names. -/
theorem protection_changes_names_only (t : Term) (avoid : List String) (steps : Address) :
    (t.protect avoid steps).alphaEq t = true ∧
    (t.protect avoid steps).unnamed = t.unnamed ∧
    (∀ address, ((t.protect avoid steps).subterm address).map unnamed =
      (t.subterm address).map unnamed) ∧
    (∀ address param body, t.subterm address = .ok (lam param body) →
      ∃ param' body', (t.protect avoid steps).subterm address = .ok (lam param' body') ∧
        (Crosses steps address → param' ∉ avoid) ∧
        (param' ≠ param ↔ Crosses steps address ∧ param ∈ avoid)) ∧
    ∀ sub, t.subterm steps = .ok sub →
      ∃ binders, (t.protect avoid steps).bindersAlong steps = .ok binders ∧
        ∀ name ∈ avoid, name ∉ binders := by
  refine ⟨?_, unnamed_protect avoid steps t, ?_, ?_, ?_⟩
  · exact alphaEq_iff_nameless.mpr (namelessIn_protect avoid steps t [])
  · intro address
    rw [← subterm_unnamed, unnamed_protect, subterm_unnamed]
  · intro address param body found
    obtain ⟨binders, path⟩ := Path.of_subterm found
    obtain ⟨_, param', body', after, guarded⟩ := path.protect_lam avoid steps
    refine ⟨param', body', after.subterm_eq, guarded.apart, fun differs => ?_, ?_⟩
    · exact Classical.not_not.mp fun other => differs (guarded.kept other)
    · rintro ⟨crossed, mem⟩ rfl
      exact guarded.apart crossed mem
  · intro sub found
    obtain ⟨binders, path⟩ := Path.of_subterm found
    obtain ⟨binders', _, after, apart⟩ := path.protect avoid
    exact ⟨binders', after.bindersAlong_eq, apart⟩

/-- In `λx.(λx'.λx.x x' y) (λx.x)` the path crosses three lambdas, two of them with the protected
name. The outer one gets two primes, as its body has `x'`; the last lambda is off the path. -/
theorem protection_changes_names_only_repeated :
    let idle : Term := lam "x" (var "x" 1)
    let last (param : String) : Term := lam param (app (app (var param 1) (var "x'" 2)) (free "y"))
    let t : Term := lam "x" (app (lam "x'" (last "x")) idle)
    let u : Term := lam "x''" (app (lam "x'" (last "x''")) idle)
    let steps : Address := [.body, .func, .body, .body, .arg]
    t.protect ["x"] steps = u ∧ u.alphaEq t = true ∧ u.unnamed = t.unnamed ∧
      t.subterm [.body, .func, .body] = .ok (last "x") ∧
      Crosses steps [.body, .func, .body] ∧
      u.subterm [.body, .func, .body] = .ok (last "x''") ∧ "x''" ∉ ["x"] ∧ "x''" ≠ "x" ∧
      t.subterm [.body, .arg] = .ok idle ∧ u.subterm [.body, .arg] = .ok idle ∧
      t.subterm steps = .ok (free "y") ∧ u.bindersAlong steps = .ok ["x''", "x'", "x''"] ∧
      "x" ∉ ["x''", "x'", "x''"] := by
  intro idle last t u steps
  obtain ⟨alpha, shape, -, lambdas, path⟩ := protection_changes_names_only t ["x"] steps
  have result : t.protect ["x"] steps = u := by decide +kernel
  have found : t.subterm [.body, .func, .body] = .ok (last "x") := rfl
  have crossed : Crosses steps [.body, .func, .body] := ⟨[.arg], rfl⟩
  rw [result] at alpha shape lambdas path
  obtain ⟨param, body, after, apart, renamed⟩ := lambdas _ _ _ found
  cases after
  obtain ⟨binders, crossing, none⟩ := path _ rfl
  cases crossing
  exact ⟨result, alpha, shape, found, crossed, rfl, apart crossed,
    renamed.mpr ⟨crossed, List.mem_singleton.mpr rfl⟩, rfl, rfl, rfl, rfl,
    none "x" (List.mem_singleton.mpr rfl)⟩

end LambdaWorkbench.Term
