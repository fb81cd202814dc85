import LambdaWorkbench.Proofs.Nameless.Independence
import LambdaWorkbench.Proofs.Redex.Renaming

/-! # Reductions at independent addresses

A reduction may rename lambdas around a redex elsewhere in the term, where a definition is looked up
below them, but the reading there stays the same. So the other redex is still one of its kind, and
both can be reduced in either order. The two results may differ in the names of parameters.
-/

namespace LambdaWorkbench.Environment

variable {env : Environment} {t u v : Term} {a b : Address} {redex redex' : Redex}

theorem AlphaEq.refl (env : Environment) : env.AlphaEq env where
  limit := rfl
  defined name := by
    cases env.get? name with
    | none => exact .none
    | some term => exact .some (Term.alphaEq_iff_nameless.mpr rfl)

/-- What kind of redex is at an address depends on the reading there. -/
theorem classify_of_subterm?_eq (same : u.nameless.subterm? b = t.nameless.subterm? b)
    (h : env.classify t b = .ok (.ok redex)) : env.classify u b = .ok (.ok redex) := by
  obtain ⟨binders, sub, path, kind⟩ := Term.Path.of_classify h
  have found : t.nameless.subterm? b = some _ := path.subterm?_nameless []
  obtain ⟨binders', sub', path'⟩ := Term.Path.of_subterm?_nameless (same.trans found)
  have found' : u.nameless.subterm? b = some _ := path'.subterm?_nameless []
  have reads : sub.namelessIn binders.reverse = sub'.namelessIn binders'.reverse := by
    rw [same, found] at found'
    simpa using found'
  have alike := (AlphaEq.refl env).classifyBelow_alike reads
  rw [kind] at alike
  rw [path'.classify_eq]
  generalize env.classifyBelow binders' sub' = kind' at alike
  cases alike with
  | ok same => rw [same]

/-- A redex can be reduced, and its reduction is a step of the reading. -/
theorem exists_reduceAt_of_classify (h : env.classify t a = .ok (.ok redex)) :
    ∃ u, env.reduceAt t a = .ok (some u) ∧ env.rules.stepAt t.nameless a = some u.nameless := by
  obtain ⟨binders, sub, path, kind⟩ := Term.Path.of_classify h
  obtain ⟨u, -, reduced, -⟩ := path.reduceAt_of_redex kind
  exact ⟨u, reduced, by rw [stepAt_nameless, reduced]⟩

/-- **Independent reductions commute.** Of two redexes neither of which is in the other, each is
still a redex of its kind after the other has been reduced, and reducing both in one order or in the
other leads to the same term, up to the names of parameters. -/
theorem independent_reductions_commute (apart : a.Apart b)
    (first : env.classify t a = .ok (.ok redex)) (second : env.classify t b = .ok (.ok redex')) :
    ∃ u v w w', env.reduceAt t a = .ok (some u) ∧ env.reduceAt t b = .ok (some v) ∧
      env.classify u b = .ok (.ok redex') ∧ env.classify v a = .ok (.ok redex) ∧
      env.reduceAt u b = .ok (some w) ∧ env.reduceAt v a = .ok (some w') ∧
      w.alphaEq w' = true := by
  obtain ⟨u, reduced, step⟩ := exists_reduceAt_of_classify first
  obtain ⟨v, reduced', step'⟩ := exists_reduceAt_of_classify second
  have still := classify_of_subterm?_eq (Nameless.Rules.subterm?_of_stepAt apart step) second
  have still' :=
    classify_of_subterm?_eq (Nameless.Rules.subterm?_of_stepAt apart.symm step') first
  obtain ⟨w, last, reads⟩ := exists_reduceAt_of_classify still
  obtain ⟨w', last', reads'⟩ := exists_reduceAt_of_classify still'
  obtain ⟨s, meets, meets'⟩ := Nameless.Rules.stepAt_comm apart step step'
  have same : w.nameless = w'.nameless := by
    rw [reads] at meets
    rw [reads'] at meets'
    exact (Option.some.inj meets).trans (Option.some.inj meets').symm
  exact ⟨u, v, w, w', reduced, reduced', still, still', last, last',
    Term.alphaEq_iff_nameless.mpr same⟩

/-- `F` stands for `y` and is looked up below a lambda that binds `y`. The lambda is named `y''` as
long as `y'` stands in its body, and `y'` once the other redex has dropped it. -/
theorem independent_reductions_commute_renamed :
    let env := empty.insert "F" (.free "y")
    let below (param : String) (func arg : Term) : Term :=
      .lam param (.app (.app func (.var param 1)) arg)
    let beta : Term := .app (.lam "z" (.free "w")) (.free "y'")
    let t : Term := below "y" (.free "F") beta
    let a : Address := [.body, .func, .func]
    let b : Address := [.body, .arg]
    a.Apart b ∧ env.classify t a = .ok (.ok (.definition "F")) ∧
      env.classify t b = .ok (.ok .beta) ∧
      ∃ u v w w', env.reduceAt t a = .ok (some u) ∧ u = below "y''" (.free "y") beta ∧
        env.reduceAt t b = .ok (some v) ∧ v = below "y" (.free "F") (.free "w") ∧
        env.classify u b = .ok (.ok .beta) ∧ env.classify v a = .ok (.ok (.definition "F")) ∧
        env.reduceAt u b = .ok (some w) ∧ w = below "y''" (.free "y") (.free "w") ∧
        env.reduceAt v a = .ok (some w') ∧ w' = below "y'" (.free "y") (.free "w") ∧
        w.alphaEq w' = true := by
  intro env below beta t a b
  have apart : a.Apart b := by
    unfold Address.Apart
    decide
  have first : env.classify t a = .ok (.ok (.definition "F")) := rfl
  have second : env.classify t b = .ok (.ok .beta) := rfl
  have unique {result : Except AddressError (Option Term)} {x y : Term}
      (h : result = .ok (some x)) (h' : result = .ok (some y)) : x = y := by
    rw [h] at h'
    cases h'
    rfl
  obtain ⟨u, v, w, w', reduced, reduced', still, still', last, last', same⟩ :=
    independent_reductions_commute apart first second
  obtain rfl : u = below "y''" (.free "y") beta := unique reduced rfl
  obtain rfl : v = below "y" (.free "F") (.free "w") := unique reduced' (by decide +kernel)
  obtain rfl : w = below "y''" (.free "y") (.free "w") := unique last (by decide +kernel)
  obtain rfl : w' = below "y'" (.free "y") (.free "w") := unique last' rfl
  exact ⟨apart, first, second, _, _, _, _, reduced, rfl, reduced', rfl, still, still', last, rfl,
    last', rfl, same⟩

end LambdaWorkbench.Environment
