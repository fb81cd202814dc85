import LambdaWorkbench.Proofs.Term.Reading

/-! # Composition of substitutions

Two substitutions for different names can change places, if the second argument goes into the first
one as well. The two sides may rename different lambdas, and to different names, so they are only
equal up to the names of parameters. Both read as substitutions by distance, which do compose; and
a reading that does not depend on parameters is all that a substitution uses of its terms.
-/

namespace LambdaWorkbench.Term

variable {t u t' arg arg' : Term} {name : String} {inner inner' : List String}

/-- Terms that read the same below some lambdas still do below further lambdas around these. -/
theorem namelessIn_append_congr (length : inner.length = inner'.length)
    (same : t.namelessIn inner = u.namelessIn inner') (outer : List String) :
    t.namelessIn (inner ++ outer) = u.namelessIn (inner' ++ outer) := by
  induction t generalizing u inner inner' with
  | var occurring index =>
    cases u with
    | var other index' =>
      simp only [namelessIn_var, scopeIndex_append, List.mem_append] at same ⊢
      grind
    | lam param body | app func right =>
      rw [namelessIn_var] at same
      split at same <;> cases same
  | lam param body ih =>
    cases u with
    | var other index =>
      rw [namelessIn_var] at same
      split at same <;> cases same
    | lam param' body' =>
      have inBodies : (param :: inner).length = (param' :: inner').length :=
        congrArg Nat.succ length
      exact congrArg Nameless.lam (ih inBodies (Nameless.lam.inj same))
    | app func right => cases same
  | app func right ihf iha =>
    cases u with
    | var other index =>
      rw [namelessIn_var] at same
      split at same <;> cases same
    | lam param body => cases same
    | app func' right' =>
      obtain ⟨funcs, rights⟩ := Nameless.app.inj same
      exact congrArg₂ Nameless.app (ihf length funcs) (iha length rights)

/-- A substitution does not depend on the parameters in its two terms. -/
theorem nameless_subst_congr (same : t.nameless = t'.nameless)
    (sameArg : arg.nameless = arg'.nameless) (name : String) :
    (t.subst name arg).nameless = (t'.subst name arg').nameless := by
  have bodies : t.namelessIn [name] = t'.namelessIn [name] :=
    namelessIn_append_congr rfl same [name]
  rw [nameless, nameless, namelessIn_subst, namelessIn_subst, bodies]
  exact congrArg _ sameArg

/-- A substitution below a lambda that meets neither the variable nor the argument. -/
theorem namelessIn_subst_below {x y : String} {b : Term} (differ : x ≠ y)
    (apart : x ∉ b.freeVars) (t : Term) :
    (t.subst y b).namelessIn [x] = (t.namelessIn [x, y]).subst 1 (b.nameless.shift 0) := by
  have lifted : b.namelessIn [x] = b.nameless.shift 0 :=
    namelessIn_insert [] (fun mem => absurd mem apart) []
  have notBound : y ∉ [x] := fun mem => differ (List.mem_singleton.mp mem).symm
  have below : (t.subst y b).namelessIn ([x] ++ []) =
      (t.namelessIn ([x] ++ y :: [])).subst 1 (b.namelessIn ([x] ++ [])) :=
    namelessIn_substIn [x] notBound (forall_not_mem_cons apart fun _ _ => List.not_mem_nil) []
  rw [List.append_nil, lifted] at below
  exact below

/-- The two orders of two substitutions read the same. -/
theorem nameless_subst_comm {x y : String} {b : Term} (differ : x ≠ y) (apart : x ∉ b.freeVars)
    (t a : Term) :
    ((t.subst x a).subst y b).nameless = ((t.subst y b).subst x (a.subst y b)).nameless :=
  calc ((t.subst x a).subst y b).nameless
    _ = ((t.namelessIn [x, y]).subst 0 (a.namelessIn [y])).subst 0 b.nameless := by
      rw [nameless, namelessIn_subst, namelessIn_subst]
      rfl
    _ = ((t.namelessIn [x, y]).subst 1 (b.nameless.shift 0)).subst 0
          ((a.namelessIn [y]).subst 0 b.nameless) :=
      Nameless.subst_subst _ _ _ (Nat.le_refl 0)
    _ = ((t.subst y b).namelessIn [x]).subst 0 (a.subst y b).nameless := by
      rw [namelessIn_subst_below differ apart, nameless, nameless, namelessIn_subst]
      rfl
    _ = ((t.subst y b).subst x (a.subst y b)).nameless :=
      (namelessIn_subst _ _ _ _).symm

/-- **Substitutions compose.** A substitution for `x` and then one for `y` come to the same as the
one for `y` and then one for `x` whose argument has had `y` replaced as well, if `x` is another name
and not free in what replaces `y`. And substitution takes equal terms to equal terms. Equality is
up to the names of parameters. -/
theorem subst_composes :
    (∀ (t a b : Term) (x y : String), x ≠ y → x ∉ b.freeVars →
      ((t.subst x a).subst y b).alphaEq ((t.subst y b).subst x (a.subst y b)) = true) ∧
    ∀ (t t' arg arg' : Term) (name : String), t.alphaEq t' = true → arg.alphaEq arg' = true →
      (t.subst name arg).alphaEq (t'.subst name arg') = true := by
  constructor
  · intro t a b x y differ apart
    exact alphaEq_iff_nameless.mpr (nameless_subst_comm differ apart t a)
  · intro t t' arg arg' name same sameArg
    rw [alphaEq_iff_nameless] at same sameArg ⊢
    exact nameless_subst_congr same sameArg name

/-- The lambda that binds `z` is renamed in both orders, once before and once after `z'` has come
into its body. In the second part the argument is equal to another one only up to a parameter. -/
theorem subst_composes_primed :
    let t : Term := lam "z" (app (app (free "x") (free "y")) (var "z" 1))
    let b : Term := lam "z'" (var "z'" 1)
    let b' : Term := lam "w" (var "w" 1)
    "x" ≠ "y" ∧ "x" ∉ b.freeVars ∧
      (t.subst "x" (free "z")).subst "y" b =
        lam "z'" (app (app (free "z") b) (var "z'" 1)) ∧
      (t.subst "y" b).subst "x" ((free "z").subst "y" b) =
        lam "z''" (app (app (free "z") b) (var "z''" 1)) ∧
      ((t.subst "x" (free "z")).subst "y" b).alphaEq
        ((t.subst "y" b).subst "x" ((free "z").subst "y" b)) = true ∧
      b ≠ b' ∧ t.alphaEq t = true ∧ b.alphaEq b' = true ∧
      (t.subst "y" b).alphaEq (t.subst "y" b') = true := by
  intro t b b'
  obtain ⟨commutes, respects⟩ := subst_composes
  have differ : "x" ≠ "y" := by decide
  have apart : "x" ∉ b.freeVars := by decide
  have sameTerm : t.alphaEq t = true := by decide
  have same : b.alphaEq b' = true := by decide
  exact ⟨differ, apart, by decide +kernel, by decide +kernel,
    commutes t (free "z") b "x" "y" differ apart, by decide, sameTerm, same,
    respects t t b b' "y" sameTerm same⟩

end LambdaWorkbench.Term
