import LambdaWorkbench.Proofs.Nameless.Reduction

/-! # Steps at independent addresses

Two addresses are apart when neither leads into the subterm at the other. A replacement at one of
them leaves the subterm at the other as it is, two such replacements can be made in either order,
and so can two contractions.
-/

namespace LambdaWorkbench

namespace Address

/-- Neither address is an initial part of the other. -/
def Apart (a b : Address) : Prop :=
  ¬ a <+: b ∧ ¬ b <+: a

variable {a b : Address}

theorem Apart.symm (h : Apart a b) : Apart b a :=
  ⟨h.2, h.1⟩

theorem not_nil_apart (b : Address) : ¬ Apart [] b :=
  fun apart => apart.1 List.nil_prefix

theorem not_apart_nil (a : Address) : ¬ Apart a [] :=
  fun apart => apart.2 List.nil_prefix

/-- Behind a common first step, addresses that are apart stay so. -/
theorem Apart.of_cons {step : Step} (h : Apart (step :: a) (step :: b)) : Apart a b :=
  ⟨fun start => h.1 ((List.prefix_cons_inj step).mpr start),
    fun start => h.2 ((List.prefix_cons_inj step).mpr start)⟩

end Address

namespace Nameless

open Address (not_nil_apart not_apart_nil)

variable {t u v new new' child : Nameless} {a b : Address} {step step' : Step}

/-! ## Children

A walk along an address goes from child to child, so it is enough to know how children are replaced.
-/

/-- The child that a step leads to. -/
def child? : Nameless → Step → Option Nameless
  | app func _, .func => some func
  | lam body, .body => some body
  | app _ arg, .arg => some arg
  | _, _ => none

/-- The term with another child where a step leads, if it leads anywhere. -/
def withChild : Nameless → Step → Nameless → Nameless
  | app _ arg, .func, new => app new arg
  | lam _, .body, new => lam new
  | app func _, .arg, new => app func new
  | t, _, _ => t

theorem subterm?_cons (t : Nameless) (step : Step) (rest : Address) :
    t.subterm? (step :: rest) = (t.child? step).bind (·.subterm? rest) := by
  cases t <;> cases step <;> rfl

theorem replaceAt?_cons (t new : Nameless) (step : Step) (rest : Address) :
    t.replaceAt? (step :: rest) new =
      (t.child? step).bind fun child => (child.replaceAt? rest new).map (t.withChild step) := by
  cases t <;> cases step <;> rfl

theorem child?_withChild (h : t.child? step = some child) (new : Nameless) :
    (t.withChild step new).child? step = some new := by
  cases t <;> cases step <;> first | rfl | cases h

theorem child?_withChild_of_ne (other : step' ≠ step) (t new : Nameless) :
    (t.withChild step new).child? step' = t.child? step' := by
  cases t <;> cases step <;> cases step' <;> first | rfl | exact absurd rfl other

theorem withChild_withChild (t : Nameless) (step : Step) (new new' : Nameless) :
    (t.withChild step new).withChild step new' = t.withChild step new' := by
  cases t <;> cases step <;> rfl

theorem withChild_comm (other : step' ≠ step) (t new new' : Nameless) :
    (t.withChild step new).withChild step' new' = (t.withChild step' new').withChild step new := by
  cases t <;> cases step <;> cases step' <;> first | rfl | exact absurd rfl other

/-! ## Replacements -/

/-- A replacement below a step replaces a child. -/
theorem exists_child_of_replaceAt? {rest : Address} (h : t.replaceAt? (step :: rest) new = some u) :
    ∃ child child', t.child? step = some child ∧ child.replaceAt? rest new = some child' ∧
      u = t.withChild step child' := by
  rw [replaceAt?_cons, Option.bind_eq_some_iff] at h
  obtain ⟨child, found, mapped⟩ := h
  obtain ⟨child', replaced, same⟩ := Option.map_eq_some_iff.mp mapped
  exact ⟨child, child', found, replaced, same.symm⟩

/-- A replacement does not change the subterms at addresses apart from it. -/
theorem subterm?_of_replaceAt? (apart : a.Apart b) (h : t.replaceAt? a new = some u) :
    u.subterm? b = t.subterm? b := by
  induction a generalizing t u b with
  | nil => exact absurd apart (not_nil_apart b)
  | cons step rest ih =>
    cases b with
    | nil => exact absurd apart (not_apart_nil _)
    | cons step' rest' =>
      obtain ⟨child, child', found, replaced, rfl⟩ := exists_child_of_replaceAt? h
      rw [subterm?_cons, subterm?_cons]
      by_cases same : step' = step
      · subst same
        rw [child?_withChild found, found]
        exact ih apart.of_cons replaced
      · rw [child?_withChild_of_ne same]

/-- Replacements at addresses that are apart change places. -/
theorem replaceAt?_comm (apart : a.Apart b) (hu : t.replaceAt? a new = some u)
    (hv : t.replaceAt? b new' = some v) :
    ∃ w, u.replaceAt? b new' = some w ∧ v.replaceAt? a new = some w := by
  induction a generalizing t u v b with
  | nil => exact absurd apart (not_nil_apart b)
  | cons step rest ih =>
    cases b with
    | nil => exact absurd apart (not_apart_nil _)
    | cons step' rest' =>
      obtain ⟨child, new₁, found, replaced, rfl⟩ := exists_child_of_replaceAt? hu
      obtain ⟨child', new₂, found', replaced', rfl⟩ := exists_child_of_replaceAt? hv
      by_cases same : step' = step
      · -- both are in the same child
        subst same
        cases found.symm.trans found'
        obtain ⟨w, last, last'⟩ := ih apart.of_cons replaced replaced'
        refine ⟨t.withChild step' w, ?_, ?_⟩
        · rw [replaceAt?_cons, child?_withChild found, Option.bind_some, last, Option.map_some,
            withChild_withChild]
        · rw [replaceAt?_cons, child?_withChild found, Option.bind_some, last', Option.map_some,
            withChild_withChild]
      · refine ⟨(t.withChild step new₁).withChild step' new₂, ?_, ?_⟩
        · rw [replaceAt?_cons, child?_withChild_of_ne same, found', Option.bind_some, replaced',
            Option.map_some]
        · rw [replaceAt?_cons, child?_withChild_of_ne (Ne.symm same), found, Option.bind_some,
            replaced, Option.map_some, withChild_comm same]

namespace Rules

variable {rules : Rules}

/-- A step replaces a subterm by its contractum. -/
theorem stepAt_eq_some_iff :
    rules.stepAt t a = some u ↔ ∃ sub new, t.subterm? a = some sub ∧
      rules.contractum sub = some new ∧ t.replaceAt? a new = some u := by
  simp only [stepAt, Option.bind_eq_some_iff]
  constructor
  · rintro ⟨sub, found, new, becomes, replaced⟩
    exact ⟨sub, new, found, becomes, replaced⟩
  · rintro ⟨sub, new, found, becomes, replaced⟩
    exact ⟨sub, found, new, becomes, replaced⟩

/-- A step leaves the subterms at addresses apart from it as they are. -/
theorem subterm?_of_stepAt (apart : a.Apart b) (h : rules.stepAt t a = some u) :
    u.subterm? b = t.subterm? b := by
  obtain ⟨_, _, -, -, replaced⟩ := stepAt_eq_some_iff.mp h
  exact subterm?_of_replaceAt? apart replaced

/-- Steps at addresses that are apart can be made in either order. -/
theorem stepAt_comm (apart : a.Apart b) (hu : rules.stepAt t a = some u)
    (hv : rules.stepAt t b = some v) :
    ∃ w, rules.stepAt u b = some w ∧ rules.stepAt v a = some w := by
  have kept := subterm?_of_stepAt apart hu
  have kept' := subterm?_of_stepAt apart.symm hv
  obtain ⟨sub, new, found, becomes, replaced⟩ := stepAt_eq_some_iff.mp hu
  obtain ⟨sub', new', found', becomes', replaced'⟩ := stepAt_eq_some_iff.mp hv
  obtain ⟨w, last, last'⟩ := replaceAt?_comm apart replaced replaced'
  exact ⟨w, stepAt_eq_some_iff.mpr ⟨sub', new', kept.trans found', becomes', last⟩,
    stepAt_eq_some_iff.mpr ⟨sub, new, kept'.trans found, becomes, last'⟩⟩

end Rules

end Nameless

end LambdaWorkbench
