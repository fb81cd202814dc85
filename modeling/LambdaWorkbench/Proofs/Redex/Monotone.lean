import Mathlib.Data.List.Sort
import LambdaWorkbench.Proofs.Redex.Agreement
import LambdaWorkbench.Proofs.Text.Numerals

/-! # More definitions and a larger limit

Whether a place can be reduced depends on the environment only where a name stands free there. A
name that is defined, or spells a number within the limit, stays so when definitions are added and
the limit is raised. So no redex is lost, and those that are new are free names.
-/

namespace LambdaWorkbench

variable {env env' : Environment} {t : Term} {address : Address} {name name' : String}
  {value : Nat} {binders : List String} {index : Nat}

namespace Term

/-- A variable of this name is at the address, and no lambda on the way binds it. -/
def FreeAt (t : Term) (address : Address) (name : String) : Prop :=
  ∃ binders index, Path t address binders (var name index) ∧ name ∉ binders

theorem Path.unique {binders binders' : List String} {sub sub' : Term}
    (h : Path t address binders sub) (h' : Path t address binders' sub') : sub = sub' :=
  Except.ok.inj (h.subterm_eq.symm.trans h'.subterm_eq)

theorem FreeAt.unique (h : t.FreeAt address name) (h' : t.FreeAt address name') :
    name = name' := by
  obtain ⟨_, _, path, -⟩ := h
  obtain ⟨_, _, path', -⟩ := h'
  exact (var.inj (path.unique path')).1

end Term

namespace Environment

/-- Whatever is defined in the first environment is defined in the second, perhaps as something
else, and a limit in the second is as large as one in the first. -/
structure Widens (env env' : Environment) : Prop where
  defines : ∀ name, env.contains name = true → env'.contains name = true
  limit : ∀ bound', env'.numeralLimit = some bound' →
    ∃ bound, env.numeralLimit = some bound ∧ bound ≤ bound'

def AboveLimit (env : Environment) (value : Nat) : Prop :=
  ∃ bound, env.numeralLimit = some bound ∧ bound < value

/-- The digits of a number that the environment expands where they are not defined. -/
structure Expandable (env : Environment) (name : String) (value : Nat) : Prop where
  digits : Text.Digits name value
  fits : value ≤ Text.maxWord
  within : ¬ env.AboveLimit value

/-- A free name can be reduced: by its definition, or as a number. -/
def Unfolds (env : Environment) (name : String) : Prop :=
  env.contains name = true ∨ ∃ value, env.Expandable name value

/-- A name that can be reduced in the second environment and not in the first. Either it has come
to be defined, or it is the digits of a number that the first limit excludes and the second does
not. -/
inductive Gains (env env' : Environment) (name : String) : Prop
  | defined : env.contains name = false → env'.contains name = true →
      (∀ value, ¬ env.Expandable name value) → Gains env env' name
  | raised {value : Nat} : env.contains name = false → env'.contains name = false →
      Text.Digits name value → value ≤ Text.maxWord → env.AboveLimit value →
      ¬ env'.AboveLimit value → Gains env env' name

theorem expands_iff :
    env.expands value = true ↔ value ≤ Text.maxWord ∧ ¬ env.AboveLimit value := by
  rw [expands, Bool.and_eq_true, decide_eq_true_eq, AboveLimit]
  cases env.numeralLimit with
  | none => simp
  | some bound => simp

/-- A variable is a redex where it is free and its name stands for something. -/
theorem exists_classifyBelow_var_iff :
    (∃ redex, env.classifyBelow binders (.var name index) = .ok redex) ↔
      name ∉ binders ∧ env.Unfolds name := by
  constructor
  · rintro ⟨redex, kind⟩
    obtain ⟨param, body, arg, same, -⟩ | ⟨_, _, term, same, free, defined, -⟩ |
      ⟨_, _, value, same, free, -, spelled, small, -⟩ := classifyBelow_cases kind
    · cases same
    · cases same
      exact ⟨free, .inl (by rw [contains, defined]; rfl)⟩
    · cases same
      obtain ⟨fits, within⟩ := expands_iff.mp small
      exact ⟨free, .inr ⟨value, Text.naturalValue?_eq_some_iff.mp spelled, fits, within⟩⟩
  · rintro ⟨free, unfolds⟩
    rw [classifyBelow, if_neg free]
    by_cases defined : env.contains name = true
    · exact ⟨_, if_pos defined⟩
    · obtain ⟨value, digits, fits, within⟩ := unfolds.resolve_left defined
      have spelled := Text.naturalValue?_eq_some_iff.mpr digits
      have small : env.expands value = true := expands_iff.mpr ⟨fits, within⟩
      exact ⟨.numeral value, by simp only [if_neg defined, spelled, if_pos small]⟩

/-- Every redex is an applied lambda, in any environment, or a free name that the environment
unfolds. -/
theorem mem_redexes_iff_unfolds :
    address ∈ env.redexes t ↔
      (∃ binders param body arg, Term.Path t address binders (.app (.lam param body) arg)) ∨
      ∃ name, t.FreeAt address name ∧ env.Unfolds name := by
  rw [mem_redexes_iff_classify]
  constructor
  · rintro ⟨redex, kind⟩
    obtain ⟨binders, sub, path, kind⟩ := Term.Path.of_classify kind
    match sub with
    | .var name index =>
      obtain ⟨free, unfolds⟩ := exists_classifyBelow_var_iff.mp ⟨redex, kind⟩
      exact .inr ⟨name, ⟨binders, index, path, free⟩, unfolds⟩
    | .app (.lam param body) arg => exact .inl ⟨binders, param, body, arg, path⟩
    | .lam _ _ | .app (.var _ _) _ | .app (.app _ _) _ => cases kind
  · rintro (⟨binders, param, body, arg, path⟩ | ⟨name, ⟨binders, index, path, free⟩, unfolds⟩)
    · exact ⟨.beta, path.classify_eq env⟩
    · obtain ⟨redex, kind⟩ := exists_classifyBelow_var_iff.mpr ⟨free, unfolds⟩
      exact ⟨redex, by rw [path.classify_eq, kind]⟩

theorem Widens.unfolds (wider : env.Widens env') (h : env.Unfolds name) : env'.Unfolds name := by
  rcases h with defined | ⟨value, digits, fits, within⟩
  · exact .inl (wider.defines name defined)
  · refine .inr ⟨value, digits, fits, ?_⟩
    rintro ⟨bound', limited', above'⟩
    obtain ⟨bound, limited, le⟩ := wider.limit bound' limited'
    exact within ⟨bound, limited, Nat.lt_of_le_of_lt le above'⟩

theorem gains_iff : Gains env env' name ↔ env'.Unfolds name ∧ ¬ env.Unfolds name := by
  constructor
  · rintro (⟨absent, defined, notExpandable⟩ | ⟨absent, -, digits, fits, above, within⟩)
    · refine ⟨.inl defined, ?_⟩
      rintro (present | ⟨value, expandable⟩)
      · exact absurd present (by simp [absent])
      · exact notExpandable value expandable
    · refine ⟨.inr ⟨_, digits, fits, within⟩, ?_⟩
      rintro (present | ⟨value, expandable⟩)
      · exact absurd present (by simp [absent])
      · have same := expandable.digits.value.symm.trans digits.value
        exact expandable.within (same ▸ above)
  · rintro ⟨unfolds, inert⟩
    obtain ⟨undefined, notExpandable⟩ := not_or.mp inert
    have absent : env.contains name = false := Bool.eq_false_iff.mpr undefined
    by_cases defined : env'.contains name = true
    · exact .defined absent defined fun value expandable => notExpandable ⟨value, expandable⟩
    · obtain ⟨value, digits, fits, within⟩ := unfolds.resolve_left defined
      refine .raised absent (Bool.eq_false_iff.mpr defined) digits fits ?_ within
      by_contra notAbove
      exact notExpandable ⟨value, digits, fits, notAbove⟩

/-- The redexes of one environment that another one has not are free names. -/
theorem mem_redexes_and_not_mem_iff :
    (address ∈ env'.redexes t ∧ address ∉ env.redexes t) ↔
      ∃ name, t.FreeAt address name ∧ Gains env env' name := by
  rw [mem_redexes_iff_unfolds, mem_redexes_iff_unfolds]
  constructor
  · rintro ⟨beta | ⟨name, free, unfolds⟩, inert⟩
    · exact absurd (.inl beta) inert
    · exact ⟨name, free, gains_iff.mpr ⟨unfolds, fun before => inert (.inr ⟨name, free, before⟩)⟩⟩
  · rintro ⟨name, free, gains⟩
    obtain ⟨unfolds, inert⟩ := gains_iff.mp gains
    refine ⟨.inr ⟨name, free, unfolds⟩, ?_⟩
    rintro (⟨_, _, _, _, beta⟩ | ⟨name', free', before⟩)
    · obtain ⟨_, _, path, -⟩ := free
      cases path.unique beta
    · exact inert (free.unique free' ▸ before)

theorem nodup_redexes (env : Environment) (t : Term) : (env.redexes t).Nodup :=
  (env.redexes_pairwise t).nodup

theorem Widens.redexes_sublist (wider : env.Widens env') (t : Term) :
    (env.redexes t).Sublist (env'.redexes t) := by
  have subset : env.redexes t ⊆ env'.redexes t := by
    intro address mem
    rw [mem_redexes_iff_unfolds] at mem ⊢
    exact mem.imp_right fun ⟨name, free, unfolds⟩ => ⟨name, free, wider.unfolds unfolds⟩
  exact List.sublist_of_subperm_of_pairwise
    (List.subperm_of_subset (env.nodup_redexes t) subset)
    (env.redexes_pairwise t) (env'.redexes_pairwise t)

/-- **Redexes are monotone in the environment.** With more definitions and a limit that is not
smaller, the redexes of a term are all still listed, in their order. The addresses that come in
between, each once, are those of the free occurrences of names that have come to be defined, and
could not be expanded before, and of undefined digits whose number fits in 64 bits and that only
the limit excluded. -/
theorem redexes_monotone (wider : env.Widens env') (t : Term) :
    (env.redexes t).Sublist (env'.redexes t) ∧ (env'.redexes t).Nodup ∧
      ∀ address, (address ∈ env'.redexes t ∧ address ∉ env.redexes t) ↔
        ∃ name, t.FreeAt address name ∧ Gains env env' name :=
  ⟨wider.redexes_sublist t, env'.nodup_redexes t, fun _ => mem_redexes_and_not_mem_iff⟩

/-- In `(λF.F 007) (F (3 99))`, the definition of `F` is used outside of the lambda only, that of `3`
replaces a number, and the limit goes from 5 to 10. -/
theorem redexes_monotone_leading_zeros :
    let env := empty.withLimit (some 5)
    let env' := ((empty.insert "F" (.free "y")).insert "3" (.free "z")).withLimit (some 10)
    let t : Term := .app (.lam "F" (.app (.var "F" 1) (.free "007")))
      (.app (.free "F") (.app (.free "3") (.free "99")))
    env.Widens env' ∧
      env.redexes t = [[], [.arg, .arg, .func]] ∧
      env'.redexes t = [[], [.func, .body, .arg], [.arg, .func], [.arg, .arg, .func]] ∧
      (env.redexes t).Sublist (env'.redexes t) ∧
      Gains env env' "007" ∧
      [Step.func, .body, .arg] ∈ env'.redexes t ∧ [Step.func, .body, .arg] ∉ env.redexes t := by
  intro env env' t
  have wider : env.Widens env' := by
    constructor
    · intro name defined
      cases defined
    · intro bound' limited
      cases limited
      exact ⟨5, rfl, by decide⟩
  obtain ⟨sublist, -, added⟩ := redexes_monotone wider t
  have digits : Text.Digits "007" 7 := Text.naturalValue?_eq_some_iff.mp (by decide)
  have within : ¬ env'.AboveLimit 7 := by
    rintro ⟨bound, limited, above⟩
    cases limited
    exact absurd above (by decide)
  have gains : Gains env env' "007" :=
    .raised (by decide) (by decide) digits (by decide) ⟨5, rfl, by decide⟩ within
  have free : t.FreeAt [.func, .body, .arg] "007" :=
    ⟨["F"], 0, .func (.body (.arg (.root _))), by decide⟩
  obtain ⟨mem, notMem⟩ := (added _).mpr ⟨"007", free, gains⟩
  exact ⟨wider, by decide +kernel, by decide +kernel, sublist, gains, mem, notMem⟩

end Environment

end LambdaWorkbench
