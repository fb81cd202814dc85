import LambdaWorkbench.Proofs.Redex.Contraction
import LambdaWorkbench.Redex.Run

/-! # Reductions and their readings

Reducing by name and reducing the readings go hand in hand: at every address both do the same or
both do nothing, and the redexes have the same addresses. Whole runs follow from single steps.
-/

namespace LambdaWorkbench.Environment

/-- One reduction at some address. -/
def Steps (env : Environment) (t u : Term) : Prop :=
  ∃ address, env.reduceAt t address = .ok (some u)

/-- Any number of reductions, at any addresses. -/
abbrev Reaches (env : Environment) : Term → Term → Prop :=
  Relation.ReflTransGen env.Steps

variable {env : Environment} {t u : Term}

/-- At every address the reading is contracted as the term is reduced. -/
theorem stepAt_nameless (env : Environment) (t : Term) (address : Address) :
    env.rules.stepAt t.nameless address =
      match env.reduceAt t address with
      | .ok (some u) => some u.nameless
      | _ => none := by
  cases found : t.subterm address with
  | error fault =>
    have misfit : t.nameless.subterm? address = none := by
      refine Option.eq_none_iff_forall_ne_some.mpr fun s present => ?_
      obtain ⟨binders, sub, path⟩ := Term.Path.of_subterm?_nameless present
      rw [path.subterm_eq] at found
      cases found
    rw [Term.reduceAt_of_error found, Nameless.Rules.stepAt, misfit]
    rfl
  | ok sub =>
    obtain ⟨binders, path⟩ := Term.Path.of_subterm found
    have present := path.subterm?_nameless []
    rw [List.append_nil] at present
    rw [Nameless.Rules.stepAt, Term.nameless, present, Option.bind_some,
      rules_contractum env binders _ (fun _ => List.mem_reverse.symm)]
    cases kind : env.classifyBelow binders sub with
    | error reason => simp only [path.reduceAt_eq, kind, Option.bind_none]
    | ok redex =>
      obtain ⟨u, new, eq, -, becomes, reads, -⟩ := path.reduceAt_of_redex kind
      simp only [eq, becomes, Option.bind_some]
      exact reads

theorem Steps.contracts (h : env.Steps t u) : env.rules.Contracts t.nameless u.nameless := by
  obtain ⟨address, eq⟩ := h
  refine Nameless.Rules.contracts_iff_stepAt.mpr ⟨address, ?_⟩
  rw [stepAt_nameless, eq]

theorem Steps.of_contracts {s : Nameless} (h : env.rules.Contracts t.nameless s) :
    ∃ u, env.Steps t u ∧ u.nameless = s := by
  obtain ⟨address, step⟩ := Nameless.Rules.contracts_iff_stepAt.mp h
  rw [stepAt_nameless] at step
  split at step
  · rename_i u eq
    exact ⟨u, ⟨address, eq⟩, Option.some.inj step⟩
  · cases step

theorem Reaches.reduces (h : env.Reaches t u) : env.rules.Reduces t.nameless u.nameless :=
  h.lift Term.nameless fun _ _ step => step.contracts

theorem Reaches.of_reduces {s : Nameless} (h : env.rules.Reduces t.nameless s) :
    ∃ u, env.Reaches t u ∧ u.nameless = s := by
  induction h with
  | refl => exact ⟨t, .refl, rfl⟩
  | tail _ step ih =>
    obtain ⟨u, reaches, rfl⟩ := ih
    obtain ⟨v, last, rfl⟩ := Steps.of_contracts step
    exact ⟨v, reaches.tail last, rfl⟩

/-! ## Redexes -/

theorem contractum_isSome {binders scope : List String} {redex : Redex}
    (kind : env.classifyBelow binders t = .ok redex) :
    (redex.contractum env (t.namelessIn scope)).isSome := by
  obtain ⟨param, body, arg, rfl, rfl⟩ | ⟨name, index, term, rfl, -, defined, rfl⟩ |
    ⟨name, index, value, rfl, -, -, -, -, rfl⟩ := classifyBelow_cases kind
  · rfl
  · rw [Redex.contractum, defined]
    rfl
  · rfl

theorem isOk_classifyBelow_iff (env : Environment) (binders : List String) (t : Term) :
    (env.classifyBelow binders t).isOk = (env.rules.contractum (t.namelessIn binders)).isSome := by
  rw [rules_contractum env binders binders (fun _ => Iff.rfl)]
  cases kind : env.classifyBelow binders t with
  | error reason => rfl
  | ok redex => exact (contractum_isSome kind).symm

theorem redexesBelow_eq (env : Environment) (binders : List String) (t : Term) :
    env.redexesBelow binders t = env.rules.redexes (t.namelessIn binders) := by
  induction t generalizing binders with
  | var name index =>
    have atRoot := isOk_classifyBelow_iff env binders (.var name index)
    have leaf : env.rules.redexes ((Term.var name index).namelessIn binders) =
        if (env.classifyBelow binders (.var name index)).isOk then [Address.root] else [] := by
      rw [atRoot, Term.namelessIn_var]
      split <;> simp only [Nameless.Rules.redexes]
    rw [redexesBelow, leaf]
    cases env.classifyBelow binders (.var name index) <;> rfl
  | lam param body ih =>
    rw [redexesBelow, ih, Term.namelessIn, Nameless.Rules.redexes, ← Term.namelessIn,
      ← isOk_classifyBelow_iff]
    cases env.classifyBelow binders (.lam param body) <;> rfl
  | app func arg ihf iha =>
    rw [redexesBelow, ihf, iha, Term.namelessIn, Nameless.Rules.redexes, ← Term.namelessIn,
      ← isOk_classifyBelow_iff]
    cases env.classifyBelow binders (.app func arg) <;> rfl

/-- The redexes of a term have the addresses of those of its reading. -/
theorem redexes_eq (env : Environment) (t : Term) :
    env.redexes t = env.rules.redexes t.nameless :=
  redexesBelow_eq env [] t

theorem redexes_eq_nil_iff : env.redexes t = [] ↔ env.rules.Normal t.nameless := by
  rw [redexes_eq, Nameless.Rules.redexes_eq_nil_iff]

/-! ## Runs -/

/-- A policy picks by the reading, and what it picks is contracted in the reading. -/
theorem advance_nameless (env : Environment) (policy : Policy) (t : Term) :
    (env.advance policy t).map Term.nameless =
      (policy.select (env.rules.redexes t.nameless)).bind (env.rules.stepAt t.nameless) := by
  rw [advance, redexes_eq]
  cases policy.select (env.rules.redexes t.nameless) with
  | none => rfl
  | some address =>
    simp only [Option.bind_some, stepAt_nameless]
    cases env.reduceAt t address with
    | error fault => rfl
    | ok next => cases next <;> rfl

theorem steps_of_advance {policy : Policy} (h : env.advance policy t = some u) :
    env.Steps t u := by
  unfold advance at h
  split at h
  · cases h
  · rename_i address _
    split at h
    · rename_i next eq
      exact ⟨address, h ▸ eq⟩
    · cases h

/-- The first term of a run, then a run from there. -/
theorem take_start_succ (env : Environment) (policy : Policy) (t : Term) (count : Nat) :
    (Run.start env policy t).take (count + 1) =
      match env.advance policy t with
      | none => []
      | some u => u :: (Run.start env policy u).take count := by
  rw [Run.take, Run.next]
  simp only [Run.start, Option.bind_some]
  cases env.advance policy t <;> rfl

/-- A bounded run ends at a term that reductions lead to. -/
theorem reaches_last (env : Environment) (policy : Policy) (count : Nat) (t : Term) :
    env.Reaches t ((env.normalize policy count t).last t) := by
  rw [Normalized.last, normalize]
  induction count generalizing t with
  | zero => exact .refl
  | succ count ih =>
    rw [take_start_succ]
    cases step : env.advance policy t with
    | none => exact .refl
    | some u =>
      simp only [List.getLast?_cons, Option.getD_some]
      exact .head (steps_of_advance step) (ih u)

theorem isNormal_iff {policy : Policy} {count : Nat} :
    (env.normalize policy count t).isNormal = true ↔
      env.redexes ((env.normalize policy count t).last t) = [] :=
  List.isEmpty_iff

end LambdaWorkbench.Environment
