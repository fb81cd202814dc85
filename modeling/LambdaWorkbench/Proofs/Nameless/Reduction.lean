import Mathlib.Logic.Relation
import LambdaWorkbench.Address.Basic
import LambdaWorkbench.Proofs.Nameless.Substitution

/-! # Reduction of nameless terms

A step contracts an applied lambda or unfolds a free name, anywhere in a term. What names unfold to
is a parameter: a closed term for some names, which may mention any free names, itself included.
The same steps are given twice, as a congruence and by the address of what is contracted.
-/

namespace LambdaWorkbench.Nameless

/-- What free names unfold to. -/
structure Rules where
  unfold : String → Option Nameless
  closed : ∀ {name body}, unfold name = some body → body.ClosedUnder 0

/-- The subterm at an address. -/
def subterm? : Nameless → Address → Option Nameless
  | t, [] => some t
  | app func _, .func :: rest => func.subterm? rest
  | lam body, .body :: rest => body.subterm? rest
  | app _ arg, .arg :: rest => arg.subterm? rest
  | _, _ :: _ => none

/-- The term with another subterm at an address. -/
def replaceAt? : Nameless → Address → Nameless → Option Nameless
  | _, [], new => some new
  | app func arg, .func :: rest, new => (func.replaceAt? rest new).map (app · arg)
  | lam body, .body :: rest, new => (body.replaceAt? rest new).map lam
  | app func arg, .arg :: rest, new => (arg.replaceAt? rest new).map (app func)
  | _, _ :: _, _ => none

@[simp] theorem subterm?_root (t : Nameless) : t.subterm? [] = some t := by
  cases t <;> rfl

@[simp] theorem replaceAt?_root (t new : Nameless) : t.replaceAt? [] new = some new := by
  cases t <;> rfl

namespace Rules

/-- What a term becomes when it is contracted at its root. -/
def contractum (rules : Rules) : Nameless → Option Nameless
  | app (lam body) arg => some (body.contract arg)
  | free name => rules.unfold name
  | _ => none

/-- The term after the subterm at an address has been contracted. -/
def stepAt (rules : Rules) (t : Nameless) (address : Address) : Option Nameless :=
  (t.subterm? address).bind fun sub => (rules.contractum sub).bind fun new =>
    t.replaceAt? address new

/-- The addresses at which a term can be contracted, outer before inner and left before right. -/
def redexes (rules : Rules) (t : Nameless) : List Address :=
  let here := if (rules.contractum t).isSome then [Address.root] else []
  match t with
  | bound _ => here
  | free _ => here
  | lam body => here ++ (rules.redexes body).map (.body :: ·)
  | app func arg =>
    here ++ (rules.redexes func).map (.func :: ·) ++ (rules.redexes arg).map (.arg :: ·)

/-- One contraction anywhere in a term. -/
inductive Contracts (rules : Rules) : Nameless → Nameless → Prop
  | beta (body arg : Nameless) : Contracts rules (app (lam body) arg) (body.contract arg)
  | unfold {name : String} {body : Nameless} :
      rules.unfold name = some body → Contracts rules (free name) body
  | lam {body body' : Nameless} : Contracts rules body body' → Contracts rules (lam body) (lam body')
  | func {func func' : Nameless} (arg : Nameless) :
      Contracts rules func func' → Contracts rules (app func arg) (app func' arg)
  | arg {arg arg' : Nameless} (func : Nameless) :
      Contracts rules arg arg' → Contracts rules (app func arg) (app func arg')

/-- Any number of steps. -/
abbrev Reduces (rules : Rules) : Nameless → Nameless → Prop :=
  Relation.ReflTransGen rules.Contracts

/-- No step is possible. -/
def Normal (rules : Rules) (t : Nameless) : Prop :=
  ∀ u, ¬ rules.Contracts t u

variable {rules : Rules}

theorem Contracts.of_contractum {t u : Nameless} (h : rules.contractum t = some u) :
    rules.Contracts t u := by
  unfold contractum at h
  split at h
  · cases h; exact .beta _ _
  · exact .unfold h
  · cases h

@[simp] theorem stepAt_root (t : Nameless) : rules.stepAt t [] = rules.contractum t := by
  cases h : rules.contractum t <;> simp [stepAt, h]

@[simp] theorem stepAt_lam_body (body : Nameless) (rest : Address) :
    rules.stepAt (lam body) (.body :: rest) = (rules.stepAt body rest).map lam := by
  simp only [stepAt, subterm?, replaceAt?, Option.map_bind, Function.comp_def]

@[simp] theorem stepAt_app_func (func arg : Nameless) (rest : Address) :
    rules.stepAt (app func arg) (.func :: rest) = (rules.stepAt func rest).map (app · arg) := by
  simp only [stepAt, subterm?, replaceAt?, Option.map_bind, Function.comp_def]

@[simp] theorem stepAt_app_arg (func arg : Nameless) (rest : Address) :
    rules.stepAt (app func arg) (.arg :: rest) = (rules.stepAt arg rest).map (app func) := by
  simp only [stepAt, subterm?, replaceAt?, Option.map_bind, Function.comp_def]

@[simp] theorem stepAt_bound_cons (distance : Nat) (step : Step) (rest : Address) :
    rules.stepAt (bound distance) (step :: rest) = none := by
  cases step <;> rfl

@[simp] theorem stepAt_free_cons (name : String) (step : Step) (rest : Address) :
    rules.stepAt (free name) (step :: rest) = none := by
  cases step <;> rfl

@[simp] theorem stepAt_lam_func (body : Nameless) (rest : Address) :
    rules.stepAt (lam body) (.func :: rest) = none := rfl

@[simp] theorem stepAt_lam_arg (body : Nameless) (rest : Address) :
    rules.stepAt (lam body) (.arg :: rest) = none := rfl

@[simp] theorem stepAt_app_body (func arg : Nameless) (rest : Address) :
    rules.stepAt (app func arg) (.body :: rest) = none := rfl

theorem Contracts.of_stepAt {t u : Nameless} {address : Address}
    (h : rules.stepAt t address = some u) : rules.Contracts t u := by
  induction address generalizing t u with
  | nil => exact .of_contractum (by simpa using h)
  | cons step rest ih =>
    cases t with
    | bound distance | free name => simp at h
    | lam body =>
      cases step with
      | body =>
        rw [stepAt_lam_body] at h
        obtain ⟨body', step, rfl⟩ := Option.map_eq_some_iff.mp h
        exact .lam (ih step)
      | func | arg => simp at h
    | app func arg =>
      cases step with
      | body => simp at h
      | func =>
        rw [stepAt_app_func] at h
        obtain ⟨func', step, rfl⟩ := Option.map_eq_some_iff.mp h
        exact .func arg (ih step)
      | arg =>
        rw [stepAt_app_arg] at h
        obtain ⟨arg', step, rfl⟩ := Option.map_eq_some_iff.mp h
        exact .arg func (ih step)

/-- Every step happens at some address. -/
theorem contracts_iff_stepAt {t u : Nameless} :
    rules.Contracts t u ↔ ∃ address, rules.stepAt t address = some u := by
  refine ⟨fun h => ?_, fun ⟨_, h⟩ => .of_stepAt h⟩
  induction h with
  | beta body arg => exact ⟨[], by simp [contractum]⟩
  | unfold h => exact ⟨[], by simp [contractum, h]⟩
  | lam _ ih =>
    obtain ⟨rest, h⟩ := ih
    exact ⟨.body :: rest, by simp [h]⟩
  | func arg _ ih =>
    obtain ⟨rest, h⟩ := ih
    exact ⟨.func :: rest, by simp [h]⟩
  | arg func _ ih =>
    obtain ⟨rest, h⟩ := ih
    exact ⟨.arg :: rest, by simp [h]⟩

theorem mem_redexes {t : Nameless} {address : Address} :
    address ∈ rules.redexes t ↔ (rules.stepAt t address).isSome := by
  induction t generalizing address with
  | bound distance =>
    cases address with
    | nil => simp [redexes, contractum]
    | cons step rest => simp [redexes, contractum]
  | free name =>
    cases address with
    | nil => simp [redexes, Address.root]
    | cons step rest => simp [redexes, Address.root]
  | lam body ih =>
    cases address with
    | nil => simp [redexes, contractum]
    | cons step rest => cases step <;> simp [redexes, contractum, ih]
  | app func arg ihf iha =>
    cases address with
    | nil => simp [redexes, Address.root]
    | cons step rest => cases step <;> simp [redexes, Address.root, ihf, iha]

theorem redexes_eq_nil_iff {t : Nameless} : rules.redexes t = [] ↔ rules.Normal t := by
  rw [List.eq_nil_iff_forall_not_mem]
  simp only [mem_redexes, Option.isSome_iff_exists, Normal, contracts_iff_stepAt]
  exact ⟨fun h u ⟨address, step⟩ => h address ⟨u, step⟩,
    fun h address ⟨u, step⟩ => h u ⟨address, step⟩⟩

/-! ## Congruence of reduction -/

theorem Reduces.lam {body body' : Nameless} (h : rules.Reduces body body') :
    rules.Reduces (.lam body) (.lam body') :=
  h.lift Nameless.lam fun _ _ => Contracts.lam

theorem Reduces.app {func func' arg arg' : Nameless} (hf : rules.Reduces func func')
    (ha : rules.Reduces arg arg') : rules.Reduces (.app func arg) (.app func' arg') :=
  (hf.lift (Nameless.app · arg) fun _ _ => Contracts.func arg).trans
    (ha.lift (Nameless.app func') fun _ _ => Contracts.arg func')

theorem Normal.of_lam {body : Nameless} (h : rules.Normal (.lam body)) : rules.Normal body :=
  fun u step => h (.lam u) (.lam step)

theorem Normal.of_func {func arg : Nameless} (h : rules.Normal (.app func arg)) :
    rules.Normal func :=
  fun u step => h (.app u arg) (.func arg step)

theorem Normal.of_arg {func arg : Nameless} (h : rules.Normal (.app func arg)) :
    rules.Normal arg :=
  fun u step => h (.app func u) (.arg func step)

theorem Normal.reduces_eq {t u : Nameless} (h : rules.Normal t) (red : rules.Reduces t u) :
    u = t := by
  rcases red.cases_head with same | ⟨v, step, -⟩
  · exact same.symm
  · exact absurd step (h v)

end Rules

end LambdaWorkbench.Nameless
