import LambdaWorkbench.Proofs.Nameless.Reduction

/-! # Confluence of nameless reduction

A parallel step contracts any number of the redexes a term has, none included. `develop` contracts
all of them, and whatever a parallel step contracts, one more leads to the development. Two
parallel steps from one term therefore meet, and so do two reductions.

Unfolding fits in because what a name unfolds to is closed: neither shifts nor substitutions reach
into it. No condition is put on how names mention each other.
-/

namespace LambdaWorkbench.Nameless.Rules

/-- Contracts any number of the redexes of a term at once. -/
inductive Parallel (rules : Rules) : Nameless → Nameless → Prop
  | bound (distance : Nat) : Parallel rules (bound distance) (bound distance)
  | free (name : String) : Parallel rules (free name) (free name)
  | unfold {name : String} {body : Nameless} :
      rules.unfold name = some body → Parallel rules (.free name) body
  | lam {body body' : Nameless} : Parallel rules body body' → Parallel rules (lam body) (lam body')
  | app {func func' arg arg' : Nameless} : Parallel rules func func' → Parallel rules arg arg' →
      Parallel rules (app func arg) (app func' arg')
  | beta {body body' arg arg' : Nameless} : Parallel rules body body' → Parallel rules arg arg' →
      Parallel rules (.app (.lam body) arg) (body'.contract arg')

variable {rules : Rules}

theorem Parallel.refl : ∀ t : Nameless, rules.Parallel t t
  | .bound distance => .bound distance
  | .free name => .free name
  | .lam body => .lam (Parallel.refl body)
  | .app func arg => .app (Parallel.refl func) (Parallel.refl arg)

theorem Contracts.parallel {t u : Nameless} (h : rules.Contracts t u) : rules.Parallel t u := by
  induction h with
  | beta body arg => exact .beta (.refl body) (.refl arg)
  | unfold h => exact .unfold h
  | lam _ ih => exact .lam ih
  | func arg _ ih => exact .app ih (.refl arg)
  | arg func _ ih => exact .app (.refl func) ih

theorem Parallel.reduces {t u : Nameless} (h : rules.Parallel t u) : rules.Reduces t u := by
  induction h with
  | bound distance | free name => exact .refl
  | unfold h => exact .single (.unfold h)
  | lam _ ih => exact ih.lam
  | app _ _ ihf iha => exact ihf.app iha
  | beta _ _ ihb iha => exact (ihb.lam.app iha).tail (.beta _ _)

theorem Parallel.shift {t u : Nameless} (h : rules.Parallel t u) (k : Nat) :
    rules.Parallel (t.shift k) (u.shift k) := by
  induction h generalizing k with
  | bound distance => exact .refl _
  | free name => exact .refl _
  | unfold h =>
    rw [((rules.closed h).mono (Nat.zero_le k)).shift_eq]
    exact .unfold h
  | lam _ ih => exact .lam (ih (k + 1))
  | app _ _ ihf iha => exact .app (ihf k) (iha k)
  | beta _ _ ihb iha =>
    rw [contract, shift_subst _ _ (Nat.zero_le k)]
    exact .beta (ihb (k + 1)) (iha k)

theorem Parallel.subst {t u v w : Nameless} (h : rules.Parallel t u) (hv : rules.Parallel v w)
    (k : Nat) : rules.Parallel (t.subst k v) (u.subst k w) := by
  induction h generalizing v w k with
  | bound distance =>
    unfold Nameless.subst
    split
    · exact .refl _
    · split
      · exact hv
      · exact .refl _
  | free name => exact .refl _
  | unfold h =>
    rw [((rules.closed h).mono (Nat.zero_le k)).subst_eq]
    exact .unfold h
  | lam _ ih => exact .lam (ih (hv.shift 0) (k + 1))
  | app _ _ ihf iha => exact .app (ihf hv k) (iha hv k)
  | beta _ _ ihb iha =>
    rw [contract, subst_subst _ _ _ (Nat.zero_le k)]
    exact .beta (ihb (hv.shift 0) (k + 1)) (iha hv k)

/-- Contracts all redexes of a term, but none that this makes. -/
def develop (rules : Rules) : Nameless → Nameless
  | bound distance => bound distance
  | free name => (rules.unfold name).getD (free name)
  | lam body => lam (rules.develop body)
  | app (lam body) arg => (rules.develop body).contract (rules.develop arg)
  | app func arg => app (rules.develop func) (rules.develop arg)

/-- One more parallel step leads to the development. -/
theorem Parallel.to_develop {t u : Nameless} (h : rules.Parallel t u) :
    rules.Parallel u (rules.develop t) := by
  induction h with
  | bound distance => exact .bound distance
  | free name =>
    cases h : rules.unfold name with
    | none => simp only [develop, h]; exact .free name
    | some body => simp only [develop, h]; exact .unfold h
  | unfold h => simp only [develop, h]; exact .refl _
  | lam _ ih => exact .lam ih
  | @app func _ arg _ hf _ ihf iha =>
    cases func with
    | bound distance | free name | app first second => exact .app ihf iha
    | lam body =>
      -- both sides of `ihf` are lambdas, since a lambda only steps to lambdas
      cases hf with
      | lam _ =>
        rw [develop] at ihf
        cases ihf with
        | lam inner => exact .beta inner iha
  | beta _ _ ihb iha => exact ihb.subst iha 0

theorem Parallel.diamond {t u v : Nameless} (hu : rules.Parallel t u) (hv : rules.Parallel t v) :
    ∃ w, rules.Parallel u w ∧ rules.Parallel v w :=
  ⟨rules.develop t, hu.to_develop, hv.to_develop⟩

theorem reduces_iff_parallel {t u : Nameless} :
    rules.Reduces t u ↔ Relation.ReflTransGen rules.Parallel t u := by
  constructor
  · intro h
    induction h with
    | refl => exact .refl
    | tail _ step ih => exact ih.tail step.parallel
  · intro h
    induction h with
    | refl => exact .refl
    | tail _ step ih => exact ih.trans step.reduces

/-- **Confluence.** Two reductions from one term can be continued to a common term. -/
theorem Reduces.meet {t u v : Nameless} (hu : rules.Reduces t u) (hv : rules.Reduces t v) :
    ∃ w, rules.Reduces u w ∧ rules.Reduces v w := by
  rw [reduces_iff_parallel] at hu hv
  have close : ∀ a b c, rules.Parallel a b → rules.Parallel a c →
      ∃ d, Relation.ReflGen rules.Parallel b d ∧ Relation.ReflTransGen rules.Parallel c d := by
    intro a b c first second
    obtain ⟨d, left, right⟩ := first.diamond second
    exact ⟨d, .single left, .single right⟩
  obtain ⟨w, huw, hvw⟩ := Relation.church_rosser close hu hv
  exact ⟨w, reduces_iff_parallel.mpr huw, reduces_iff_parallel.mpr hvw⟩

/-- A term reduces to at most one normal term. -/
theorem Normal.unique {t u v : Nameless} (hu : rules.Normal u) (hv : rules.Normal v)
    (htu : rules.Reduces t u) (htv : rules.Reduces t v) : u = v := by
  obtain ⟨w, huw, hvw⟩ := htu.meet htv
  exact (hu.reduces_eq huw).symm.trans (hv.reduces_eq hvw)

end LambdaWorkbench.Nameless.Rules
