import Mathlib.Data.List.TFAE
import Mathlib.Tactic.TFAE
import LambdaWorkbench.Proofs.Redex.Listing
import LambdaWorkbench.Proofs.Redex.Simulation

/-! # Listing, classifying and reducing agree

An address misses the term, or leads to an inert place, or to a redex. The list of redexes, the
classification of a place and the reduction there tell these three apart in the same way, although
each of them goes through the term on its own.
-/

namespace LambdaWorkbench

/-- The first address leads to the function side of an application, the second into its argument. -/
def Address.Forks (a b : Address) : Prop :=
  ∃ common, common ++ [.func] <+: a ∧ common ++ [.arg] <+: b

theorem Address.Forks.cons {a b : Address} (h : Forks a b) (step : Step) :
    Forks (step :: a) (step :: b) := by
  obtain ⟨common, before, after⟩ := h
  exact ⟨step :: common, (List.prefix_cons_inj step).mpr before,
    (List.prefix_cons_inj step).mpr after⟩

/-- In one term, addresses can only part at an application. -/
theorem Term.Path.forks {t sub sub' : Term} {a b : Address} {binders binders' : List String}
    (h : Path t a binders sub) (h' : Path t b binders' sub') (left : a.LeftOf b) : a.Forks b := by
  induction h generalizing b binders' with
  | root t => exact absurd left (Address.not_nil_leftOf b)
  | func _ ih =>
    cases h' with
    | root t => exact absurd left (Address.not_leftOf_nil _)
    | func inFunc => exact (ih inFunc (Address.leftOf_cons_self.mp left)).cons .func
    | arg _ => exact ⟨[], ⟨_, rfl⟩, ⟨_, rfl⟩⟩
  | body _ ih =>
    cases h' with
    | root t => exact absurd left (Address.not_leftOf_nil _)
    | body inBody => exact (ih inBody (Address.leftOf_cons_self.mp left)).cons .body
  | arg _ ih =>
    cases h' with
    | root t => exact absurd left (Address.not_leftOf_nil _)
    | func _ =>
      rcases Address.leftOf_cons.mp left with less | ⟨same, -⟩
      · exact absurd less (by decide)
      · cases same
    | arg inArg => exact (ih inArg (Address.leftOf_cons_self.mp left)).cons .arg

namespace Environment

variable {env : Environment} {t u : Term} {address : Address}

/-- What an address of a term can turn out to be. -/
inductive Verdict (env : Environment) (t : Term) (address : Address) : Prop
  | misfit {fault : AddressError} : t.subterm address = .error fault →
      env.classify t address = .error fault → env.reduceAt t address = .error fault →
      Verdict env t address
  | inert {sub : Term} {reason : Inert} : t.subterm address = .ok sub →
      env.classify t address = .ok (.error reason) → env.reduceAt t address = .ok none →
      Verdict env t address
  | redex {sub u v : Term} {redex : Redex} : t.subterm address = .ok sub →
      env.classify t address = .ok (.ok redex) → env.contract t address sub redex = .ok (some v) →
      env.reduceAt t address = .ok (some u) → Verdict env t address

theorem verdict (env : Environment) (t : Term) (address : Address) : Verdict env t address := by
  cases found : t.subterm address with
  | error fault =>
    exact .misfit found (Term.classify_of_error found) (Term.reduceAt_of_error found)
  | ok sub =>
    obtain ⟨binders, path⟩ := Term.Path.of_subterm found
    have classified := path.classify_eq env
    have reduced := path.reduceAt_eq env
    cases kind : env.classifyBelow binders sub with
    | error reason =>
      rw [kind] at classified reduced
      exact .inert found classified reduced
    | ok redex =>
      obtain ⟨v, -, contracted, -⟩ := path.contract_eq kind
      simp only [kind, contracted] at classified reduced
      exact .redex found classified contracted reduced

/-- Exactly the listed redexes can be reduced. -/
theorem mem_redexes_iff : address ∈ env.redexes t ↔ ∃ u, env.reduceAt t address = .ok (some u) := by
  rw [redexes_eq, Nameless.Rules.mem_redexes, stepAt_nameless]
  constructor
  · intro h
    split at h
    · rename_i u eq
      exact ⟨u, eq⟩
    · cases h
  · rintro ⟨u, eq⟩
    rw [eq]
    rfl

/-- Exactly the listed redexes are classified as such. -/
theorem mem_redexes_iff_classify :
    address ∈ env.redexes t ↔ ∃ redex, env.classify t address = .ok (.ok redex) := by
  rw [mem_redexes_iff]
  rcases env.verdict t address with ⟨-, classified, reduced⟩ | ⟨-, classified, reduced⟩ |
    ⟨-, classified, -, reduced⟩
  · simp [classified, reduced]
  · simp [classified, reduced]
  · simp [classified, reduced]

/-- A reduction fails as the look-up of the subterm does. -/
theorem reduceAt_eq_error_iff {fault : AddressError} :
    env.reduceAt t address = .error fault ↔ t.subterm address = .error fault := by
  rcases env.verdict t address with ⟨found, -, reduced⟩ | ⟨found, -, reduced⟩ |
    ⟨found, -, -, reduced⟩
  · simp [found, reduced]
  · simp [found, reduced]
  · simp [found, reduced]

theorem reduceAt_eq_none_iff :
    env.reduceAt t address = .ok none ↔
      ∃ reason, env.classify t address = .ok (.error reason) := by
  rcases env.verdict t address with ⟨-, classified, reduced⟩ | ⟨-, classified, reduced⟩ |
    ⟨-, classified, -, reduced⟩
  · simp [classified, reduced]
  · simp [classified, reduced]
  · simp [classified, reduced]

/-- What has been classified as a redex is contracted. -/
theorem exists_contract_eq {sub : Term} {redex : Redex} (found : t.subterm address = .ok sub)
    (classified : env.classify t address = .ok (.ok redex)) :
    ∃ v, env.contract t address sub redex = .ok (some v) := by
  obtain ⟨binders, path⟩ := Term.Path.of_subterm found
  rw [path.classify_eq] at classified
  obtain ⟨v, -, contracted, -⟩ := path.contract_eq (Except.ok.inj classified)
  exact ⟨v, contracted⟩

theorem redexes_pairwise (env : Environment) (t : Term) : (env.redexes t).Pairwise (· < ·) := by
  rw [redexes_eq]
  exact env.rules.redexes_pairwise t.nameless

/-- Whatever can be reduced or is found inert is a subterm. -/
theorem exists_path_of_reduceAt {next : Option Term} (h : env.reduceAt t address = .ok next) :
    ∃ binders sub, Term.Path t address binders sub := by
  cases found : t.subterm address with
  | error fault =>
    rw [Term.reduceAt_of_error found] at h
    cases h
  | ok sub =>
    obtain ⟨binders, path⟩ := Term.Path.of_subterm found
    exact ⟨binders, sub, path⟩

/-- Of two listed redexes the first is around the second, or stands before it in an application. -/
theorem above_or_forks {a b : Address} (ha : a ∈ env.redexes t) (hb : b ∈ env.redexes t)
    (less : a < b) : a.Above b ∨ a.Forks b := by
  obtain ⟨u, reduced⟩ := mem_redexes_iff.mp ha
  obtain ⟨u', reduced'⟩ := mem_redexes_iff.mp hb
  obtain ⟨binders, sub, path⟩ := exists_path_of_reduceAt reduced
  obtain ⟨binders', sub', path'⟩ := exists_path_of_reduceAt reduced'
  rcases Address.lt_iff.mp less with above | left
  · exact .inl above
  · exact .inr (path.forks path' left)

/-- **The list of redexes is exact.** It is in the order of the addresses, what is around before
what is inside and the function side before the argument, so that each address comes once. The
listed addresses are those that are classified as redexes, and those at which a reduction succeeds.
A reduction fails as the look-up of the subterm does, comes to nothing only where the place is
classified as inert, and never comes to nothing after it has found a redex. -/
theorem redexes_exact (env : Environment) (t : Term) :
    (env.redexes t).Pairwise (fun a b => a < b ∧ (a.Above b ∨ a.Forks b)) ∧
    (env.redexes t).Nodup ∧
    ∀ address,
      [address ∈ env.redexes t,
        ∃ redex, env.classify t address = .ok (.ok redex),
        ∃ u, env.reduceAt t address = .ok (some u)].TFAE ∧
      (∀ fault, env.reduceAt t address = .error fault ↔ t.subterm address = .error fault) ∧
      (env.reduceAt t address = .ok none ↔
        ∃ reason, env.classify t address = .ok (.error reason)) ∧
      ∀ sub redex, t.subterm address = .ok sub → env.classify t address = .ok (.ok redex) →
        ∃ v, env.contract t address sub redex = .ok (some v) := by
  have sorted := env.redexes_pairwise t
  refine ⟨?_, ?_, ?_⟩
  · refine List.Pairwise.imp_of_mem ?_ sorted
    intro a b ha hb less
    exact ⟨less, above_or_forks ha hb less⟩
  · refine sorted.imp ?_
    rintro a _ less rfl
    exact List.lt_irrefl a less
  · intro address
    refine ⟨?_, fun _ => reduceAt_eq_error_iff, reduceAt_eq_none_iff, fun _ _ => exists_contract_eq⟩
    tfae_have 1 ↔ 2 := mem_redexes_iff_classify
    tfae_have 1 ↔ 3 := mem_redexes_iff
    tfae_finish

/-- In `(λI.I (I 7)) (I 3)` the free `I` and the numeral are redexes; the bound `I` is not, and 7 is
above the limit. -/
theorem redexes_exact_limited :
    let env := (empty.insert "I" (.lam "x" (.var "x" 1))).withLimit (some 5)
    let t : Term := .app (.lam "I" (.app (.var "I" 1) (.app (.var "I" 1) (.free "7"))))
      (.app (.free "I") (.free "3"))
    env.redexes t = [[], [.arg, .func], [.arg, .arg]] ∧
      (∃ redex, env.classify t [.arg, .func] = .ok (.ok redex)) ∧
      (∃ u, env.reduceAt t [.arg, .func] = .ok (some u)) ∧
      env.reduceAt t [.func, .body, .func] = .ok none ∧
      env.reduceAt t [.func, .arg] = .error (.mismatch [.func, .arg] 1) ∧
      ∃ v, env.contract t [.arg, .arg] (.free "3") (.numeral 3) = .ok (some v) := by
  intro env t
  have listed : env.redexes t = [[], [.arg, .func], [.arg, .arg]] := by decide +kernel
  have inert : env.classify t [.func, .body, .func] = .ok (.error (.boundVariable "I")) := rfl
  have three : env.classify t [.arg, .arg] = .ok (.ok (.numeral 3)) := rfl
  obtain ⟨-, -, agree⟩ := redexes_exact env t
  obtain ⟨same, -⟩ := agree [.arg, .func]
  have mem : [Step.arg, .func] ∈ env.redexes t := by rw [listed]; decide
  exact ⟨listed, (same.out 0 1).mp mem, (same.out 0 2).mp mem,
    (agree [.func, .body, .func]).2.2.1.mpr ⟨_, inert⟩, ((agree [.func, .arg]).2.1 _).mpr rfl,
    (agree [.arg, .arg]).2.2.2 _ _ rfl three⟩

end Environment

end LambdaWorkbench
