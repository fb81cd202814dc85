import LambdaWorkbench.Proofs.Environment.Prelude
import LambdaWorkbench.Proofs.Nameless.Combinators
import LambdaWorkbench.Proofs.Redex.NormalOrder

/-! # The equations of the combinators

A run in normal order from a combinator of the prelude and its arguments comes to the right side of
its equation, whatever the arguments are. Their free names may be the parameters of the combinator,
in which case lambdas are renamed, and they may have redexes of their own, which have to wait.
-/

namespace LambdaWorkbench.Environment

open Term

variable {env : Environment} {t result : Term} {s : Nameless}

/-- A run from `t` comes, after one or more steps, to a term that is `result` up to the names of
parameters. -/
def Yields (env : Environment) (policy : Policy) (t result : Term) : Prop :=
  ∃ count, ∃ u ∈ (Run.start env policy t).take count, u.alphaEq result = true

/-- What normal steps of the reading lead to is yielded, if there is at least one. -/
theorem Yields.of_normalSteps (step : env.rules.normalStep t.nameless = some s)
    (rest : env.rules.NormalSteps s result.nameless) : env.Yields .normalOrder t result := by
  induction rest using Relation.ReflTransGen.head_induction_on generalizing t with
  | refl =>
    rw [← advance_normalOrder] at step
    obtain ⟨u, advanced, reads⟩ := Option.map_eq_some_iff.mp step
    refine ⟨1, u, ?_, alphaEq_iff_nameless.mpr reads⟩
    rw [take_start_succ, advanced]
    exact List.mem_singleton.mpr rfl
  | head next _ ih =>
    rw [← advance_normalOrder] at step
    obtain ⟨u, advanced, rfl⟩ := Option.map_eq_some_iff.mp step
    obtain ⟨count, v, yielded, same⟩ := ih next
    refine ⟨count + 1, v, ?_, same⟩
    rw [take_start_succ, advanced]
    exact List.mem_cons_of_mem u yielded

theorem Yields.of_weakHeads (step : env.rules.WeakHead t.nameless s)
    (rest : env.rules.WeakHeads s result.nameless) : env.Yields .normalOrder t result :=
  .of_normalSteps step.normalStep_eq rest.normalSteps

/-! ## Definitions -/

/-- The names of the combinators, of the functions on pairs, and of what these use. -/
def combinatorNames : List String :=
  ["I", "K", "S", "B", "C", "PAIR", "FST", "SND", "TRUE", "FALSE"]

/-- What the prelude defines them as. -/
def combinators : List (String × Nameless) :=
  [("I", .identity), ("K", .keepFirst), ("S", .distributor), ("B", .compositor), ("C", .exchanger),
    ("PAIR", .pairing), ("FST", .selector "TRUE"), ("SND", .selector "FALSE"), ("TRUE", .keepFirst),
    ("FALSE", .keepSecond)]

theorem get?_combinators : ∀ entry ∈ combinators, entry.1 ∈ combinatorNames ∧
    (loadedPrelude.get? entry.1).map nameless = some entry.2 := by
  decide

/-- An environment that has the definitions of the prelude unfolds the names as the prelude does. -/
theorem unfold_combinators
    (defines : ∀ name ∈ combinatorNames, env.get? name = loadedPrelude.get? name) :
    ∀ entry ∈ combinators, env.rules.unfold entry.1 = some entry.2 := by
  intro entry listed
  obtain ⟨mem, known⟩ := get?_combinators entry listed
  obtain ⟨term, defined, reads⟩ := Option.map_eq_some_iff.mp known
  rw [unfold_of_get? ((defines entry.1 mem).trans defined), reads]

/-! ## Equations -/

section Applied

variable {name : String} {body : Nameless} {a b c : Term}

theorem yields_apply (defined : env.rules.unfold name = some body)
    (rest : env.rules.WeakHeads (.app body a.nameless) result.nameless) :
    env.Yields .normalOrder (app (free name) a) result :=
  .of_weakHeads (.func _ (.unfold defined)) rest

theorem yields_apply₂ (defined : env.rules.unfold name = some body)
    (rest : env.rules.WeakHeads (.app (.app body a.nameless) b.nameless) result.nameless) :
    env.Yields .normalOrder (app (app (free name) a) b) result :=
  .of_weakHeads (.func _ (.func _ (.unfold defined))) rest

theorem yields_apply₃ (defined : env.rules.unfold name = some body)
    (rest : env.rules.WeakHeads (.app (.app (.app body a.nameless) b.nameless) c.nameless)
      result.nameless) :
    env.Yields .normalOrder (app (app (app (free name) a) b) c) result :=
  .of_weakHeads (.func _ (.func _ (.func _ (.unfold defined)))) rest

end Applied

/-- **The combinators satisfy their equations.** In an environment that has the definitions of the
prelude for them, and any other definitions, a run in normal order from a combinator applied to
any terms yields what its equation says, up to the names of parameters. -/
theorem combinator_equations {prelude : Environment} (loaded : Environment.prelude = .ok prelude)
    (defines : ∀ name ∈ combinatorNames, env.get? name = prelude.get? name) (a b c : Term) :
    env.Yields .normalOrder (app (free "I") a) a ∧
    env.Yields .normalOrder (app (app (free "K") a) b) a ∧
    env.Yields .normalOrder (app (app (app (free "S") a) b) c) (app (app a c) (app b c)) ∧
    env.Yields .normalOrder (app (app (app (free "B") a) b) c) (app a (app b c)) ∧
    env.Yields .normalOrder (app (app (app (free "C") a) b) c) (app (app a c) b) ∧
    env.Yields .normalOrder (app (free "FST") (app (app (free "PAIR") a) b)) a ∧
    env.Yields .normalOrder (app (free "SND") (app (app (free "PAIR") a) b)) b := by
  obtain rfl : loadedPrelude = prelude := Except.ok.inj (prelude_eq.symm.trans loaded)
  have unfolds := unfold_combinators defines
  simp only [combinators, List.forall_mem_cons] at unfolds
  obtain ⟨i, k, s, composes, exchanges, pair, fst, snd, yes, no, -⟩ := unfolds
  refine ⟨yields_apply i ?_, yields_apply₂ k ?_, yields_apply₃ s ?_, yields_apply₃ composes ?_,
    yields_apply₃ exchanges ?_, yields_apply fst ?_, yields_apply snd ?_⟩
  · exact Nameless.Rules.weakHeads_identity _ _
  · exact Nameless.Rules.weakHeads_keepFirst _ _ _
  · exact Nameless.Rules.weakHeads_distributor _ _ _ _
  · exact Nameless.Rules.weakHeads_compositor _ _ _ _
  · exact Nameless.Rules.weakHeads_exchanger _ _ _ _
  · exact Nameless.Rules.weakHeads_selector pair yes (Nameless.Rules.weakHeads_keepFirst _ _ _)
  · exact Nameless.Rules.weakHeads_selector pair no (Nameless.Rules.weakHeads_keepSecond _ _ _)

/-- The arguments have parameters of the combinators as free names, and `x` is defined, so that
they have redexes of their own. -/
theorem combinator_equations_clashing :
    let env := loadedPrelude.insert "x" (free "K")
    let a : Term := app (free "x") (free "z")
    Environment.prelude = .ok loadedPrelude ∧
      (∀ name ∈ combinatorNames, env.get? name = loadedPrelude.get? name) ∧
      env.redexes a = [[.func]] ∧
      env.Yields .normalOrder (app (app (app (free "S") a) (free "x")) (free "y"))
        (app (app a (free "y")) (app (free "x") (free "y"))) ∧
      env.Yields .normalOrder (app (free "SND") (app (app (free "PAIR") (free "f")) a)) a := by
  intro env a
  have defines : ∀ name ∈ combinatorNames, env.get? name = loadedPrelude.get? name := by
    intro name mem
    have other : name ≠ "x" := by
      rintro rfl
      exact absurd mem (by decide)
    rw [get?_insert, if_neg other]
  obtain ⟨-, -, distributes, -⟩ :=
    combinator_equations prelude_eq defines a (free "x") (free "y")
  obtain ⟨-, -, -, -, -, -, snd⟩ := combinator_equations prelude_eq defines (free "f") a (free "y")
  exact ⟨prelude_eq, defines, by decide, distributes, snd⟩

end LambdaWorkbench.Environment
