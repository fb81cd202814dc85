import LambdaWorkbench.Prompt.Line
import LambdaWorkbench.Proofs.Prompt.Outcome
import LambdaWorkbench.Proofs.Session.Provenance

/-! # Runs at the prompt

The prompt steps a session again and again; a bounded run never sees a session. Both make the same
steps: one pass of the loop at the prompt is the first step of a bounded run, and at both ends of
the loop, the limit and a normal form, the bounded run has ended as well.
-/

namespace LambdaWorkbench

namespace History

/-- A history after more terms, first to last. -/
def extend (history : History) (terms : List Term) : History :=
  terms.foldl push history

theorem toList_extend (history : History) (terms : List Term) :
    (history.extend terms).toList = history.toList ++ terms := by
  induction terms generalizing history with
  | nil => exact (List.append_nil _).symm
  | cons t rest ih =>
    rw [extend, List.foldl_cons, ← extend, ih, toList_push, List.append_assoc]
    rfl

theorem extend_append (history : History) (first second : List Term) :
    history.extend (first ++ second) = (history.extend first).extend second :=
  List.foldl_append

theorem current_extend (history : History) (terms : List Term) :
    (history.extend terms).current = terms.getLast?.getD history.current := by
  have newest := getLast?_toList (history.extend terms)
  rw [toList_extend, List.getLast?_append, getLast?_toList, Option.or_some] at newest
  exact (Option.some.inj newest).symm

end History

namespace Prompt

open Eval

variable {setting : Setting} {desk : Desk} {history : History}

/-- The line that ends a run of `made` steps. -/
def closing (isNormal : Bool) (made : Nat) : String :=
  if isNormal then "normal form after " ++ toString made ++ " steps"
  else "stopped after " ++ toString made ++ " steps"

/-- With no step left to make, a run prints how it ended. -/
theorem returns_runFrom_zero (loaded : desk.session.history = some history) (made : Nat) :
    let isNormal := (desk.session.env.redexes history.current).isEmpty
    Returns (runFrom false made 0) desk ()
      { desk with printed := desk.printed.push (closing isNormal made) } := by
  refine Returns.session_bind ?_
  refine Returns.ofExcept_bind (Session.redexes_eq loaded) ?_
  unfold closing
  split
  · exact returns_say _ desk
  · exact returns_say _ desk

/-- A run of a normal form prints that it is one. -/
theorem returns_runFrom_none (loaded : desk.session.history = some history)
    (ended : desk.session.env.advance desk.session.policy history.current = none)
    (made limit : Nat) :
    Returns (runFrom false made (limit + 1)) desk ()
      { desk with printed := desk.printed.push (closing true made) } := by
  have idle := Session.stepAuto_eq loaded
  rw [ended] at idle
  exact (returns_tryAsk_none idle).bind (returns_say _ desk)

/-- Otherwise it makes a step, prints the term, and goes on. -/
theorem returns_runFrom_some {t : Term} {desk' : Desk} {made limit : Nat}
    (loaded : desk.session.history = some history)
    (step : desk.session.env.advance desk.session.policy history.current = some t)
    (rest : Returns (runFrom false (made + 1) limit)
      { session := { desk.session with history := some (history.push t) }
        printed := desk.printed.push ("= " ++ desk.session.render t) } () desk') :
    Returns (runFrom false made (limit + 1)) desk () desk' := by
  have stepped := Session.stepAuto_eq loaded
  rw [step] at stepped
  exact (returns_tryAsk stepped).bind ((returns_sayTerm "= " t _).bind rest)

/-- A run goes on after `made` steps as the bounded run of the current term does from its start. -/
theorem returns_runFrom (loaded : desk.session.history = some history) (made limit : Nat) :
    let outcome := desk.session.env.normalize desk.session.policy limit history.current
    ∃ desk', Returns (runFrom false made limit) desk () desk' ∧
      desk'.session = { desk.session with history := some (history.extend outcome.steps) } ∧
      desk'.printed.toList =
        desk.printed.toList ++ outcome.steps.map ("= " ++ desk.session.render ·) ++
          [closing outcome.isNormal (made + outcome.steps.length)] := by
  induction limit generalizing desk history made with
  | zero =>
    refine ⟨_, returns_runFrom_zero loaded made, ?_, ?_⟩
    · rw [Environment.normalize_zero, History.extend, List.foldl_nil, ← loaded]
    · simp [Environment.normalize_zero]
  | succ limit ih =>
    cases step : desk.session.env.advance desk.session.policy history.current with
    | none =>
      refine ⟨_, returns_runFrom_none loaded step made limit, ?_, ?_⟩
      · rw [Environment.normalize_of_advance_none step, History.extend, List.foldl_nil, ← loaded]
      · simp [Environment.normalize_of_advance_none step]
    | some t =>
      let next : Desk :=
        { session := { desk.session with history := some (history.push t) }
          printed := desk.printed.push ("= " ++ desk.session.render t) }
      have pushed : next.session.history = some (history.push t) := rfl
      obtain ⟨desk', rest, session, printed⟩ := ih pushed (made + 1)
      refine ⟨desk', returns_runFrom_some loaded step rest, ?_, ?_⟩
      · rw [session, Environment.normalize_of_advance_some step]
        rfl
      · rw [printed, Environment.normalize_of_advance_some step, Array.toList_push,
          List.length_cons, List.map_cons, Nat.add_right_comm made 1, ← Nat.add_assoc made]
        simp only [List.append_assoc, List.singleton_append]
        rfl

/-- **Runs at the prompt.** Once a term is loaded, a run that is not interrupted cannot fail. It
prints the terms of the bounded run of the current term, and then whether that run ended at a normal
form or at the limit. It adds these terms to the history and leaves the rest of the session alone.
Hence a run that is followed by another leaves the session that one run of both lengths leaves. -/
theorem run_follows_normalize (unstopped : setting.stopped = false)
    (loaded : desk.session.history = some history) :
    (∀ limit,
      let session := desk.session
      let outcome := session.env.normalize session.policy limit history.current
      ∃ desk' reached, Returns (run setting limit) desk () desk' ∧
        desk'.printed.toList =
          desk.printed.toList ++ outcome.steps.map ("= " ++ session.render ·) ++
            [if outcome.isNormal then
              "normal form after " ++ toString outcome.steps.length ++ " steps"
            else "stopped after " ++ toString limit ++ " steps"] ∧
        desk'.session = { session with history := some reached } ∧
        reached.toList = history.toList ++ outcome.steps) ∧
      ∀ first second, ∃ mid last whole,
        Returns (run setting first) desk () mid ∧ Returns (run setting second) mid () last ∧
          Returns (run setting (first + second)) desk () whole ∧ last.session = whole.session := by
  constructor
  · intro limit session outcome
    obtain ⟨desk', returns, reached, printed⟩ := returns_runFrom loaded 0 limit
    have ending : closing outcome.isNormal outcome.steps.length =
        if outcome.isNormal then "normal form after " ++ toString outcome.steps.length ++ " steps"
        else "stopped after " ++ toString limit ++ " steps" := by
      unfold closing
      cases ended : outcome.isNormal with
      | true => rfl
      | false => rw [Environment.length_steps ended]
    refine ⟨desk', history.extend outcome.steps, ?_, ?_, reached, history.toList_extend _⟩
    · rw [run, unstopped]
      exact returns
    · rw [printed, Nat.zero_add, ← ending]
  · intro first second
    obtain ⟨mid, toMid, broken, -⟩ := returns_runFrom loaded 0 first
    obtain ⟨last, toLast, reached, -⟩ := returns_runFrom (congrArg Session.history broken) 0 second
    obtain ⟨whole, toWhole, reached', -⟩ := returns_runFrom loaded 0 (first + second)
    simp only [run, unstopped]
    refine ⟨mid, last, whole, toMid, toLast, toWhole, ?_⟩
    rw [reached, reached', broken, Environment.steps_add, History.extend_append, Normalized.last,
      ← History.current_extend]

/-- The second step of the term leads to a normal form, and no third one is looked for. -/
theorem run_follows_normalize_exactly :
    let identity : Term := .lam "x" (.var "x" 1)
    let t : Term := .app identity (.app identity (.free "y"))
    let setting : Setting := ⟨fun _ => .error .missing, 100, false⟩
    let desk : Desk := ⟨{ Session.new .empty with history := some (.start t) }, #[]⟩
    (∃ desk', Returns (run setting 0) desk () desk' ∧
      desk'.printed.toList = ["stopped after 0 steps"]) ∧
    (∃ desk' reached, Returns (run setting 2) desk () desk' ∧
      desk'.printed.toList = ["= ((λx.x) y)", "= y", "normal form after 2 steps"] ∧
      desk'.session = { desk.session with history := some reached } ∧
      reached.toList = [t, .app identity (.free "y"), .free "y"]) ∧
    ∃ mid last whole,
      Returns (run setting 1) desk () mid ∧ Returns (run setting 1) mid () last ∧
        Returns (run setting 2) desk () whole ∧ last.session = whole.session := by
  intro identity t setting desk
  have unstopped : setting.stopped = false := rfl
  have loaded : desk.session.history = some (.start t) := rfl
  obtain ⟨follows, resumes⟩ := run_follows_normalize unstopped loaded
  refine ⟨?_, ?_, resumes 1 1⟩
  · obtain ⟨desk', reached, returns, printed, -⟩ := follows 0
    exact ⟨desk', returns, printed.trans (by decide +kernel)⟩
  · obtain ⟨desk', reached, returns, printed, session, terms⟩ := follows 2
    exact ⟨desk', reached, returns, printed.trans (by decide +kernel), session,
      terms.trans (by decide +kernel)⟩

end Prompt

end LambdaWorkbench
