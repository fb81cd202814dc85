import LambdaWorkbench.Prompt.Line
import LambdaWorkbench.Proofs.Prompt.Numbering
import LambdaWorkbench.Proofs.Prompt.Outcome
import LambdaWorkbench.Proofs.Session.Operations

/-! # Lines are atomic

A line that fails has done nothing: whatever can fail comes before the first change of the session
and before the first line that is printed. After a change there is a term, its listed redexes can be
described and are found in it, and the policy never picks in vain, so that the rest of the line only
prints or goes on stepping.
-/

namespace LambdaWorkbench.Prompt

open Eval

variable {desk : Desk} {history : History}

/-! ## Printing the current term -/

theorem prints_sayRedexes (h : desk.session.history = some history) : Prints sayRedexes desk := by
  obtain ⟨lines, returns, -⟩ := returns_sayRedexes h
  exact ⟨(), _, returns, rfl⟩

theorem prints_sayCurrent (h : desk.session.history = some history) (mark : String) (t : Term) :
    Prints (sayCurrent mark t) desk := by
  refine (prints_sayTerm mark t desk).bind ?_
  intro done mid same
  rw [← same] at h
  exact prints_sayRedexes h

/-! ## Commands -/

theorem atomic_sayRedexes (desk : Desk) : Atomic sayRedexes desk := by
  cases h : desk.session.history with
  | some history => exact (prints_sayRedexes h).succeeds.atomic
  | none =>
    refine Atomic.session_bind ?_
    refine Atomic.ofExcept_bind ?_
    intro history found
    rw [Session.loaded, h] at found
    cases found

/-- A run of a loaded term cannot fail. -/
theorem succeeds_runFrom (h : desk.session.history = some history) (stopped : Bool)
    (steps limit : Nat) : Succeeds (runFrom stopped steps limit) desk := by
  induction limit generalizing desk history steps with
  | zero =>
    refine Prints.succeeds ?_
    refine Prints.session_bind ?_
    refine Prints.ofExcept_bind (Session.redexes_eq h) ?_
    split
    · exact prints_say _ desk
    · exact prints_say _ desk
  | succ limit ih =>
    rw [runFrom]
    split
    · exact (prints_say _ desk).succeeds
    · obtain ⟨result, picked⟩ := Session.exists_stepAuto_eq h
      cases result with
      | none =>
        refine Succeeds.bind ?_ (returns_tryAsk_none picked)
        exact (prints_say _ desk).succeeds
      | some pair =>
        refine Succeeds.bind ?_ (returns_tryAsk picked)
        obtain ⟨address, step⟩ := Session.of_stepAuto picked
        obtain ⟨old, -, -, eq⟩ := Session.of_step step
        obtain ⟨done, mid, said, same⟩ := prints_sayTerm "= " pair.1 { desk with session := pair.2 }
        refine Succeeds.bind ?_ said
        have loaded : mid.session.history = some (old.push pair.1) := by
          rw [same, eq]
        exact ih loaded (steps + 1)

theorem atomic_runFrom (stopped : Bool) (steps limit : Nat) (desk : Desk) :
    Atomic (runFrom stopped steps limit) desk := by
  cases h : desk.session.history with
  | some history => exact (succeeds_runFrom h stopped steps limit).atomic
  | none =>
    -- without a term the first thing that is asked of the session fails
    cases limit with
    | zero =>
      refine Atomic.session_bind ?_
      refine Atomic.ofExcept_bind ?_
      intro redexes found
      obtain ⟨history, past, -⟩ := Session.exists_history_of_bind found
      cases h.symm.trans past
    | succ limit =>
      rw [runFrom]
      split
      · exact (prints_say _ desk).succeeds.atomic
      · have fault : desk.session.stepAuto = .error .noTerm := by
          rw [Session.stepAuto, Session.redexes, Session.loaded, h]
          rfl
        exact (fails_tryAsk fault).bind.atomic

/-- After a reduction the new term is printed. -/
theorem succeeds_sayCurrent_of_step {session next : Session} {address : Address} {t : Term}
    (h : session.step address = .ok (some (t, next))) (mark : String) (desk : Desk) :
    Succeeds (sayCurrent mark t) { desk with session := next } := by
  obtain ⟨history, -, -, rfl⟩ := Session.of_step h
  exact (prints_sayCurrent rfl mark t).succeeds

theorem atomic_doStep (argument : String) (desk : Desk) : Atomic (doStep argument) desk := by
  unfold doStep
  split
  · refine Atomic.tryAsk_bind ?_ ?_
    · intro t next picked
      obtain ⟨address, step⟩ := Session.of_stepAuto picked
      exact succeeds_sayCurrent_of_step step "= " desk
    · intro idle
      exact (prints_say _ desk).succeeds
  · refine Atomic.readNumber_bind _ _ ?_
    intro number
    refine Atomic.tryAsk_bind ?_ ?_
    · intro t next picked
      obtain ⟨address, step⟩ := Session.of_stepNth picked
      exact succeeds_sayCurrent_of_step step "= " desk
    · intro idle
      exact (prints_say _ desk).succeeds

theorem atomic_doStepAt (argument : String) (desk : Desk) : Atomic (doStepAt argument) desk := by
  unfold doStepAt
  refine Atomic.ofExcept_bind ?_
  intro address parsed
  refine Atomic.tryAsk_bind ?_ ?_
  · intro t next step
    exact succeeds_sayCurrent_of_step step "= " desk
  · intro idle
    obtain ⟨kind, described⟩ := Session.exists_describe_of_step idle
    refine Prints.succeeds ?_
    refine Prints.session_bind ?_
    refine Prints.ofExcept_bind described ?_
    cases kind with
    | error reason => exact prints_say _ desk
    | ok redex => exact prints_pure () desk

theorem atomic_doUndo (desk : Desk) : Atomic doUndo desk := by
  unfold doUndo
  refine Atomic.tryAsk_bind ?_ ?_
  · intro t next taken
    obtain ⟨history, shorter, -, -, rfl⟩ := Session.of_undo taken
    refine Prints.succeeds ?_
    refine Prints.session_bind ?_
    refine Prints.ofExcept_bind (Session.loaded_eq rfl) ?_
    exact prints_sayCurrent rfl "  " shorter.current
  · intro idle
    exact (prints_say _ desk).succeeds

theorem atomic_doRun (setting : Setting) (argument : String) (desk : Desk) :
    Atomic (doRun setting argument) desk := by
  unfold doRun
  split
  · exact atomic_runFrom setting.stopped 0 setting.maxSteps desk
  · refine Atomic.readNumber_bind _ _ ?_
    intro limit
    exact atomic_runFrom setting.stopped 0 limit desk

theorem atomic_doHistory (argument : String) (desk : Desk) : Atomic (doHistory argument) desk := by
  unfold doHistory
  split
  · refine Atomic.session_bind ?_
    refine Atomic.ofExcept_bind ?_
    intro history found
    refine Succeeds.atomic ?_
    refine Prints.succeeds ?_
    refine prints_forM ?_ _ _
    intro entry desk
    exact prints_say _ desk
  · refine Atomic.readNumber_bind _ _ ?_
    intro steps
    refine Atomic.ask_bind ?_
    intro t next back
    obtain ⟨history, -, -, rfl⟩ := Session.of_rewind back
    exact (prints_sayCurrent rfl "  " t).succeeds

theorem atomic_doEnv (desk : Desk) : Atomic doEnv desk := by
  refine Atomic.session_bind ?_
  refine Succeeds.atomic ?_
  refine Prints.succeeds ?_
  refine prints_forM ?_ _ _
  intro entry desk
  exact prints_say _ desk

theorem atomic_loadFile (files : Files) (file : String) (desk : Desk) :
    Atomic (loadFile files file) desk := by
  rw [loadFile, during_ofExcept]
  refine Atomic.ofExcept_bind ?_
  intro source read
  rw [during_ofExcept]
  refine Atomic.ofExcept_bind ?_
  intro found parsed
  exact Succeeds.atomic ⟨found.size, _, rfl⟩

theorem atomic_doLoad (setting : Setting) (argument : String) (desk : Desk) :
    Atomic (doLoad setting argument) desk := by
  refine (atomic_loadFile setting.files argument desk).bind ?_
  intro count mid added
  exact (prints_say _ mid).succeeds

theorem atomic_doStyle (argument : String) (desk : Desk) : Atomic (doStyle argument) desk := by
  unfold doStyle
  split
  · refine Atomic.ofExcept_bind ?_
    intro style known
    exact Succeeds.atomic ⟨(), _, rfl⟩
  · exact Succeeds.atomic ⟨(), _, rfl⟩

theorem atomic_doPolicy (argument : String) (desk : Desk) : Atomic (doPolicy argument) desk := by
  unfold doPolicy
  split
  · refine Atomic.ofExcept_bind ?_
    intro policy known
    exact Succeeds.atomic ⟨(), _, rfl⟩
  · exact Succeeds.atomic ⟨(), _, rfl⟩

theorem atomic_doCommand (setting : Setting) (command : Command) (argument : String)
    (desk : Desk) : Atomic (doCommand setting command argument) desk := by
  cases command with
  | help => exact (prints_forM prints_say helpLines desk).succeeds.atomic
  | step => exact atomic_doStep argument desk
  | stepAt => exact atomic_doStepAt argument desk
  | undo => exact atomic_doUndo desk
  | run => exact atomic_doRun setting argument desk
  | history => exact atomic_doHistory argument desk
  | redexes => exact atomic_sayRedexes desk
  | env => exact atomic_doEnv desk
  | load => exact atomic_doLoad setting argument desk
  | style => exact atomic_doStyle argument desk
  | policy => exact atomic_doPolicy argument desk

/-! ## Lines -/

theorem atomic_evalCommand (setting : Setting) (input : List Char) (desk : Desk) :
    Atomic (evalCommand setting input) desk := by
  unfold evalCommand
  cases commandParts input with
  | mk name argument =>
    dsimp only
    split
    · exact (fails_throw _ desk).atomic
    · split
      · exact (fails_throw _ desk).atomic
      · exact atomic_doCommand setting _ argument desk

theorem atomic_evalDefinition (name text : String) (desk : Desk) :
    Atomic (evalDefinition name text) desk := by
  refine Atomic.ask_bind ?_
  intro old next defined
  cases old with
  | some replaced => exact (prints_say _ _).succeeds
  | none => exact (prints_say _ _).succeeds

theorem atomic_evalExpression (text : String) (desk : Desk) :
    Atomic (evalExpression text) desk := by
  refine Atomic.ask_bind ?_
  intro t next loaded
  obtain ⟨-, rfl⟩ := Session.of_load loaded
  exact (prints_sayCurrent rfl "  " t).succeeds

/-- **Failing lines do nothing.** Whatever is typed, and whatever the files hold, a line that fails
leaves the session as it was and has printed nothing. What is printed after a change, the current
term and its redexes, cannot fail once a term is loaded, and changes nothing. -/
theorem evalLine_atomic (setting : Setting) (line : String) (desk : Desk) :
    (∀ failure desk', Fails (evalLine setting line) desk failure desk' → desk' = desk) ∧
      ∀ history mark t, desk.session.history = some history →
        ∃ desk', Returns (sayCurrent mark t) desk () desk' ∧ desk'.session = desk.session := by
  constructor
  · show Atomic (evalLine setting line) desk
    unfold evalLine
    dsimp only
    split
    · exact (prints_pure () desk).succeeds.atomic
    · exact atomic_evalCommand setting _ desk
    · split
      · exact atomic_evalDefinition _ _ desk
      · exact atomic_evalExpression _ desk
  · intro history mark t loaded
    obtain ⟨done, desk', returns, same⟩ := prints_sayCurrent loaded mark t
    exact ⟨desk', returns, same⟩

/-- The only redex of `I y` has number one. -/
theorem evalLine_atomic_numbered :
    let env := Environment.empty.insert "I" (.lam "x" (.var "x" 1))
    let t : Term := .app (.free "I") (.free "y")
    let setting : Setting := ⟨fun _ => .error .missing, 100, false⟩
    let desk : Desk := ⟨{ Session.new env with history := some (.start t) }, #["  (I y)"]⟩
    Fails (evalLine setting ":step 3") desk (.session (.noSuchRedex 3 1)) desk ∧
      ∃ desk', Returns (sayCurrent "= " t) desk () desk' ∧ desk'.session = desk.session := by
  intro env t setting desk
  obtain ⟨atomic, prints⟩ := evalLine_atomic setting ":step 3" desk
  have failed : ((evalLine setting ":step 3").run.run desk).1 =
      .error (.session (.noSuchRedex 3 1)) := by decide +kernel
  have fails : Fails (evalLine setting ":step 3") desk (.session (.noSuchRedex 3 1))
      ((evalLine setting ":step 3").run.run desk).2 := Prod.ext failed rfl
  have same := atomic _ _ fails
  rw [same] at fails
  exact ⟨fails, prints (.start t) "= " t rfl⟩

end LambdaWorkbench.Prompt
