import LambdaWorkbench.Prompt.Loop
import LambdaWorkbench.Proofs.Prompt.Outcome

/-! # Answers one at a time

What has been printed stays, and plays no part in an evaluation. So the texts of an input may be
carried out each by itself, in the session that the text before it has left: the answers put
together are what the read loop prints and tells. Of all files, a text needs the one that it asks to
load.
-/

namespace LambdaWorkbench

/-- The desk, if more lines had been printed before. -/
def Desk.after (before : Array String) (desk : Desk) : Desk :=
  { desk with printed := before ++ desk.printed }

namespace Eval

variable {α β : Type} {eval : Eval α} {f : α → Eval β} {desk desk' : Desk} {value : α}
  {failure : Failure}

/-- What has been printed before stays, and nothing else depends on it. -/
def Appends (eval : Eval α) : Prop :=
  ∀ before desk,
    eval.run.run (desk.after before) = Prod.map id (Desk.after before) (eval.run.run desk)

theorem Appends.returns (h : Appends eval) (returns : Returns eval desk value desk')
    (before : Array String) : Returns eval (desk.after before) value (desk'.after before) := by
  rw [Returns, h, returns]
  rfl

theorem Appends.fails (h : Appends eval) (fails : Fails eval desk failure desk')
    (before : Array String) : Fails eval (desk.after before) failure (desk'.after before) := by
  rw [Fails, h, fails]
  rfl

theorem appends_pure (value : α) : Appends (pure value) :=
  fun _ _ => rfl

theorem appends_throw (failure : Failure) : Appends (throw failure : Eval α) :=
  fun _ _ => rfl

theorem Appends.bind (first : Appends eval) (rest : ∀ value, Appends (f value)) :
    Appends (eval >>= f) := by
  intro before desk
  rcases returns_or_fails eval desk with ⟨value, mid, returns⟩ | ⟨failure, mid, fails⟩
  · rw [run_bind (first.returns returns before), run_bind returns, rest value]
  · have whole : (eval >>= f).run.run desk = (.error failure, mid) := fails.bind
    rw [whole]
    exact (first.fails fails before).bind

theorem Appends.during (h : Appends eval) (activity : Activity) :
    Appends (during activity eval) := by
  intro before desk
  rcases returns_or_fails eval desk with ⟨value, mid, returns⟩ | ⟨failure, mid, fails⟩
  · have whole : (Eval.during activity eval).run.run desk = (.ok value, mid) :=
      returns.during activity
    rw [whole]
    exact (h.returns returns before).during activity
  · have whole : (Eval.during activity eval).run.run desk =
        (.error (.during activity failure), mid) := fails.during activity
    rw [whole]
    exact (h.fails fails before).during activity

theorem appends_ofExcept {ε : Type} (fault : ε → Failure) (outcome : Except ε α) :
    Appends (ofExcept fault outcome) := by
  cases outcome with
  | ok value => exact appends_pure value
  | error error => exact appends_throw (fault error)

theorem appends_session : Appends session :=
  fun _ _ => rfl

theorem appends_modifySession (edit : Session → Session) :
    Appends (modify fun desk => { desk with session := edit desk.session }) :=
  fun _ _ => rfl

theorem appends_say (line : String) : Appends (say line) := by
  intro before desk
  refine Prod.ext rfl ?_
  exact congrArg (Desk.mk desk.session) Array.push_append

theorem appends_sayTerm (mark : String) (t : Term) : Appends (sayTerm mark t) :=
  appends_session.bind fun _ => appends_say _

theorem appends_forM {ι : Type} {act : ι → Eval Unit} (h : ∀ item, Appends (act item))
    (items : List ι) : Appends (items.forM act) := by
  induction items with
  | nil => exact appends_pure ()
  | cons item rest ih =>
    rw [List.forM_eq_forM, List.forM_cons]
    exact (h item).bind fun _ => ih

theorem appends_ask (operation : Session → Except SessionError (α × Session)) :
    Appends (ask operation) := by
  refine appends_session.bind fun session => ?_
  refine (appends_ofExcept _ _).bind fun (value, next) => ?_
  exact (appends_modifySession fun _ => next).bind fun _ => appends_pure value

theorem appends_tryAsk (operation : Session → Except SessionError (Option (α × Session))) :
    Appends (tryAsk operation) := by
  refine appends_session.bind fun session => ?_
  refine (appends_ofExcept _ _).bind fun found => ?_
  cases found with
  | none => exact appends_pure none
  | some pair => exact (appends_modifySession fun _ => pair.2).bind fun _ => appends_pure _

theorem appends_readNumber (activity : Activity) (text : String) :
    Appends (readNumber activity text) :=
  (appends_ofExcept _ _).during activity

end Eval

namespace Prompt

open Eval

/-! ## Lines -/

theorem appends_sayRedexesFrom (t : Term) (number : Nat) (addresses : List Address) :
    Appends (sayRedexesFrom t number addresses) := by
  induction addresses generalizing number with
  | nil => exact appends_pure ()
  | cons address rest ih =>
    refine appends_session.bind fun session => ?_
    refine (appends_ofExcept _ _).bind fun described => ?_
    refine (appends_ofExcept _ _).bind fun sub => ?_
    exact (appends_say _).bind fun _ => ih (number + 1)

theorem appends_sayRedexes : Appends sayRedexes := by
  refine appends_session.bind fun session => ?_
  refine (appends_ofExcept _ _).bind fun history => ?_
  refine (appends_ofExcept _ _).bind fun redexes => ?_
  split
  · exact (appends_say _).bind fun _ => appends_sayRedexesFrom _ _ _
  · exact appends_sayRedexesFrom _ _ _

theorem appends_sayCurrent (mark : String) (t : Term) : Appends (sayCurrent mark t) :=
  (appends_sayTerm mark t).bind fun _ => appends_sayRedexes

theorem appends_runFrom (stopped : Bool) (steps limit : Nat) :
    Appends (runFrom stopped steps limit) := by
  induction limit generalizing steps with
  | zero =>
    refine appends_session.bind fun session => ?_
    refine (appends_ofExcept _ _).bind fun redexes => ?_
    split
    · exact appends_say _
    · exact appends_say _
  | succ limit ih =>
    rw [runFrom]
    split
    · exact appends_say _
    · refine (appends_tryAsk _).bind fun stepped => ?_
      cases stepped with
      | none => exact appends_say _
      | some t => exact (appends_sayTerm _ _).bind fun _ => ih (steps + 1)

theorem appends_doStep (argument : String) : Appends (doStep argument) := by
  unfold doStep
  split
  · refine (appends_tryAsk _).bind fun stepped => ?_
    cases stepped with
    | none => exact appends_say _
    | some t => exact appends_sayCurrent _ _
  · refine (appends_readNumber _ _).bind fun number => ?_
    refine (appends_tryAsk _).bind fun stepped => ?_
    cases stepped with
    | none => exact appends_say _
    | some t => exact appends_sayCurrent _ _

theorem appends_doStepAt (argument : String) : Appends (doStepAt argument) := by
  refine (appends_ofExcept _ _).bind fun address => ?_
  refine (appends_tryAsk _).bind fun stepped => ?_
  cases stepped with
  | some t => exact appends_sayCurrent _ _
  | none =>
    refine appends_session.bind fun session => ?_
    refine (appends_ofExcept _ _).bind fun described => ?_
    cases described with
    | error reason => exact appends_say _
    | ok redex => exact appends_pure ()

theorem appends_doUndo : Appends doUndo := by
  refine (appends_tryAsk _).bind fun undone => ?_
  cases undone with
  | none => exact appends_say _
  | some t =>
    refine appends_session.bind fun session => ?_
    exact (appends_ofExcept _ _).bind fun history => appends_sayCurrent _ _

theorem appends_doRun (setting : Setting) (argument : String) :
    Appends (doRun setting argument) := by
  unfold doRun
  split
  · exact appends_runFrom _ _ _
  · exact (appends_readNumber _ _).bind fun limit => appends_runFrom _ _ _

theorem appends_doHistory (argument : String) : Appends (doHistory argument) := by
  unfold doHistory
  split
  · refine appends_session.bind fun session => ?_
    refine (appends_ofExcept _ _).bind fun history => ?_
    exact appends_forM (fun _ => appends_say _) _
  · refine (appends_readNumber _ _).bind fun steps => ?_
    exact (appends_ask _).bind fun t => appends_sayCurrent _ _

theorem appends_doEnv : Appends doEnv :=
  appends_session.bind fun _ => appends_forM (fun _ => appends_say _) _

theorem appends_doLoad (setting : Setting) (argument : String) :
    Appends (doLoad setting argument) := by
  refine Appends.bind ?_ fun count => appends_say _
  refine ((appends_ofExcept _ _).during _).bind fun source => ?_
  refine ((appends_ofExcept _ _).during _).bind fun found => ?_
  exact (appends_modifySession fun session =>
    { session with env := session.env.extend found }).bind fun _ => appends_pure _

theorem appends_doStyle (argument : String) : Appends (doStyle argument) := by
  have answer : Appends (do say ("style: " ++ (← session).style.name)) :=
    appends_session.bind fun _ => appends_say _
  unfold doStyle
  split
  · refine (appends_ofExcept _ _).bind fun style => ?_
    exact (appends_modifySession fun session => { session with style }).bind fun _ => answer
  · exact answer

theorem appends_doPolicy (argument : String) : Appends (doPolicy argument) := by
  have answer : Appends (do say ("policy: " ++ (← session).policy.name)) :=
    appends_session.bind fun _ => appends_say _
  unfold doPolicy
  split
  · refine (appends_ofExcept _ _).bind fun policy => ?_
    exact (appends_modifySession fun session => { session with policy }).bind fun _ => answer
  · exact answer

theorem appends_doCommand (setting : Setting) (command : Command) (argument : String) :
    Appends (doCommand setting command argument) := by
  cases command with
  | help => exact appends_forM appends_say helpLines
  | step => exact appends_doStep argument
  | stepAt => exact appends_doStepAt argument
  | undo => exact appends_doUndo
  | run => exact appends_doRun setting argument
  | history => exact appends_doHistory argument
  | redexes => exact appends_sayRedexes
  | env => exact appends_doEnv
  | load => exact appends_doLoad setting argument
  | style => exact appends_doStyle argument
  | policy => exact appends_doPolicy argument

theorem appends_evalCommand (setting : Setting) (input : List Char) :
    Appends (evalCommand setting input) := by
  unfold evalCommand
  cases commandParts input with
  | mk name argument =>
    dsimp only
    split
    · exact appends_throw _
    · split
      · exact appends_throw _
      · exact appends_doCommand _ _ _

theorem appends_evalDefinition (name text : String) : Appends (evalDefinition name text) := by
  refine (appends_ask _).bind fun old => ?_
  cases old with
  | none => exact appends_say _
  | some replaced => exact appends_say _

theorem appends_evalLine (setting : Setting) (line : String) : Appends (evalLine setting line) := by
  unfold evalLine
  dsimp only
  split
  · exact appends_pure ()
  · exact appends_evalCommand _ _
  · split
    · exact appends_evalDefinition _ _
    · exact (appends_ask _).bind fun t => appends_sayCurrent _ _

/-! ## Texts -/

namespace LoopState

variable {setting : Setting} {text : String} {desk desk' : Desk} {failure : Failure}

theorem enter_of_returns
    (call : Returns (evalLine { setting with stopped := false } text) desk () desk')
    (failures : Array String) : enter setting ⟨desk, failures⟩ text = ⟨desk', failures⟩ := by
  rw [enter, call]

theorem enter_of_fails
    (call : Fails (evalLine { setting with stopped := false } text) desk failure desk')
    (failures : Array String) :
    enter setting ⟨desk, failures⟩ text =
      ⟨desk', failures.push ("error: " ++ failure.inline)⟩ := by
  rw [enter, call]

/-- Nothing has been printed or told yet. -/
def silent (session : Session) : LoopState :=
  ⟨⟨session, #[]⟩, #[]⟩

/-- What comes of some texts, and then of others in the session that they have left. -/
def andThen (first later : LoopState) : LoopState :=
  ⟨later.desk.after first.desk.printed, first.failures ++ later.failures⟩

theorem andThen_silent (state : LoopState) : state.andThen (silent state.desk.session) = state := by
  rw [andThen, silent, Desk.after, Array.append_empty, Array.append_empty]

theorem session_andThen (first later : LoopState) :
    (first.andThen later).desk.session = later.desk.session :=
  rfl

theorem andThen_assoc (first second third : LoopState) :
    (first.andThen second).andThen third = first.andThen (second.andThen third) := by
  simp only [andThen, Desk.after, Array.append_assoc]

/-- Only the session of a state matters to a text. -/
theorem enter_eq_andThen (setting : Setting) (state : LoopState) (text : String) :
    state.enter setting text = state.andThen (answer setting state.desk.session text) := by
  obtain ⟨⟨session, printed⟩, failures⟩ := state
  have appends := appends_evalLine { setting with stopped := false } text
  rcases returns_or_fails (evalLine { setting with stopped := false } text) ⟨session, #[]⟩ with
    ⟨_, desk, call⟩ | ⟨failure, desk, call⟩
  · have whole := appends.returns call printed
    rw [Desk.after, Array.append_empty] at whole
    rw [enter_of_returns whole, answer, enter_of_returns call, andThen, Array.append_empty]
  · have whole := appends.fails call printed
    rw [Desk.after, Array.append_empty] at whole
    rw [enter_of_fails whole, answer, enter_of_fails call, andThen, ← Array.push_append,
      Array.append_empty]

theorem foldl_enter (setting : Setting) (texts : List String) (state : LoopState) :
    texts.foldl (enter setting) state =
      state.andThen (texts.foldl (enter setting) (silent state.desk.session)) := by
  induction texts generalizing state with
  | nil => exact state.andThen_silent.symm
  | cons text rest ih =>
    rw [List.foldl_cons, List.foldl_cons, ih, enter_eq_andThen, session_andThen, andThen_assoc]
    exact congrArg state.andThen (ih (answer setting state.desk.session text)).symm

end LoopState

/-- The read loop as somebody sees it who types the lines: each text is answered as soon as it is
complete. -/
def dialogue (setting : Setting) (pending : Option String) (session : Session) :
    List String → LoopState
  | [] =>
    match pending with
    | some text => answer setting session text
    | none => .silent session
  | line :: rest =>
    match takeLine pending line with
    | .complete text =>
      let given := answer setting session text
      given.andThen (dialogue setting none given.desk.session rest)
    | .unfinished text => dialogue setting (some text) session rest

theorem dialogue_eq (setting : Setting) (pending : Option String) (session : Session)
    (lines : List String) :
    dialogue setting pending session lines =
      (entriesFrom pending lines).foldl (LoopState.enter setting) (.silent session) := by
  induction lines generalizing pending session with
  | nil =>
    cases pending with
    | none => rfl
    | some text => rfl
  | cons line rest ih =>
    rw [dialogue, entriesFrom]
    cases takeLine pending line with
    | complete text =>
      dsimp only
      rw [ih, List.foldl_cons]
      exact (LoopState.foldl_enter setting _ (answer setting session text)).symm
    | unfinished text => exact ih (some text) session

/-- **Answers one at a time.** What the read loop prints and tells, and the session it ends with, is
what comes of answering each text by itself, as soon as it is complete. -/
theorem readLoop_eq_dialogue (setting : Setting) (stdin : String) (session : Session) :
    readLoop setting none stdin ⟨session, #[]⟩ =
      dialogue setting none session (Text.typedLines stdin) :=
  (dialogue_eq setting none session (Text.typedLines stdin)).symm

/-! ## The file that is asked for -/

theorem doCommand_eq_of_ne_load (setting : Setting) (files : Files) {command : Command}
    (other : command ≠ .load) (argument : String) :
    doCommand { setting with files } command argument = doCommand setting command argument := by
  cases command with
  | load => exact absurd rfl other
  | _ => rfl

theorem doLoad_congr {setting : Setting} {files : Files} {argument : String}
    (same : files argument = setting.files argument) :
    doLoad { setting with files } argument = doLoad setting argument := by
  simp only [doLoad, loadFile, same]

/-- Of all files, a line needs the one that it asks to load. -/
theorem evalLine_eq_of_loadTarget (setting : Setting) {files : Files} {line : String}
    (same : ∀ name, loadTarget? line = some name → files name = setting.files name) :
    evalLine { setting with files } line = evalLine setting line := by
  unfold loadTarget? at same
  unfold evalLine
  dsimp only
  split
  · rfl
  · rename_i input typed
    rw [typed] at same
    unfold evalCommand
    cases parts : commandParts input with
    | mk name argument =>
      dsimp only
      cases found : CommandRow.find? name with
      | none => rfl
      | some row =>
        by_cases load : row.command = .load
        · have same := same argument (by simp [parts, found, load])
          simp only [load, doCommand, doLoad_congr same]
        · simp only [doCommand_eq_of_ne_load setting files load]
  · rfl

/-- A text may be answered when of all files only the one that it asks to load has been read. -/
theorem answer_eq_of_loadTarget {setting : Setting} {files : Files} {text : String}
    (same : ∀ name, loadTarget? text = some name → files name = setting.files name)
    (session : Session) :
    answer { setting with files } session text = answer setting session text := by
  have eval := evalLine_eq_of_loadTarget { setting with stopped := false } same
  rw [answer, answer, LoopState.enter, LoopState.enter, ← eval]

end Prompt

end LambdaWorkbench
