import LambdaWorkbench.Prompt.Batch
import LambdaWorkbench.Proofs.Environment.DefinitionSigns
import LambdaWorkbench.Proofs.Prompt.Outcome
import LambdaWorkbench.Proofs.Term.Blanks
import LambdaWorkbench.Proofs.Text.Lines

/-! # Batches from the standard input and from a file

The lines of the standard input are put together to a text, which is cut into lines again. A
carriage return that was a part of a line the first time may be taken for a part of its end the
second time, and a blank line at the end may be lost. Both are blank characters behind all that the
lines hold: they are no part of a name, of a term or of a sign between them, they count in no
position of a fault, and a blank line is passed over. So a text is carried out in the same way
whichever input it comes from.
-/

namespace LambdaWorkbench

open Text

variable {line text padded : String}

/-! ## Blank characters behind a text -/

/-- The second text is the first one with blank characters behind it. -/
def Padded (text padded : String) : Prop :=
  ∃ blanks, padded.toList = text.toList ++ blanks ∧ ∀ c ∈ blanks, isBlank c = true

theorem padded_refl (text : String) : Padded text text :=
  ⟨[], (List.append_nil _).symm, nofun⟩

namespace Padded

theorem isBlankText_eq (h : Padded line padded) : isBlankText padded = isBlankText line := by
  obtain ⟨blanks, whole, blank⟩ := h
  rw [isBlankText, whole, List.all_append, List.all_eq_true.mpr blank, Bool.and_true, isBlankText]

/-- A comment hides the blank characters behind it. -/
theorem beforeComment (h : Padded line padded) :
    Padded (Text.beforeComment line) (Text.beforeComment padded) := by
  obtain ⟨blanks, whole, blank⟩ := h
  rw [Text.beforeComment, Text.beforeComment, whole, List.takeWhile_append]
  split
  · rename_i plain
    have all := (List.takeWhile_prefix (· ≠ '#')).eq_of_length plain
    refine ⟨blanks.takeWhile (· ≠ '#'), ?_, fun c mem => blank c (List.takeWhile_subset _ mem)⟩
    rw [String.toList_ofList, String.toList_ofList, all]
  · exact padded_refl _

/-- The blank characters are behind the expression of a definition. -/
theorem splitDefinition_cases (h : Padded line padded) :
    (splitDefinition? line = none ∧ splitDefinition? padded = none) ∨
    ∃ name text text', splitDefinition? line = some (name, text) ∧
      splitDefinition? padded = some (name, text') ∧ Padded text text' := by
  obtain ⟨blanks, whole, blank⟩ := h
  have cut : (splitFirst [':', '='] padded.toList).or (splitFirst ['='] padded.toList) =
      ((splitFirst [':', '='] line.toList).or (splitFirst ['='] line.toList)).map
        fun parts => (parts.1, parts.2 ++ blanks) := by
    rw [whole, splitFirst_append_blank (List.cons_ne_nil _ _) (by decide) blank,
      splitFirst_append_blank (List.cons_ne_nil _ _) (by decide) blank, Option.map_or]
  rw [splitDefinition?, splitDefinition?, cut]
  cases (splitFirst [':', '='] line.toList).or (splitFirst ['='] line.toList) with
  | none => exact .inl ⟨rfl, rfl⟩
  | some parts =>
    obtain ⟨before, after⟩ := parts
    cases atomic : isAtomText (Text.trim (String.ofList before)) with
    | false => exact .inl ⟨by simp [atomic], by simp [atomic]⟩
    | true =>
      refine .inr ⟨Text.trim (String.ofList before), String.ofList after,
        String.ofList (after ++ blanks), by simp [atomic], by simp [atomic], blanks, ?_, blank⟩
      rw [String.toList_ofList, String.toList_ofList]

/-- Tokens and their positions are the same, and so is what follows from them. -/
theorem reading_expand_eq (h : Padded text padded) :
    Sexpr.reading (Shorthand.expand padded) = Sexpr.reading (Shorthand.expand text) := by
  obtain ⟨blanks, whole, blank⟩ := h
  have scanned : Token.scan (Shorthand.expand padded) = Token.scan (Shorthand.expand text) := by
    rw [Token.scan, Token.scan, Shorthand.expand, Shorthand.expand, String.toList_ofList,
      String.toList_ofList, whole, Shorthand.expandChars_append_blank blank,
      Token.scanFrom_append_blank blank]
  rw [Sexpr.reading, Sexpr.reading, scanned]

theorem parse_eq (h : Padded text padded) : Term.parse padded = Term.parse text := by
  rw [Term.parse, Term.parse, Sexpr.read, Sexpr.read, h.reading_expand_eq]

theorem parseStrict_eq (h : Padded text padded) :
    Term.parseStrict padded = Term.parseStrict text := by
  rw [Term.parseStrict, Term.parseStrict, Sexpr.readStrict, Sexpr.readStrict, Sexpr.read,
    Sexpr.read, h.reading_expand_eq]

theorem define_eq (h : Padded text padded) (session : Session) (name : String) :
    session.define name padded = session.define name text := by
  rw [Session.define, Session.define, Environment.define, Environment.define, h.parse_eq]

theorem load_eq (h : Padded text padded) (session : Session) :
    session.load padded = session.load text := by
  rw [Session.load, Session.load, Session.read, Session.read, h.parse_eq, h.parseStrict_eq]

end Padded

/-! ## Lines that are carried out alike -/

/-- The second lines are the first ones with blank characters behind them, and with blank lines
behind the last one. -/
inductive SameInk : List String → List String → Prop
  | blank {lines : List String} : (∀ line ∈ lines, isBlankText line = true) → SameInk [] lines
  | line {line padded : String} {rest rest' : List String} :
    Padded line padded → SameInk rest rest' → SameInk (line :: rest) (padded :: rest')

theorem sameInk_refl (lines : List String) : SameInk lines lines := by
  induction lines with
  | nil => exact .blank nofun
  | cons line rest ih => exact .line (padded_refl line) ih

/-- What is cut off a text put together from lines is blank. -/
theorem sameInk_lines_intercalate {lines : List String}
    (single : ∀ line ∈ lines, '\n' ∉ line.toList) :
    SameInk (Text.lines ("\n".intercalate lines)) lines := by
  induction lines with
  | nil => exact .blank nofun
  | cons line rest ih =>
    rw [List.forall_mem_cons] at single
    cases rest with
    | nil =>
      rw [String.intercalate_singleton]
      by_cases empty : line = ""
      · subst empty
        exact .blank (List.forall_mem_singleton.mpr rfl)
      · have nonempty : line.toList ≠ [] := by rwa [Ne, String.toList_eq_nil_iff]
        rw [Text.lines, lineRuns_of_notMem single.1 nonempty, List.map_singleton,
          dropLineEnd_of_notMem single.1, String.ofList_toList]
        exact sameInk_refl [line]
    | cons next rest =>
      have whole : ("\n".intercalate (line :: next :: rest)).toList =
          line.toList ++ '\n' :: ("\n".intercalate (next :: rest)).toList := by
        simp [String.intercalate_cons_cons]
      rw [Text.lines, whole, lineRuns_append_newline single.1, List.map_cons]
      refine .line ?_ (ih single.2)
      obtain same | less := dropLineEnd_append_newline_cases line.toList
      · rw [same, String.ofList_toList]
        exact padded_refl line
      · have blank : ∀ c ∈ ['\r'], isBlank c = true := List.forall_mem_singleton.mpr (by decide)
        exact ⟨['\r'], by rw [String.toList_ofList, less], blank⟩

theorem isBlankText_beforeComment (blank : isBlankText line = true) :
    isBlankText (Text.beforeComment line) = true := by
  rw [isBlankText, Text.beforeComment, String.toList_ofList, List.all_eq_true]
  intro c mem
  exact List.all_eq_true.mp blank c (List.takeWhile_subset _ mem)

namespace Prompt

open Eval

variable {setting : Setting}

theorem evalLinesFrom_of_blank {lines : List String}
    (blank : ∀ line ∈ lines, isBlankText line = true) (number : Nat) :
    evalLinesFrom setting number lines = pure () := by
  induction lines generalizing number with
  | nil => rfl
  | cons line rest ih =>
    rw [List.forall_mem_cons] at blank
    rw [evalLinesFrom, if_pos (isBlankText_beforeComment blank.1)]
    exact ih blank.2 (number + 1)

/-- Lines with the same ink are the same evaluation, whatever the number of the first one is. -/
theorem evalLinesFrom_congr {lines lines' : List String} (same : SameInk lines lines')
    (number : Nat) : evalLinesFrom setting number lines = evalLinesFrom setting number lines' := by
  induction same generalizing number with
  | blank blank => rw [evalLinesFrom_of_blank blank, evalLinesFrom]
  | @line line padded rest rest' pad _ ih =>
    rw [evalLinesFrom, evalLinesFrom, pad.beforeComment.isBlankText_eq, ih]
    split
    · rfl
    · obtain ⟨whole, whole'⟩ | ⟨name, text, text', cut, cut', textPad⟩ :=
        pad.beforeComment.splitDefinition_cases
      · simp only [whole, whole', pad.beforeComment.load_eq]
      · simp only [cut, cut', textPad.define_eq]

theorem evalSource_joinedInput (text : String) :
    evalSource setting (joinedInput text) = evalSource setting text :=
  evalLinesFrom_congr (sameInk_lines_intercalate fun _ => newline_notMem_of_mem_lines) 1

/-! ## One input -/

theorem evalInputs_singleton (label source : String) :
    evalInputs setting [(label, source)] = during (.input label) (evalSource setting source) := by
  have last : (fun _ : Unit => if setting.stopped then pure () else evalInputs setting []) =
      (pure : Unit → Eval Unit) := by
    funext done
    rw [evalInputs, ite_self]
  rw [evalInputs, last, bind_pure]

theorem readInputs_stdin (files : Files) (stdin : String) :
    readInputs files stdin [] = pure [(stdinLabel, joinedInput stdin)] :=
  rfl

theorem evalBatch_stdin (text : String) :
    evalBatch setting text [] = during (.input stdinLabel) (evalSource setting text) := by
  rw [evalBatch, readInputs_stdin, pure_bind, evalInputs_singleton, evalSource_joinedInput]

theorem readInputs_file {files : Files} {name : String} (held : files name = .ok text)
    (stdin : String) : readInputs files stdin [name] = pure [(name, text)] := by
  have read : during (.reading name) (ofExcept .file (files name)) = pure text := by
    rw [held]
    rfl
  simp [readInputs, read]

theorem evalBatch_file {name : String} (held : setting.files name = .ok text) (stdin : String) :
    evalBatch setting stdin [name] = during (.input name) (evalSource setting text) := by
  rw [evalBatch, readInputs_file held, pure_bind, evalInputs_singleton]

/-- **A batch does not depend on where its input comes from.** A text on the standard input and the
same text in the only named file, whatever the standard input holds then, are both carried out or
both fail. They leave the same session and the same printed lines, and the failures differ in the
label of the input alone. -/
theorem batch_inputs_alike {name : String} (held : setting.files name = .ok text) (stdin : String)
    (desk : Desk) :
    (∃ desk', Returns (evalBatch setting text []) desk () desk' ∧
      Returns (evalBatch setting stdin [name]) desk () desk') ∨
    ∃ failure desk',
      Fails (evalBatch setting text []) desk (.during (.input stdinLabel) failure) desk' ∧
      Fails (evalBatch setting stdin [name]) desk (.during (.input name) failure) desk' := by
  rw [evalBatch_stdin, evalBatch_file held]
  obtain ⟨value, desk', returns⟩ | ⟨failure, desk', fails⟩ :=
    returns_or_fails (evalSource setting text) desk
  · exact .inl ⟨desk', returns.during _, returns.during _⟩
  · exact .inr ⟨failure, desk', fails.during _, fails.during _⟩

/-- Carriage returns before the line ends belong to the lines of the file only, and only the file
has a blank line at the end. The fault is in the same line at the same place. -/
theorem batch_inputs_alike_carriage_returns :
    let text := "I = \\x. x\r\r\nI a # b\r\r\n\nx)\r\r\n\n"
    let setting : Setting := ⟨fun _ => .ok text, 100, false⟩
    let desk : Desk := ⟨{ Session.new Environment.empty with strict := true }, #[]⟩
    let fault : Failure := .during (.line 4) (.session (.parse (.strayParen 1)))
    Text.lines text = ["I = \\x. x\r", "I a # b\r", "", "x)\r", ""] ∧
      Text.lines (joinedInput text) = ["I = \\x. x", "I a # b", "", "x)"] ∧
      ∃ desk', Fails (evalBatch setting text []) desk (.during (.input "<stdin>") fault) desk' ∧
        Fails (evalBatch setting "" ["terms"]) desk (.during (.input "terms") fault) desk' ∧
        desk'.printed = #["(I a)", "= ((λx.x) a)", "= a", "normal form after 2 steps"] := by
  intro text setting desk fault
  refine ⟨by decide +kernel, by decide +kernel, ?_⟩
  have outcome : ((evalBatch setting text []).run.run desk).1 =
      .error (.during (.input "<stdin>") fault) := by decide +kernel
  have printed : ((evalBatch setting text []).run.run desk).2.printed =
      #["(I a)", "= ((λx.x) a)", "= a", "normal form after 2 steps"] := by decide +kernel
  have held : setting.files "terms" = .ok text := rfl
  obtain ⟨desk', fromStdin, -⟩ | ⟨failure, desk', fromStdin, fromFile⟩ :=
    batch_inputs_alike held "" desk
  · rw [fromStdin] at outcome
    cases outcome
  · rw [fromStdin] at outcome printed
    cases outcome
    exact ⟨desk', fromStdin, fromFile, printed⟩

end Prompt

end LambdaWorkbench
