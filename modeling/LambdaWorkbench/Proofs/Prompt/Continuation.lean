import LambdaWorkbench.Proofs.Environment.DefinitionLine
import LambdaWorkbench.Proofs.Prompt.Dialogue
import LambdaWorkbench.Proofs.Term.Blanks
import LambdaWorkbench.Proofs.Term.Strictness
import LambdaWorkbench.Proofs.Text.Lines

/-! # Continued lines

The read loop puts lines together until no list is open, and only at the end of the input may one be
left open. It carries out each text once, on the desk that the text before it has left. It counts in
the text as typed, of which the parser gets a part: without the blank characters around it, without
the name and the sign of a definition, and with the shorthands written out. None of that has a
parenthesis to it, so what is closed for the loop is closed for the parser.
-/

namespace LambdaWorkbench

open Text Shorthand

namespace Sexpr

variable {run : List Char} {line name text : String}

/-! ## What has no parentheses -/

theorem NestsAs.nil_of_blank (blank : ∀ c ∈ run, isBlank c = true) : NestsAs run [] :=
  .nil_of_parenless fun c mem => ne_parens_of_isBlank (blank c mem)

theorem nestsAs_trimChars (cs : List Char) : NestsAs (trimChars cs) cs := by
  obtain ⟨front, back, whole, before, after⟩ := exists_trimChars cs
  have around := (NestsAs.nil_of_blank before).append
    ((NestsAs.refl (trimChars cs)).append (.nil_of_blank after))
  rw [← whole, List.nil_append, List.append_nil] at around
  exact around.symm

/-- What comes before the sign of a definition is a name between blank characters. -/
theorem nestsAs_of_splitDefinition? (h : splitDefinition? line = some (name, text)) :
    NestsAs text.toList line.toList := by
  have cut {separator before after : List Char} (separated : NestsAs separator [])
      (found : splitFirst separator line.toList = some (before, after))
      (atomic : isAtomText (Text.trim (String.ofList before)) = true) :
      NestsAs after line.toList := by
    have named := isAtomChar_of_isAtomText atomic
    rw [Text.trim, String.toList_ofList, String.toList_ofList] at named
    have nameless : NestsAs before [] :=
      (nestsAs_trimChars before).symm.trans (.nil_of_atomChars named)
    rw [eq_append_of_splitFirst found]
    exact (nameless.append (separated.append (.refl after))).symm
  rw [splitDefinition?] at h
  split at h
  · cases h
  · rename_i before after found
    dsimp only at h
    split at h
    · rename_i atomic
      obtain ⟨rfl, rfl⟩ := Prod.mk.inj (Option.some.inj h)
      rw [String.toList_ofList]
      rcases Option.or_eq_some_iff.mp found with assign | ⟨-, equals⟩
      · exact cut (.nil_of_parenless (by simp)) assign atomic
      · exact cut (.nil_of_parenless (by simp)) equals atomic
    · cases h

/-- Where no list is left open, none is closed at the end of the text. -/
theorem ending_ne_unclosed (closed : unclosedCount text = 0) (count : Nat) :
    (reading text).ending ≠ .unclosed count := by
  by_cases noStray : NoStray 0 text.toList
  · obtain ⟨items, depth, count', eq, -⟩ := noStray.reading_eq
    have same := noStray.count_eq
    obtain rfl : depth = 0 := by omega
    rw [eq]
    exact nofun
  · obtain ⟨front, first⟩ := (noStray_or_firstStray text.toList).resolve_left noStray
    obtain ⟨items, eq, -⟩ := first.reading_eq
    rw [eq]
    exact nofun

end Sexpr

namespace Prompt

open Eval Sexpr

/-! ## Lines put together -/

/-- Lines as one text, with a space between two of them. -/
def joined (lines : List String) : String :=
  " ".intercalate lines

/-- A list is open between any two lines of a group. -/
def StaysOpen (group : List String) : Prop :=
  ∀ part rest, group = part ++ rest → part ≠ [] → rest ≠ [] → 0 < unclosedCount (joined part)

/-- The lines of an input in groups. Each group but the last closes its lists, and does so with its
last line only. -/
structure Grouping (lines : List String) (groups : List (List String)) : Prop where
  flatten_eq : groups.flatten = lines
  nonempty : ∀ group ∈ groups, group ≠ []
  closed : ∀ group ∈ groups.dropLast, unclosedCount (joined group) = 0
  staysOpen : ∀ group ∈ groups, StaysOpen group

variable {group lines : List String} {groups : List (List String)}

theorem joined_singleton (line : String) : joined [line] = line :=
  String.intercalate_singleton

theorem joined_concat (nonempty : group ≠ []) (line : String) :
    joined (group ++ [line]) = joined group ++ " " ++ line := by
  rw [joined, String.intercalate_append_of_ne_nil nonempty (List.cons_ne_nil _ _),
    String.intercalate_singleton, joined]

theorem staysOpen_nil : StaysOpen [] := by
  intro part rest whole some _
  exact absurd (List.append_eq_nil_iff.mp whole.symm).1 some

theorem StaysOpen.concat (h : StaysOpen group)
    (opened : group ≠ [] → 0 < unclosedCount (joined group)) (line : String) :
    StaysOpen (group ++ [line]) := by
  intro part rest whole some more
  obtain ⟨initial, last, rfl⟩ := (List.eq_nil_or_concat rest).resolve_left more
  rw [List.concat_eq_append, ← List.append_assoc] at whole
  obtain ⟨rfl, -⟩ := List.append_inj' whole rfl
  cases initial with
  | nil =>
    rw [List.append_nil] at opened
    exact opened some
  | cons next initial => exact h part _ rfl some (List.cons_ne_nil _ _)

theorem Grouping.single (nonempty : group ≠ []) (staysOpen : StaysOpen group) :
    Grouping group [group] where
  flatten_eq := List.flatten_singleton
  nonempty := List.forall_mem_singleton.mpr nonempty
  closed := nofun
  staysOpen := List.forall_mem_singleton.mpr staysOpen

theorem Grouping.cons (h : Grouping lines groups) (nonempty : group ≠ [])
    (closed : unclosedCount (joined group) = 0) (staysOpen : StaysOpen group) :
    Grouping (group ++ lines) (group :: groups) where
  flatten_eq := by rw [List.flatten_cons, h.flatten_eq]
  nonempty := List.forall_mem_cons.mpr ⟨nonempty, h.nonempty⟩
  closed := by
    cases groups with
    | nil => exact nofun
    | cons next others => exact List.forall_mem_cons.mpr ⟨closed, h.closed⟩
  staysOpen := List.forall_mem_cons.mpr ⟨staysOpen, h.staysOpen⟩

/-- The text that the lines read so far have left open. -/
def pendingText : List String → Option String
  | [] => none
  | group => some (joined group)

theorem pendingText_concat (group : List String) (line : String) :
    pendingText (group ++ [line]) = some (joined (group ++ [line])) := by
  cases group <;> rfl

theorem takeLine_pendingText (group : List String) (line : String) :
    takeLine (pendingText group) line =
      if 0 < unclosedCount (joined (group ++ [line])) then .unfinished (joined (group ++ [line]))
      else .complete (joined (group ++ [line])) := by
  cases group with
  | nil =>
    rw [List.nil_append, joined_singleton]
    rfl
  | cons first others =>
    rw [joined_concat (List.cons_ne_nil _ _)]
    rfl

/-- The lines read so far begin a group, and the rest of the input follows. -/
theorem exists_grouping_from (staysOpen : StaysOpen group)
    (opened : group ≠ [] → 0 < unclosedCount (joined group)) (lines : List String) :
    ∃ groups, Grouping (group ++ lines) groups ∧
      entriesFrom (pendingText group) lines = groups.map joined := by
  induction lines generalizing group with
  | nil =>
    rw [List.append_nil]
    cases group with
    | nil => exact ⟨[], ⟨rfl, nofun, nofun, nofun⟩, rfl⟩
    | cons first others =>
      exact ⟨[first :: others], .single (List.cons_ne_nil _ _) staysOpen, rfl⟩
  | cons line rest ih =>
    have longer : StaysOpen (group ++ [line]) := staysOpen.concat opened line
    rw [entriesFrom, takeLine_pendingText, List.append_cons]
    by_cases still : 0 < unclosedCount (joined (group ++ [line]))
    · obtain ⟨groups, grouping, eq⟩ := ih longer fun _ => still
      rw [pendingText_concat] at eq
      rw [if_pos still]
      exact ⟨groups, grouping, eq⟩
    · obtain ⟨groups, grouping, eq⟩ := ih staysOpen_nil (absurd rfl)
      rw [if_neg still]
      refine ⟨(group ++ [line]) :: groups, ?_, congrArg (joined (group ++ [line]) :: ·) eq⟩
      exact grouping.cons (List.concat_ne_nil _ _) (Nat.eq_zero_of_not_pos still) longer

theorem exists_grouping (lines : List String) :
    ∃ groups, Grouping lines groups ∧ entries lines = groups.map joined :=
  exists_grouping_from staysOpen_nil (absurd rfl) lines

/-! ## What the parser gets of a line -/

/-- What a typed line is taken for. -/
inductive Typed where
  | nothing
  | command (input : List Char)
  | definition (name text : String)
  | expression (text : String)
  deriving DecidableEq

namespace Typed

def ofLine (line : String) : Typed :=
  match Text.trimChars line.toList with
  | [] => nothing
  | ':' :: input => command input
  | typed =>
    match splitDefinition? (String.ofList typed) with
    | some (name, text) => definition name text
    | none => expression (String.ofList typed)

def eval (setting : Setting) : Typed → Eval Unit
  | nothing => pure ()
  | command input => evalCommand setting input
  | definition name text => evalDefinition name text
  | expression text => evalExpression text

/-- The text that is parsed to a term. No command has one. -/
def parsed? : Typed → Option String
  | definition _ text => some text
  | expression text => some text
  | _ => none

theorem ofLine_of_plain {line : String} {typed : List Char}
    (trimmed : Text.trimChars line.toList = typed) (nonempty : typed ≠ [])
    (plain : ∀ input, typed ≠ ':' :: input) :
    ofLine line =
      match splitDefinition? (String.ofList typed) with
      | some (name, text) => definition name text
      | none => expression (String.ofList typed) := by
  unfold ofLine
  rw [trimmed]
  split
  · exact absurd rfl nonempty
  · exact absurd rfl (plain _)
  · rfl

end Typed

theorem evalLine_eq (setting : Setting) (line : String) :
    evalLine setting line = (Typed.ofLine line).eval setting := by
  unfold evalLine
  dsimp only
  generalize trimmed : Text.trimChars line.toList = typed
  split
  · rw [Typed.ofLine, trimmed]
    rfl
  · rw [Typed.ofLine, trimmed]
    rfl
  · rename_i nonempty plain
    rw [Typed.ofLine_of_plain trimmed nonempty plain]
    cases splitDefinition? (String.ofList typed) with
    | none => rfl
    | some parts => rfl

/-- The parsed part has all the parentheses of the line. -/
theorem nestsAs_of_parsed? {line text : String} (h : (Typed.ofLine line).parsed? = some text) :
    NestsAs text.toList line.toList := by
  have trimmed := nestsAs_trimChars line.toList
  unfold Typed.ofLine at h
  split at h
  · cases h
  · cases h
  · split at h
    · rename_i name rest cut
      obtain rfl := Option.some.inj h
      have inTyped := nestsAs_of_splitDefinition? cut
      rw [String.toList_ofList] at inTyped
      exact inTyped.trans trimmed
    · obtain rfl := Option.some.inj h
      rw [String.toList_ofList]
      exact trimmed

/-- No list is closed by the parser that was closed for the loop. -/
theorem ending_ne_unclosed_of_parsed? {line text : String} (closed : unclosedCount line = 0)
    (h : (Typed.ofLine line).parsed? = some text) (count : Nat) :
    (reading (expand text)).ending ≠ .unclosed count := by
  have nests := (nestsAs_expand text).trans (nestsAs_of_parsed? h)
  exact ending_ne_unclosed (nests.unclosedCount_eq.trans closed) count

/-- No expression that was closed for the loop is refused for its open lists. -/
theorem load_ne_unclosedParens {line text : String} (closed : unclosedCount line = 0)
    (h : Typed.ofLine line = .expression text) (session : Session) (count : Nat) :
    session.load text ≠ .error (.parse (.unclosedParens count)) := by
  have parsed : (Typed.ofLine line).parsed? = some text := by rw [h]; rfl
  have none : unclosedCount text = 0 := (nestsAs_of_parsed? parsed).unclosedCount_eq.trans closed
  have read : session.read text ≠ .error (.unclosedParens count) := by
    unfold Session.read
    split
    · rw [Ne, Term.parseStrict_eq_unclosed_iff, none]
      rintro ⟨rfl, positive⟩
      exact Nat.lt_irrefl 0 positive
    · intro tolerant
      cases Term.ofList_ofSexpr tolerant
  intro failed
  unfold Session.load at failed
  split at failed
  · cases failed
  · rename_i cause eq
    cases failed
    exact read eq

/-! ## The loop -/

/-- What the loop does with the texts: each is carried out once, in its turn, on the desk that the
text before it has left, and nobody has asked to stop when it starts. A failure is told, and the
loop goes on. -/
inductive CarriesOut (setting : Setting) : List String → LoopState → LoopState → Prop where
  | done (state : LoopState) : CarriesOut setting [] state state
  | returned {text : String} {rest : List String} {desk desk' : Desk} {failures : Array String}
      {reached : LoopState}
      (call : Returns (evalLine { setting with stopped := false } text) desk () desk')
      (later : CarriesOut setting rest ⟨desk', failures⟩ reached) :
      CarriesOut setting (text :: rest) ⟨desk, failures⟩ reached
  | failed {text : String} {rest : List String} {desk desk' : Desk} {failures : Array String}
      {failure : Failure} {reached : LoopState}
      (call : Fails (evalLine { setting with stopped := false } text) desk failure desk')
      (later : CarriesOut setting rest ⟨desk', failures.push ("error: " ++ failure.inline)⟩ reached) :
      CarriesOut setting (text :: rest) ⟨desk, failures⟩ reached

variable {setting : Setting} {state reached : LoopState} {desk : Desk} {texts : List String}

theorem carriesOut_iff :
    CarriesOut setting texts state reached ↔
      reached = texts.foldl (LoopState.enter setting) state := by
  constructor
  · intro run
    induction run with
    | done state => rfl
    | returned call _ ih => rw [List.foldl_cons, LoopState.enter_of_returns call, ih]
    | failed call _ ih => rw [List.foldl_cons, LoopState.enter_of_fails call, ih]
  · rintro rfl
    induction texts generalizing state with
    | nil => exact .done state
    | cons text rest ih =>
      obtain ⟨desk, failures⟩ := state
      rw [List.foldl_cons]
      rcases returns_or_fails (evalLine { setting with stopped := false } text) desk with
        ⟨_, desk', call⟩ | ⟨failure, desk', call⟩
      · rw [LoopState.enter_of_returns call]
        exact .returned call ih
      · rw [LoopState.enter_of_fails call]
        exact .failed call ih

/-- Saving the texts can only add a failure, and only if there are any. -/
theorem readLoop_eq {stdin : String}
    (run : CarriesOut setting (entries (Text.typedLines stdin)) ⟨desk, #[]⟩ reached)
    (saveFault : Option FileFault) :
    ∃ told, readLoop setting saveFault stdin desk =
        { reached with failures := reached.failures ++ told } ∧
      (saveFault = none ∨ entries (Text.typedLines stdin) = [] → told = #[]) ∧
      ∀ fault, saveFault = some fault → entries (Text.typedLines stdin) ≠ [] →
        told = #["failed to save history file: " ++ fault.message] := by
  unfold readLoop
  dsimp only
  rw [← carriesOut_iff.mp run]
  cases saveFault with
  | none => exact ⟨#[], rfl, fun _ => rfl, nofun⟩
  | some fault =>
    dsimp only
    split
    · rename_i empty
      exact ⟨#[], rfl, fun _ => rfl, fun _ _ some => absurd (List.isEmpty_iff.mp empty) some⟩
    · rename_i some
      refine ⟨#["failed to save history file: " ++ fault.message], rfl, ?_, ?_⟩
      · rintro (saved | empty)
        · cases saved
        · exact absurd (List.isEmpty_iff.mpr empty) some
      · intro other same _
        cases same
        rfl

/-- **Continued lines.** The loop reads its input line by line and carries out the lines in groups,
each of them once and as one text, with a space between two lines. Every line is in one group, in
its place. A list is open between any two lines of a group, and none is at its end, except perhaps
at the end of the input. What is parsed of a text is its definition or its expression; unless the
input ends inside a list and the text is the last, no list is closed at the end of what is parsed,
and no expression is refused for open lists, strict or not. -/
theorem continued_lines_closed (setting : Setting) (saveFault : Option FileFault) (stdin : String)
    (desk : Desk) :
    ∃ groups reached told, PhysicalLines stdin.toList (groups.flatten.map String.toList) ∧
      Grouping (Text.typedLines stdin) groups ∧
      entries (Text.typedLines stdin) = groups.map joined ∧
      CarriesOut setting (groups.map joined) ⟨desk, #[]⟩ reached ∧
      readLoop setting saveFault stdin desk =
        { reached with failures := reached.failures ++ told } ∧
      (saveFault = none ∨ groups = [] → told = #[]) ∧
      (∀ fault, saveFault = some fault → groups ≠ [] →
        told = #["failed to save history file: " ++ fault.message]) ∧
      (∀ setting line, evalLine setting line = (Typed.ofLine line).eval setting) ∧
      ∀ group ∈ groups, group ∈ groups.dropLast ∨ unclosedCount (joined group) = 0 →
        (∀ text, (Typed.ofLine (joined group)).parsed? = some text →
          ∀ count, (reading (expand text)).ending ≠ .unclosed count) ∧
        ∀ text, Typed.ofLine (joined group) = .expression text →
          ∀ session count, Session.load session text ≠ .error (.parse (.unclosedParens count)) := by
  obtain ⟨groups, grouping, eq⟩ := exists_grouping (Text.typedLines stdin)
  have run : CarriesOut setting (entries (Text.typedLines stdin)) ⟨desk, #[]⟩ _ :=
    carriesOut_iff.mpr rfl
  obtain ⟨told, loop, silent, tells⟩ := readLoop_eq run saveFault
  rw [eq] at run loop
  simp only [eq, ne_eq, List.map_eq_nil_iff] at silent tells
  refine ⟨groups, _, told, ?_, grouping, eq, run, loop, silent, tells, evalLine_eq, ?_⟩
  · rw [grouping.flatten_eq, toList_typedLines]
    exact physicalLines_lineRuns stdin.toList
  · intro group mem unlessOpen
    have closed : unclosedCount (joined group) = 0 := unlessOpen.elim (grouping.closed group) id
    exact ⟨fun text => ending_ne_unclosed_of_parsed? closed,
      fun text => load_ne_unclosedParens closed⟩

/-- A definition and an expression on two lines each, a number for which there is no term yet, and
an expression that the end of the input cuts off. Somebody had asked to stop before the first line,
and the run goes on to its end. -/
theorem continued_lines_closed_cut :
    let setting : Setting := ⟨fun _ => .error .missing, 100, true⟩
    let desk : Desk := ⟨Session.new .empty, #[]⟩
    let stdin := "I = (λx.\nx)\n:step 3\nI (y\n)\n:run\n(z"
    let definition := "I = (λx.\n x)\n"
    let expression := "I (y\n )\n"
    let unsaved := "failed to save history file: No such file or directory (os error 2)"
    (∃ reached,
      CarriesOut setting [definition, ":step 3\n", expression, ":run\n", "(z"] ⟨desk, #[]⟩ reached ∧
      reached.desk.printed = #["I defined", "  (I y)", "  [1] func-side: I  (definition of I)",
        "= ((λx.x) y)", "= y", "normal form after 2 steps", "  z", "  (normal form)"] ∧
      reached.failures = #["error: no term loaded"] ∧
      readLoop setting (some .missing) stdin desk =
        ⟨reached.desk, #["error: no term loaded", unsaved]⟩) ∧
      Typed.ofLine definition = .definition "I" " (λx.\n x)" ∧
      (∀ count, (reading (expand " (λx.\n x)")).ending ≠ .unclosed count) ∧
      Typed.ofLine expression = .expression "I (y\n )" ∧
      ∀ session count,
        Session.load session "I (y\n )" ≠ .error (.parse (.unclosedParens count)) := by
  intro setting desk stdin definition expression unsaved
  have texts : entries (Text.typedLines stdin) =
      [definition, ":step 3\n", expression, ":run\n", "(z"] := by
    decide +kernel
  have defines : Typed.ofLine definition = .definition "I" " (λx.\n x)" := by decide +kernel
  have expresses : Typed.ofLine expression = .expression "I (y\n )" := by decide +kernel
  obtain ⟨groups, reached, told, -, -, eq, run, loop, -, tells, -, reads⟩ :=
    continued_lines_closed setting (some .missing) stdin desk
  rw [← eq, texts] at run
  rw [texts] at eq
  have some : groups ≠ [] := by
    rintro rfl
    exact List.cons_ne_nil _ _ eq
  rw [tells .missing rfl some] at loop
  have printed : reached.desk.printed = #["I defined", "  (I y)",
      "  [1] func-side: I  (definition of I)", "= ((λx.x) y)", "= y", "normal form after 2 steps",
      "  z", "  (normal form)"] := by
    rw [carriesOut_iff.mp run]
    decide +kernel
  have failures : reached.failures = #["error: no term loaded"] := by
    rw [carriesOut_iff.mp run]
    decide +kernel
  rw [failures] at loop
  have early (text : String) (mem : text ∈ [definition, ":step 3\n", expression, ":run\n"]) :
      ∃ group ∈ groups, group ∈ groups.dropLast ∧ joined group = text := by
    have among : text ∈ (groups.map joined).dropLast := by
      rw [← eq]
      exact mem
    rw [← List.map_dropLast] at among
    obtain ⟨group, inside, same⟩ := List.mem_map.mp among
    exact ⟨group, List.mem_of_mem_dropLast inside, inside, same⟩
  obtain ⟨first, mem, inside, same⟩ := early definition (by simp)
  obtain ⟨second, mem', inside', same'⟩ := early expression (by simp)
  obtain ⟨ends, -⟩ := reads first mem (.inl inside)
  obtain ⟨-, loads⟩ := reads second mem' (.inl inside')
  rw [same, defines] at ends
  rw [same', expresses] at loads
  exact ⟨⟨reached, run, printed, failures, loop⟩, defines, ends _ rfl, expresses, loads _ rfl⟩

end Prompt

end LambdaWorkbench
