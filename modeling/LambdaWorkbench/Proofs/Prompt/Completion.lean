import Mathlib.Data.List.TakeWhile
import LambdaWorkbench.Prompt.Completion
import LambdaWorkbench.Proofs.Text.Slices

/-! # Completion at byte positions

An editor gives the cursor as a byte position, and completion answers with one: it walks back from
the cursor over the characters of the last word, takes their sizes off the position, and cuts the
line there. Done with cuts that fail inside a character and with a subtraction that fails below
zero, completion comes to the same answer as on the characters before the cursor, so neither ever
fails. What is offered goes on from the text between the start that is answered and the cursor.
-/

namespace LambdaWorkbench

open Text

namespace Text

variable {cs front : List Char}

/-- The byte position of the first occurrence of a character. -/
def firstPosition? (c : Char) : List Char → Option Nat
  | [] => none
  | first :: rest =>
    if first = c then some 0 else (firstPosition? c rest).map (first.utf8Size + ·)

theorem firstPosition?_eq_none {c : Char} (absent : c ∉ cs) : firstPosition? c cs = none := by
  induction cs with
  | nil => rfl
  | cons first rest ih =>
    rw [List.mem_cons, not_or] at absent
    rw [firstPosition?, if_neg (Ne.symm absent.1), ih absent.2, Option.map_none]

theorem firstPosition?_append {c : Char} (absent : c ∉ front) (back : List Char) :
    firstPosition? c (front ++ c :: back) = some (byteLength front) := by
  induction front with
  | nil => exact if_pos rfl
  | cons first rest ih =>
    rw [List.mem_cons, not_or] at absent
    rw [List.cons_append, firstPosition?, if_neg (Ne.symm absent.1), ih absent.2, Option.map_some,
      byteLength_cons]

end Text

namespace Prompt

variable {session : Session} {before input : List Char}

/-! ## The last word -/

/-- The characters before the last word. -/
def beforeWord (before : List Char) : List Char :=
  (before.reverse.dropWhile (!isDelimiter ·)).reverse

theorem beforeWord_append_lastWord (before : List Char) :
    beforeWord before ++ lastWord before = before := by
  rw [beforeWord, lastWord, ← List.reverse_append, List.takeWhile_append_dropWhile,
    List.reverse_reverse]

theorem byteLength_beforeWord (before : List Char) :
    byteLength (beforeWord before) = wordStart before := by
  rw [beforeWord, byteLength_reverse, wordStart]

theorem not_isDelimiter_of_mem_lastWord {c : Char} (mem : c ∈ lastWord before) :
    isDelimiter c = false := by
  have inWord := List.all_eq_true.mp List.all_takeWhile c (List.mem_reverse.mp mem)
  simpa using inWord

/-- Before the last word there is nothing, or a delimiter. -/
theorem beforeWord_eq (before : List Char) :
    beforeWord before = [] ∨
      ∃ front c, beforeWord before = front ++ [c] ∧ isDelimiter c = true := by
  rw [beforeWord]
  cases left : before.reverse.dropWhile (!isDelimiter ·) with
  | nil => exact .inl rfl
  | cons c rest =>
    have stops := List.head?_dropWhile_not (!isDelimiter ·) before.reverse
    rw [left] at stops
    exact .inr ⟨rest.reverse, c, List.reverse_cons, by simpa using stops⟩

/-! ## The walk back -/

/-- Walks back from a byte position over the characters before it, the last one first, until it
meets a delimiter. Fails where it would come to a position below zero. -/
def walkBack? (position : Nat) : List Char → Option Nat
  | [] => some position
  | c :: rest =>
    if isDelimiter c then some position
    else if c.utf8Size ≤ position then walkBack? (position - c.utf8Size) rest
    else none

theorem walkBack?_eq (cs : List Char) :
    walkBack? (byteLength cs) cs = some (byteLength (cs.dropWhile (!isDelimiter ·))) := by
  induction cs with
  | nil => rfl
  | cons c rest ih =>
    rw [walkBack?]
    split
    · rename_i stops
      rw [List.dropWhile_cons_of_neg (by simp [stops])]
    · rename_i goes
      rw [byteLength_cons, if_pos (Nat.le_add_right _ _), Nat.add_sub_cancel_left, ih,
        List.dropWhile_cons_of_pos (by simp [goes])]

/-- The walk back from the cursor never fails, and ends where the word starts. -/
theorem walkBack?_reverse (before : List Char) :
    walkBack? (byteLength before) before.reverse = some (wordStart before) := by
  rw [← byteLength_reverse, walkBack?_eq, wordStart]

/-- The words that the argument of a command may be, other than names of files. -/
def argumentWords? : Command → Option (List String)
  | .style => some (Style.all.map Style.name)
  | .policy => some (Policy.all.map Policy.name)
  | _ => none

/-- The completion of the word before the cursor to one of the names. -/
def wordCompletion (before : List Char) (names : List String) : Completion :=
  ⟨wordStart before, namesStarting (lastWord before) names⟩

/-! ## The ways of completion -/

/-- The text before the cursor is empty, it is a colon and a name, it is a colon, a name and an
argument, or it is part of a term. -/
theorem before_cases (before : List Char) :
    before = [] ∨ (∃ input, before = ':' :: input ∧ ' ' ∉ input) ∨
      (∃ name argument, before = ':' :: (name ++ ' ' :: argument) ∧ ' ' ∉ name) ∨
      ∃ c input, before = c :: input ∧ c ≠ ':' := by
  match before with
  | [] => exact .inl rfl
  | c :: input =>
    by_cases colon : c = ':'
    · subst colon
      by_cases space : ' ' ∈ input
      · obtain ⟨name, argument, rfl, absent⟩ := List.eq_append_cons_of_mem space
        exact .inr (.inr (.inl ⟨name, argument, rfl, absent⟩))
      · exact .inr (.inl ⟨input, rfl, space⟩)
    · exact .inr (.inr (.inr ⟨c, input, rfl, colon⟩))

theorem spaceless (absent : ' ' ∉ input) : ∀ c ∈ input, decide (c ≠ ' ') = true := by
  intro c mem
  rw [decide_eq_true_eq]
  rintro rfl
  exact absent mem

theorem splitCommand_of_notMem (absent : ' ' ∉ input) :
    splitCommand (String.ofList input) = (String.ofList input, none) := by
  have first : input.takeWhile (· ≠ ' ') = input :=
    List.takeWhile_eq_self_iff.mpr (spaceless absent)
  have rest : input.dropWhile (· ≠ ' ') = [] := List.dropWhile_eq_nil_iff.mpr (spaceless absent)
  rw [splitCommand, String.toList_ofList, first, rest]

theorem splitCommand_append {name : List Char} (absent : ' ' ∉ name) (argument : List Char) :
    splitCommand (String.ofList (name ++ ' ' :: argument)) =
      (String.ofList name, some (String.ofList argument)) := by
  have first : (name ++ ' ' :: argument).takeWhile (· ≠ ' ') = name := by
    rw [List.takeWhile_append_of_pos (spaceless absent), List.takeWhile_cons_of_neg (by simp),
      List.append_nil]
  have rest : (name ++ ' ' :: argument).dropWhile (· ≠ ' ') = ' ' :: argument := by
    rw [List.dropWhile_append_of_pos (spaceless absent), List.dropWhile_cons_of_neg (by simp)]
  rw [splitCommand, String.toList_ofList, first, rest]

theorem complete_name (session : Session) (absent : ' ' ∉ input) :
    complete session (':' :: input) =
      match CommandRow.findStarting? (String.ofList input) with
      | some row => ⟨1, [row.long]⟩
      | none => .nothing := by
  cases found : CommandRow.findStarting? (String.ofList input) <;>
    simp only [complete, splitCommand_of_notMem absent, found]

theorem complete_argument (session : Session) {name : List Char} (absent : ' ' ∉ name)
    (argument : List Char) :
    complete session (':' :: (name ++ ' ' :: argument)) =
      match (CommandRow.find? (String.ofList name)).bind (argumentWords? ·.command) with
      | some words => wordCompletion (':' :: (name ++ ' ' :: argument)) words
      | none => .nothing := by
  rw [complete, splitCommand_append absent]
  dsimp only
  cases CommandRow.find? (String.ofList name) with
  | none => rfl
  | some row =>
    dsimp only [Option.bind_some]
    cases row.command <;> rfl

theorem complete_term (session : Session) {c : Char} (plain : c ≠ ':') (input : List Char) :
    complete session (c :: input) = wordCompletion (c :: input) session.env.names := by
  unfold complete
  split
  · rename_i eq
    cases eq
  · rename_i eq
    exact absurd (List.cons.inj eq).1 plain
  · rfl

/-! ## Completion by cuts -/

/-- The start of the word before a byte position, and the word. -/
def wordCut? (line : List Char) (cursor : Nat) : Option (Nat × List Char) := do
  let before ← charsBefore? cursor line
  let start ← walkBack? cursor before.reverse
  let word ← slice? start cursor line
  return (start, word)

/-- The completion of a line that starts with a colon, at a byte position behind it. The name ends
at the first space; behind the space it is the argument that is completed. -/
def completeCommandCut? (line : List Char) (cursor : Nat) : Option Completion := do
  let input ← slice? 1 cursor line
  match firstPosition? ' ' input with
  | none =>
    match CommandRow.findStarting? (String.ofList input) with
    | some row => return ⟨1, [row.long]⟩
    | none => return .nothing
  | some space =>
    let name ← slice? 0 space input
    let _ ← slice? (space + 1) (byteLength input) input
    let (start, word) ← wordCut? line cursor
    match (CommandRow.find? (String.ofList name)).bind (argumentWords? ·.command) with
    | some words => return ⟨start, namesStarting word words⟩
    | none => return .nothing

/-- The completion at a byte position, with all that is looked at cut out of the line by byte
positions. -/
def completeCut? (session : Session) (line : List Char) (cursor : Nat) : Option Completion :=
  if cursor = 0 then some .nothing
  else match line with
  | [] => some .nothing
  | ':' :: _ => completeCommandCut? line cursor
  | _ => do
    let (start, word) ← wordCut? line cursor
    return ⟨start, namesStarting word session.env.names⟩

variable (back : List Char)

theorem slice?_lastWord (before : List Char) :
    slice? (wordStart before) (byteLength before) (before ++ back) = some (lastWord before) := by
  have cut := slice?_append (beforeWord before) (lastWord before) back
  rwa [← byteLength_append, ← List.append_assoc, beforeWord_append_lastWord,
    byteLength_beforeWord] at cut

theorem wordCut?_append (before : List Char) :
    wordCut? (before ++ back) (byteLength before) = some (wordStart before, lastWord before) := by
  simp only [wordCut?, charsBefore?_append, walkBack?_reverse, slice?_lastWord,
    Option.bind_eq_bind, Option.bind_some]
  rfl

theorem wordStart_le (before : List Char) : wordStart before ≤ byteLength before := by
  have parts := congrArg byteLength (beforeWord_append_lastWord before)
  rw [byteLength_append, byteLength_beforeWord] at parts
  omega

/-- The word starts with the text or behind a delimiter. -/
theorem delimiter_before_word (before : List Char) :
    wordStart before = 0 ∨
      ∃ front c, charsBefore? (wordStart before) (before ++ back) = some (front ++ [c]) ∧
        isDelimiter c = true := by
  obtain none | ⟨front, c, eq, delimits⟩ := beforeWord_eq before
  · exact .inl (by rw [← byteLength_beforeWord, none, byteLength_nil])
  · have cut := charsBefore?_append (beforeWord before) (lastWord before ++ back)
    rw [← List.append_assoc, beforeWord_append_lastWord, byteLength_beforeWord, eq] at cut
    exact .inr ⟨front, c, cut, delimits⟩

theorem completeCommandCut?_name (session : Session) (absent : ' ' ∉ input) :
    completeCommandCut? (':' :: input ++ back) (byteLength (':' :: input)) =
      some (complete session (':' :: input)) := by
  have cut : slice? 1 (byteLength (':' :: input)) (':' :: input ++ back) = some input :=
    slice?_append [':'] input back
  rw [completeCommandCut?, cut, Option.bind_eq_bind, Option.bind_some,
    firstPosition?_eq_none absent, complete_name session absent]
  dsimp only
  cases CommandRow.findStarting? (String.ofList input) <;> rfl

theorem completeCommandCut?_argument (session : Session) {name : List Char} (absent : ' ' ∉ name)
    (argument : List Char) :
    completeCommandCut? (':' :: (name ++ ' ' :: argument) ++ back)
        (byteLength (':' :: (name ++ ' ' :: argument))) =
      some (complete session (':' :: (name ++ ' ' :: argument))) := by
  have cut : slice? 1 (byteLength (':' :: (name ++ ' ' :: argument)))
      (':' :: (name ++ ' ' :: argument) ++ back) = some (name ++ ' ' :: argument) :=
    slice?_append [':'] (name ++ ' ' :: argument) back
  have nameCut : slice? 0 (byteLength name) (name ++ ' ' :: argument) = some name :=
    slice?_front name (' ' :: argument)
  have argumentCut : slice? (byteLength name + 1) (byteLength (name ++ ' ' :: argument))
      (name ++ ' ' :: argument) = some argument := by
    have behind := slice?_back (name ++ [' ']) argument
    rwa [List.append_assoc, byteLength_append name [' ']] at behind
  rw [completeCommandCut?, cut, Option.bind_eq_bind, Option.bind_some,
    firstPosition?_append absent, complete_argument session absent]
  simp only [nameCut, argumentCut, wordCut?_append, Option.bind_some]
  cases (CommandRow.find? (String.ofList name)).bind (argumentWords? ·.command) <;> rfl

theorem byteLength_cons_ne_zero (c : Char) (rest : List Char) : byteLength (c :: rest) ≠ 0 := by
  have positive := c.utf8Size_pos
  rw [byteLength_cons]
  omega

theorem completeCut?_command (session : Session) (input : List Char) :
    completeCut? session (':' :: input ++ back) (byteLength (':' :: input)) =
      completeCommandCut? (':' :: input ++ back) (byteLength (':' :: input)) :=
  if_neg (byteLength_cons_ne_zero ':' input)

theorem completeCut?_term (session : Session) {c : Char} (plain : c ≠ ':') (input : List Char) :
    completeCut? session (c :: input ++ back) (byteLength (c :: input)) =
      some (complete session (c :: input)) := by
  rw [complete_term session plain]
  unfold completeCut?
  rw [if_neg (byteLength_cons_ne_zero c input)]
  split
  · rename_i eq
    cases eq
  · rename_i eq
    exact absurd (List.cons.inj eq).1 plain
  · rw [wordCut?_append]
    rfl

/-- Every cut and every subtraction succeeds. -/
theorem completeCut?_append (session : Session) (before : List Char) :
    completeCut? session (before ++ back) (byteLength before) = some (complete session before) := by
  obtain rfl | ⟨input, rfl, absent⟩ | ⟨name, argument, rfl, absent⟩ | ⟨c, input, rfl, plain⟩ :=
    before_cases before
  · rfl
  · rw [completeCut?_command, completeCommandCut?_name back session absent]
  · rw [completeCut?_command, completeCommandCut?_argument back session absent]
  · exact completeCut?_term back session plain input

/-! ## What is offered -/

theorem isPrefix_of_findStarting? {start : String} {row : CommandRow}
    (found : CommandRow.findStarting? start = some row) : start.toList <+: row.long.toList := by
  rw [CommandRow.findStarting?] at found
  have starts := List.find?_some found
  exact List.isPrefixOf_iff_prefix.mp starts

/-- The text before the cursor in two parts, the second of which starts where the completion says
and begins all that it offers. -/
structure Offers (completion : Completion) (before front typed : List Char) : Prop where
  append : front ++ typed = before
  start_eq : byteLength front = completion.start
  begins : ∀ candidate ∈ completion.candidates, typed <+: candidate.toList

theorem offers_nothing (before : List Char) : Offers .nothing before [] before :=
  ⟨rfl, rfl, nofun⟩

theorem offers_word (before : List Char) (names : List String) :
    Offers (wordCompletion before names) before (beforeWord before) (lastWord before) where
  append := beforeWord_append_lastWord before
  start_eq := byteLength_beforeWord before
  begins _ mem := List.isPrefixOf_iff_prefix.mp (List.mem_filter.mp mem).2

theorem exists_offers (session : Session) (before : List Char) :
    ∃ front typed, Offers (complete session before) before front typed := by
  obtain rfl | ⟨input, rfl, absent⟩ | ⟨name, argument, rfl, absent⟩ | ⟨c, input, rfl, plain⟩ :=
    before_cases before
  · exact ⟨_, _, offers_nothing []⟩
  · rw [complete_name session absent]
    cases found : CommandRow.findStarting? (String.ofList input) with
    | none => exact ⟨_, _, offers_nothing _⟩
    | some row =>
      have begins := isPrefix_of_findStarting? found
      rw [String.toList_ofList] at begins
      exact ⟨[':'], input, rfl, rfl, List.forall_mem_singleton.mpr begins⟩
  · rw [complete_argument session absent]
    cases (CommandRow.find? (String.ofList name)).bind (argumentWords? ·.command) with
    | none => exact ⟨_, _, offers_nothing _⟩
    | some words => exact ⟨_, _, offers_word _ words⟩
  · rw [complete_term session plain]
    exact ⟨_, _, offers_word _ session.env.names⟩

/-- **Completion stays on character boundaries.** Let the cursor stand between two characters. The
walk back from it to the start of the word never comes to a position below zero. It ends at a
boundary, with no delimiter from there to the cursor, and at position zero or behind a delimiter.
Completion with cuts by byte positions never fails, and is the completion of the text before the
cursor. Names of files aside, everything it offers begins with the text between the start that it
answers and the cursor. -/
theorem completion_on_boundaries (session : Session) {line : String} {cursor : Nat}
    {before : List Char} (boundary : charsBefore? cursor line.toList = some before) :
    (∃ start word, wordStartAt? line cursor = some start ∧
      walkBack? cursor before.reverse = some start ∧ start ≤ cursor ∧
      slice? start cursor line.toList = some word ∧ (∀ c ∈ word, isDelimiter c = false) ∧
      (start = 0 ∨ ∃ front c, charsBefore? start line.toList = some (front ++ [c]) ∧
        isDelimiter c = true)) ∧
    ∃ completion typed, completeAt? session line cursor = some completion ∧
      completeCut? session line.toList cursor = some completion ∧
      slice? completion.start cursor line.toList = some typed ∧
      ∀ candidate ∈ completion.candidates, typed <+: candidate.toList := by
  obtain ⟨back, whole, rfl⟩ := exists_eq_append_of_charsBefore? boundary
  rw [wordStartAt?, completeAt?, boundary, whole]
  constructor
  · exact ⟨wordStart before, lastWord before, rfl, walkBack?_reverse before, wordStart_le before,
      slice?_lastWord back before, fun _ => not_isDelimiter_of_mem_lastWord,
      delimiter_before_word back before⟩
  · obtain ⟨front, typed, rfl, start, begins⟩ := exists_offers session before
    refine ⟨_, typed, rfl, completeCut?_append back session _, ?_, begins⟩
    rw [← start, byteLength_append, List.append_assoc]
    exact slice?_append front typed back

/-- In `λé.Ωab)` the cursor stands before the closing parenthesis, behind six characters and nine
bytes. The word starts at byte five, behind the dot. -/
theorem completion_on_boundaries_wide :
    let session := Session.new
      ((Environment.empty.insert "Ωabc" (.free "x")).insert "Ωx" (.free "y"))
    let line := "λé.Ωab)"
    let word := "Ωab".toList
    charsBefore? 9 line.toList = some "λé.Ωab".toList ∧ wordStartAt? line 9 = some 5 ∧
      walkBack? 9 "λé.Ωab".toList.reverse = some 5 ∧ slice? 5 9 line.toList = some word ∧
      (∀ c ∈ word, isDelimiter c = false) ∧
      completeAt? session line 9 = some ⟨5, ["Ωabc"]⟩ ∧
      completeCut? session line.toList 9 = some ⟨5, ["Ωabc"]⟩ ∧ word <+: "Ωabc".toList := by
  intro session line word
  have boundary : charsBefore? 9 line.toList = some "λé.Ωab".toList := by decide +kernel
  have starts : wordStartAt? line 9 = some 5 := by decide +kernel
  have wordCut : slice? 5 9 line.toList = some word := by decide +kernel
  have completes : completeAt? session line 9 = some ⟨5, ["Ωabc"]⟩ := by decide +kernel
  obtain ⟨⟨start, word', found, walked, -, cut, plain, -⟩, completion, typed, answered, agrees,
    typedCut, begins⟩ := completion_on_boundaries session boundary
  obtain rfl : 5 = start := Option.some.inj (starts.symm.trans found)
  obtain rfl : word = word' := Option.some.inj (wordCut.symm.trans cut)
  obtain rfl : ⟨5, ["Ωabc"]⟩ = completion := Option.some.inj (completes.symm.trans answered)
  obtain rfl : word = typed := Option.some.inj (wordCut.symm.trans typedCut)
  exact ⟨boundary, starts, walked, wordCut, plain, completes, agrees,
    begins "Ωabc" (List.mem_singleton.mpr rfl)⟩

end Prompt

end LambdaWorkbench
