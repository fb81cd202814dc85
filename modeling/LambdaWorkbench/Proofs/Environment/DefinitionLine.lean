import LambdaWorkbench.Environment.Definitions
import Mathlib.Data.List.TakeWhile

/-! # Lines that are definitions

A line made of a name, the sign `=` between spaces and an expression is cut at that sign, unless the
sign `:=` stands in the expression. The name may hold any character that an atom and the left side
of a definition can hold, dots, colons and lambda signs included.
-/

namespace LambdaWorkbench

section Separators

variable {sign : Char} {separator front back before after : List Char}

/-- The parts make up the text again. -/
theorem eq_append_of_splitFirst {cs : List Char}
    (h : splitFirst separator cs = some (before, after)) : cs = before ++ (separator ++ after) := by
  induction cs generalizing before with
  | nil => cases h
  | cons c rest ih =>
    rw [splitFirst] at h
    split at h
    · rename_i here
      obtain ⟨back, whole⟩ := List.isPrefixOf_iff_prefix.mp here
      cases h
      rw [← whole, List.drop_left, List.nil_append]
    · obtain ⟨⟨before', after'⟩, later, same⟩ := Option.map_eq_some_iff.mp h
      cases same
      rw [List.cons_append, ← ih later]

theorem splitFirst_eq_none_of_notMem {cs : List Char} (mem : sign ∈ separator)
    (absent : sign ∉ cs) : splitFirst separator cs = none := by
  rw [Option.eq_none_iff_forall_ne_some]
  rintro ⟨before, after⟩ found
  rw [eq_append_of_splitFirst found] at absent
  exact absent (List.mem_append_right _ (List.mem_append_left _ mem))

/-- The search passes over a text if the separator starts nowhere in it. -/
theorem splitFirst_append
    (passes : ∀ c tail, c :: tail <:+ front → ¬ separator <+: c :: tail ++ back) :
    splitFirst separator (front ++ back) =
      (splitFirst separator back).map fun parts => (front ++ parts.1, parts.2) := by
  induction front with
  | nil => simp
  | cons c front ih =>
    have elsewhere : ¬ separator.isPrefixOf (c :: (front ++ back)) := by
      rw [List.isPrefixOf_iff_prefix]
      exact passes c front (List.suffix_refl _)
    rw [List.cons_append, splitFirst, if_neg elsewhere,
      ih fun d tail later => passes d tail (later.trans (List.suffix_cons c front)), Option.map_map]
    rfl

theorem splitFirst_singleton (absent : sign ∉ front) (back : List Char) :
    splitFirst [sign] (front ++ sign :: back) = some (front, back) := by
  have passes : ∀ c tail, c :: tail <:+ front → ¬ [sign] <+: c :: tail ++ sign :: back := by
    intro c tail later start
    obtain ⟨same, -⟩ := List.cons_prefix_cons.mp start
    exact absent (later.subset (same ▸ List.mem_cons_self))
  rw [splitFirst_append passes, splitFirst, if_pos (by simp)]
  simp

/-- Where no equality sign stands there is no `:=`. -/
theorem splitFirst_assign_append (absent : '=' ∉ front) (apart : back.head? ≠ some '=') :
    splitFirst [':', '='] (front ++ back) =
      (splitFirst [':', '='] back).map fun parts => (front ++ parts.1, parts.2) := by
  refine splitFirst_append fun c tail later start => ?_
  obtain ⟨-, follows⟩ := List.cons_prefix_cons.mp start
  cases tail with
  | nil =>
    obtain ⟨rest, eq⟩ := follows
    have first : '=' :: rest = back := eq
    exact apart (first ▸ rfl)
  | cons d tail =>
    obtain ⟨same, -⟩ := List.cons_prefix_cons.mp follows
    exact absent (later.subset (same ▸ List.mem_cons_of_mem c List.mem_cons_self))

end Separators

variable {name text : String}

namespace Text

/-- A space after a run of characters that are not blank is all there is to trim. -/
theorem trimChars_append_space {cs : List Char} (inked : ∀ c ∈ cs, isBlank c = false) :
    trimChars (cs ++ [' ']) = cs := by
  cases cs with
  | nil => rfl
  | cons c rest =>
    have kept : (c :: rest ++ [' ']).dropWhile isBlank = c :: rest ++ [' '] := by
      rw [List.cons_append, List.dropWhile_cons_of_neg (by simp [inked c])]
    have reversed : (c :: rest ++ [' ']).reverse.dropWhile isBlank = (c :: rest).reverse := by
      rw [List.reverse_append, List.reverse_singleton, List.singleton_append,
        List.dropWhile_cons_of_pos (by decide), List.dropWhile_eq_self_iff]
      intro nonempty
      rw [inked _ (List.mem_reverse.mp (List.getElem_mem nonempty))]
      exact Bool.false_ne_true
    rw [trimChars, kept, reversed, List.reverse_reverse]

theorem trim_space_append (text : String) : trim (" " ++ text) = trim text := by
  rw [trim, trim, String.toList_append]
  rfl

theorem beforeComment_eq_self {line : String} (h : '#' ∉ line.toList) :
    beforeComment line = line := by
  have all : line.toList.takeWhile (· ≠ '#') = line.toList := by
    rw [List.takeWhile_eq_self_iff]
    intro c mem
    have differs : c ≠ '#' := fun same => h (same ▸ mem)
    simpa using differs
  rw [beforeComment, all, String.ofList_toList]

end Text

/-- A definition, written the way the definitions of an environment are listed. -/
def definitionLine (name text : String) : String :=
  name ++ " = " ++ text

theorem toList_definitionLine (name text : String) :
    (definitionLine name text).toList = name.toList ++ ' ' :: '=' :: ' ' :: text.toList := by
  simp [definitionLine]

theorem isBlankText_definitionLine (name text : String) :
    Text.isBlankText (definitionLine name text) = false := by
  have blank : Text.isBlank '=' = false := by decide
  simp [Text.isBlankText, toList_definitionLine, blank]

/-- Characters of the line are characters of the name, of the text or of the separator. -/
theorem notMem_definitionLine {c : Char} (inName : c ∉ name.toList) (inText : c ∉ text.toList)
    (separator : c ∉ [' ', '=', ' ']) : c ∉ (definitionLine name text).toList := by
  have whole : (definitionLine name text).toList =
      name.toList ++ ([' ', '=', ' '] ++ text.toList) := toList_definitionLine name text
  rw [whole, List.mem_append, List.mem_append, not_or, not_or]
  exact ⟨inName, separator, inText⟩

theorem ofList_space_cons (text : String) : String.ofList (' ' :: text.toList) = " " ++ text := by
  rw [← String.toList_inj, String.toList_ofList, String.toList_append]
  rfl

theorem isAtomChar_of_isAtomText (atomic : isAtomText name = true) :
    ∀ c ∈ name.toList, isAtomChar c = true := by
  rw [isAtomText, Bool.and_eq_true] at atomic
  exact List.all_eq_true.mp atomic.2

theorem trim_name_space (atomic : isAtomText name = true) :
    Text.trim (String.ofList (name.toList ++ [' '])) = name := by
  have inked : ∀ c ∈ name.toList, Text.isBlank c = false := by
    intro c mem
    exact (isAtomChar_iff.mp (isAtomChar_of_isAtomText atomic c mem)).1
  rw [Text.trim, String.toList_ofList, Text.trimChars_append_space inked, String.ofList_toList]

/-- A `:=` in the line of a definition is one in its text. -/
theorem splitFirst_assign_definitionLine (signless : '=' ∉ name.toList) :
    splitFirst [':', '='] (definitionLine name text).toList =
      (splitFirst [':', '='] text.toList).map fun parts =>
        (name.toList ++ ' ' :: '=' :: ' ' :: parts.1, parts.2) := by
  rw [toList_definitionLine, splitFirst_assign_append signless (by simp)]
  simp [splitFirst, Function.comp_def]

/-- The first equality sign ends the name. -/
theorem splitDefinition?_definitionLine (atomic : isAtomText name = true)
    (signless : '=' ∉ name.toList) (plain : splitFirst [':', '='] text.toList = none) :
    splitDefinition? (definitionLine name text) = some (name, " " ++ text) := by
  have assign : splitFirst [':', '='] (definitionLine name text).toList = none := by
    rw [splitFirst_assign_definitionLine signless, plain]
    rfl
  have apart : '=' ∉ name.toList ++ [' '] := by
    simpa using signless
  have equals : splitFirst ['='] (definitionLine name text).toList =
      some (name.toList ++ [' '], ' ' :: text.toList) := by
    have whole := splitFirst_singleton apart (' ' :: text.toList)
    rw [List.append_assoc] at whole
    rw [toList_definitionLine]
    exact whole
  rw [splitDefinition?, assign, equals]
  show (if isAtomText (Text.trim (String.ofList (name.toList ++ [' ']))) then _ else none) = _
  rw [trim_name_space atomic, if_pos atomic, ofList_space_cons]

/-! ## Lines one after the other -/

variable {number : Nat} {line : String} {rest : List String} {pairs : List (String × String)}

/-- The first line that is not blank is a definition, and the others are on the lines after it. -/
theorem definitionsFrom_cons (h : definitionsFrom number (line :: rest) = .ok pairs) :
    (Text.isBlankText (Text.beforeComment line) = true ∧
      definitionsFrom (number + 1) rest = .ok pairs) ∨
    ∃ name text others, Text.isBlankText (Text.beforeComment line) = false ∧
      splitDefinition? (Text.beforeComment line) = some (name, text) ∧
      definitionsFrom (number + 1) rest = .ok others ∧
      pairs = (name, Text.trim text) :: others := by
  rw [definitionsFrom] at h
  split at h
  · rename_i blank
    exact .inl ⟨blank, h⟩
  · rename_i inked
    split at h
    · cases h
    · rename_i name text cut
      cases later : definitionsFrom (number + 1) rest with
      | error fault =>
        rw [later] at h
        cases h
      | ok others =>
        rw [later] at h
        cases h
        exact .inr ⟨name, text, others, Bool.eq_false_iff.mpr inked, cut, rfl, rfl⟩

end LambdaWorkbench
