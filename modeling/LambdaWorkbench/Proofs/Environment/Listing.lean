import LambdaWorkbench.Proofs.Environment.DefinitionLine
import LambdaWorkbench.Proofs.Environment.Extension
import LambdaWorkbench.Proofs.Term.Blanks
import LambdaWorkbench.Proofs.Term.Printed
import LambdaWorkbench.Proofs.Term.RoundTrip
import LambdaWorkbench.Proofs.Text.Lines

/-! # Lists of definitions

The definitions of an environment are listed one to a line, as a file of definitions has them. A
file with such lines, in a named style and with any comments and blank lines between, makes the
environment again, provided that no name has a sign of that notation in it: the names are cut off at
the first equality sign, and the terms parse to themselves.
-/

namespace LambdaWorkbench

open Environment

/-- Nothing in the text separates a definition or starts a comment. -/
def Signless (text : String) : Prop :=
  '=' ∉ text.toList ∧ '#' ∉ text.toList

instance (text : String) : Decidable (Signless text) :=
  inferInstanceAs (Decidable (_ ∧ _))

/-- The definition of a name as a parsed term, neither of which has a sign of the notation for
definitions in its names. -/
structure Listable (name : String) (term : Term) : Prop where
  atomic : isAtomText name = true
  signless : Signless name
  parsed : ∃ text, Term.parse text = .ok term
  signlessNames : ∀ name ∈ term.names, Signless name

/-- The lines that list the definitions of an environment. -/
def Environment.listing (env : Environment) (style : Style) : List String :=
  env.entries.map fun entry => definitionLine entry.1 (entry.2.render style)

/-! ## One line -/

namespace Listable

variable {name : String} {term : Term} {style : Style}

theorem wellNamed (h : Listable name term) : term.WellNamed := by
  obtain ⟨text, parsed⟩ := h.parsed
  exact Term.wellNamed_parse parsed

theorem signless_render (h : Listable name term) (byName : style ∈ [Style.named, Style.compact]) :
    Signless (term.render style) := by
  have written := Term.writtenWith_render term byName
  exact ⟨written.notMem (by decide) fun name known => (h.signlessNames name known).1,
    written.notMem (by decide) fun name known => (h.signlessNames name known).2⟩

/-- Blank characters other than the spaces around the separator and in the term are not on the
line. -/
theorem blank_notMem_line (h : Listable name term) (byName : style ∈ [Style.named, Style.compact])
    {c : Char} (blank : Text.isBlank c = true) (notSpace : c ≠ ' ') :
    c ∉ (definitionLine name (term.render style)).toList := by
  refine notMem_definitionLine ?_ (h.wellNamed.blank_notMem_render byName blank notSpace) ?_
  · intro mem
    have atom := isAtomChar_of_isAtomText h.atomic c mem
    simp [isAtomChar, blank] at atom
  · intro mem
    have only : [' ', '=', ' '].all (fun mark => !Text.isBlank mark || mark == ' ') = true := by
      decide
    have space := List.all_eq_true.mp only c mem
    simp [blank, notSpace] at space

theorem beforeComment_line (h : Listable name term)
    (byName : style ∈ [Style.named, Style.compact]) :
    Text.beforeComment (definitionLine name (term.render style)) =
      definitionLine name (term.render style) :=
  Text.beforeComment_eq_self
    (notMem_definitionLine h.signless.2 (h.signless_render byName).2 (by decide))

theorem splitDefinition?_line (h : Listable name term)
    (byName : style ∈ [Style.named, Style.compact]) :
    splitDefinition? (definitionLine name (term.render style)) =
      some (name, " " ++ term.render style) :=
  splitDefinition?_definitionLine h.atomic h.signless.1
    (splitFirst_eq_none_of_notMem (by decide) (h.signless_render byName).1)

theorem parse_line (h : Listable name term) (byName : style ∈ [Style.named, Style.compact]) :
    Term.parse (Text.trim (" " ++ term.render style)) = .ok term := by
  obtain ⟨text, parsed⟩ := h.parsed
  have printed := (Term.printsAs_render h.wellNamed byName).parse_eq.1
  rw [Term.reindex_parse parsed] at printed
  rw [Text.trim_space_append, Term.parse_trim, printed]

end Listable

/-! ## Files -/

/-- A line of a file of definitions: a definition, or a comment or nothing at all. -/
inductive FileLine where
  | remark (text : String)
  | definition (name : String) (term : Term)

namespace FileLine

def text (style : Style) : FileLine → String
  | remark text => text
  | definition name term => definitionLine name (term.render style)

def definition? : FileLine → Option (String × Term)
  | remark _ => none
  | definition name term => some (name, term)

/-- A line that is read as what it is. -/
def Fits : FileLine → Prop
  | remark text => Text.isBlankText (Text.beforeComment text) = true ∧ '\n' ∉ text.toList ∧
      text.toList.getLast? ≠ some '\r'
  | definition name term => Listable name term

variable {line : FileLine} {style : Style}

theorem Fits.newline_notMem (h : line.Fits) (byName : style ∈ [Style.named, Style.compact]) :
    '\n' ∉ (line.text style).toList := by
  cases line with
  | remark text => exact h.2.1
  | definition name term => exact Listable.blank_notMem_line h byName (by decide) (by decide)

theorem Fits.getLast?_ne (h : line.Fits) (byName : style ∈ [Style.named, Style.compact]) :
    (line.text style).toList.getLast? ≠ some '\r' := by
  cases line with
  | remark text => exact h.2.2
  | definition name term =>
    intro last
    exact Listable.blank_notMem_line h byName (by decide) (by decide) (List.mem_of_getLast? last)

end FileLine

variable {file : List FileLine} {entries : List (String × Term)} {style : Style}

/-- The lines of a file are cut into the names and texts of its definitions. -/
theorem definitionsFrom_file (byName : style ∈ [Style.named, Style.compact])
    (fits : ∀ line ∈ file, line.Fits) (number : Nat) :
    definitionsFrom number (file.map (·.text style)) = .ok ((file.filterMap (·.definition?)).map
      fun entry => (entry.1, Text.trim (" " ++ entry.2.render style))) := by
  induction file generalizing number with
  | nil => rfl
  | cons line rest ih =>
    rw [List.forall_mem_cons] at fits
    rw [List.map_cons, definitionsFrom]
    cases line with
    | remark text =>
      rw [FileLine.text, if_pos fits.1.1, ih fits.2]
      rfl
    | definition name term =>
      have listable : Listable name term := fits.1
      have inked := isBlankText_definitionLine name (term.render style)
      rw [FileLine.text, listable.beforeComment_line byName, if_neg (by simp [inked]),
        listable.splitDefinition?_line byName, ih fits.2]
      rfl

namespace Environment

theorem defineAll_printed (byName : style ∈ [Style.named, Style.compact])
    (listable : ∀ entry ∈ entries, Listable entry.1 entry.2) (env : Environment) :
    env.defineAll (entries.map fun entry => (entry.1, Text.trim (" " ++ entry.2.render style))) =
      .ok (env.insertAll entries) := by
  induction entries generalizing env with
  | nil => rfl
  | cons entry rest ih =>
    rw [List.forall_mem_cons] at listable
    rw [List.map_cons, defineAll_cons_of_parse (listable.1.parse_line byName), ih listable.2]
    rfl

/-- What is added to the empty environment is all there is in the end. -/
theorem insertAll_empty (env : Environment) :
    empty.insertAll env.entries = env.withLimit none :=
  eq_of_entries (entries_insertAll env.nodup_keys) (numeralLimit_insertAll empty env.entries)

/-- A file makes the environment that has its definitions. -/
theorem ofSource_file {env : Environment} (byName : style ∈ [Style.named, Style.compact])
    (fits : ∀ line ∈ file, line.Fits) (defines : file.filterMap (·.definition?) = env.entries) :
    ofSource (Text.unlines (file.map (·.text style))) = .ok (env.withLimit none) := by
  have listable : ∀ entry ∈ env.entries, Listable entry.1 entry.2 := by
    intro entry mem
    rw [← defines] at mem
    obtain ⟨line, inFile, same⟩ := List.mem_filterMap.mp mem
    have fit := fits line inFile
    cases line with
    | remark text => cases same
    | definition name term =>
      cases same
      exact fit
  have cutLines :
      Text.lines (Text.unlines (file.map (·.text style))) = file.map (·.text style) := by
    refine Text.lines_unlines ?_ ?_
    · rw [List.forall_mem_map]
      exact fun line mem => (fits line mem).newline_notMem byName
    · rw [List.forall_mem_map]
      exact fun line mem => (fits line mem).getLast?_ne byName
  have cut := definitionsFrom_file byName fits 1
  have defined := defineAll_printed byName listable empty
  rw [defines] at cut
  rw [insertAll_empty] at defined
  rw [ofSource, definitions, cutLines, cut]
  exact defined

/-- The list of definitions is a file without remarks. -/
theorem ofSource_listing {env : Environment} (byName : style ∈ [Style.named, Style.compact])
    (listable : ∀ entry ∈ env.entries, Listable entry.1 entry.2) :
    ofSource (Text.unlines (env.listing style)) = .ok (env.withLimit none) := by
  let file := env.entries.map fun entry => FileLine.definition entry.1 entry.2
  have lines : env.listing style = file.map (·.text style) := by
    rw [listing, List.map_map]
    rfl
  have fits : ∀ line ∈ file, line.Fits := List.forall_mem_map.mpr listable
  have defines : file.filterMap (·.definition?) = env.entries := by
    rw [List.filterMap_map]
    exact List.filterMap_some
  rw [lines]
  exact ofSource_file byName fits defines

end Environment

end LambdaWorkbench
