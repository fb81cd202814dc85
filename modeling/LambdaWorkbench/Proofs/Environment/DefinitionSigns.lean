import LambdaWorkbench.Proofs.Environment.DefinitionLine

/-! # Which sign ends the name

The sign `:=` is looked for in the whole line before the sign `=` is. A name before `:=` is cut off
there, whatever the expression holds. A name before `=` is cut off only if the expression is free of
`:=`; otherwise the line is cut inside the expression, what comes before is no name, and the line is
not taken for a definition.
-/

namespace LambdaWorkbench

variable {name text : String}

/-- A separator is found exactly where it occurs. -/
theorem splitFirst_eq_none_iff {separator cs : List Char} (nonempty : separator ≠ []) :
    splitFirst separator cs = none ↔ ¬ separator <:+: cs := by
  induction cs with
  | nil => simpa [splitFirst] using nonempty
  | cons c rest ih =>
    rw [splitFirst, List.infix_cons_iff, not_or, ← ih]
    split
    · rename_i here
      simp [List.isPrefixOf_iff_prefix.mp here]
    · rename_i elsewhere
      rw [List.isPrefixOf_iff_prefix] at elsewhere
      simp [elsewhere]

section Blanks

variable {separator back : List Char}

theorem prefix_append_blank_iff (inked : separator.any Text.isBlank = false)
    (blank : ∀ c ∈ back, Text.isBlank c = true) (cs : List Char) :
    separator <+: cs ++ back ↔ separator <+: cs := by
  constructor
  · intro start
    obtain within | ⟨tail, rfl⟩ :=
      List.prefix_or_prefix_of_prefix start (List.prefix_append cs back)
    · exact within
    -- What reaches beyond `cs` would be blank and inked.
    · have beyond : tail <+: back := (List.prefix_append_right_inj cs).mp start
      have nothing : tail = [] := by
        refine List.eq_nil_iff_forall_not_mem.mpr fun c mem => ?_
        have inSeparator := List.mem_append_right cs mem
        exact List.any_eq_false.mp inked c inSeparator (blank c (beyond.subset mem))
      simp [nothing]
  · intro start
    exact start.trans (List.prefix_append cs back)

/-- Blank characters at the end do not move the place where a text is cut. -/
theorem splitFirst_append_blank (nonempty : separator ≠ [])
    (inked : separator.any Text.isBlank = false)
    (blank : ∀ c ∈ back, Text.isBlank c = true) (cs : List Char) :
    splitFirst separator (cs ++ back) =
      (splitFirst separator cs).map fun parts => (parts.1, parts.2 ++ back) := by
  induction cs with
  | nil =>
    obtain ⟨sign, mem⟩ := List.exists_mem_of_ne_nil separator nonempty
    have absent : sign ∉ back := by
      intro inBack
      exact List.any_eq_false.mp inked sign mem (blank sign inBack)
    exact splitFirst_eq_none_of_notMem mem absent
  | cons c rest ih =>
    have same : separator.isPrefixOf (c :: (rest ++ back)) = separator.isPrefixOf (c :: rest) := by
      rw [Bool.eq_iff_iff, List.isPrefixOf_iff_prefix, List.isPrefixOf_iff_prefix]
      exact prefix_append_blank_iff inked blank (c :: rest)
    rw [List.cons_append, splitFirst, splitFirst, same, ih]
    split
    · rename_i here
      have within := (List.isPrefixOf_iff_prefix.mp here).length_le
      rw [← List.cons_append, List.drop_append_of_le_length within]
      rfl
    · rw [Option.map_map, Option.map_map]
      rfl

end Blanks

namespace Text

variable {c d : Char}

theorem dropWhile_isBlank_append (inked : isBlank c = false) (front back : List Char) :
    (front ++ c :: back).dropWhile isBlank = front.dropWhile isBlank ++ c :: back := by
  induction front with
  | nil => exact List.dropWhile_cons_of_neg (by simp [inked])
  | cons first front ih =>
    cases blank : isBlank first <;> simp [blank, ih]

/-- What stands between two characters that are not blank is not trimmed. -/
theorem trimChars_between (inked : isBlank c = false) (inked' : isBlank d = false)
    (front mid back : List Char) :
    trimChars (front ++ c :: (mid ++ d :: back)) =
      front.dropWhile isBlank ++ c :: (mid ++ d :: (back.reverse.dropWhile isBlank).reverse) := by
  have reversed : (front.dropWhile isBlank ++ c :: (mid ++ d :: back)).reverse =
      back.reverse ++ d :: (front.dropWhile isBlank ++ c :: mid).reverse := by simp
  rw [trimChars, dropWhile_isBlank_append inked, reversed, dropWhile_isBlank_append inked']
  simp

end Text

theorem not_isAtomText_of_mem {c : Char} (mem : c ∈ text.toList) (other : isAtomChar c = false) :
    isAtomText text = false := by
  rw [← Bool.not_eq_true]
  intro atomic
  rw [isAtomChar_of_isAtomText atomic c mem] at other
  cases other

theorem exists_cons_of_isAtomText (atomic : isAtomText name = true) :
    ∃ c rest, name.toList = c :: rest ∧ Text.isBlank c = false := by
  have nonempty : name.toList ≠ [] := by
    intro empty
    rw [String.toList_eq_nil_iff.mp empty] at atomic
    cases atomic
  obtain ⟨c, rest, whole⟩ := List.exists_cons_of_ne_nil nonempty
  have atom := isAtomChar_of_isAtomText atomic c (whole ▸ List.mem_cons_self)
  exact ⟨c, rest, whole, (isAtomChar_iff.mp atom).1⟩

/-- A name and the sign `=` after it are no name together, whatever follows. -/
theorem not_isAtomText_trim_line (atomic : isAtomText name = true) (before : List Char) :
    isAtomText (Text.trim (String.ofList (name.toList ++ ' ' :: '=' :: before))) = false := by
  obtain ⟨c, rest, whole, inked⟩ := exists_cons_of_isAtomText atomic
  have signInked : Text.isBlank '=' = false := by decide
  have between := Text.trimChars_between inked signInked [] (rest ++ [' ']) before
  have line : name.toList ++ ' ' :: '=' :: before =
      [] ++ c :: (rest ++ [' '] ++ '=' :: before) := by simp [whole]
  refine not_isAtomText_of_mem (c := ' ') ?_ (by decide)
  rw [Text.trim, String.toList_ofList, String.toList_ofList, line, between]
  simp

theorem splitDefinition?_of_assign {line : String} {before after : List Char}
    (cut : splitFirst [':', '='] line.toList = some (before, after)) :
    splitDefinition? line =
      if isAtomText (Text.trim (String.ofList before)) then
        some (Text.trim (String.ofList before), String.ofList after)
      else none := by
  rw [splitDefinition?, cut]
  rfl

/-- The sign `:=` ends the name, whatever stands in the expression. -/
theorem splitDefinition?_assign (atomic : isAtomText name = true) (signless : '=' ∉ name.toList)
    (text : String) : splitDefinition? (name ++ " := " ++ text) = some (name, " " ++ text) := by
  have line : (name ++ " := " ++ text).toList =
      name.toList ++ [' '] ++ ':' :: '=' :: ' ' :: text.toList := by simp
  have apart : '=' ∉ name.toList ++ [' '] := by simpa using signless
  have cut : splitFirst [':', '='] (name ++ " := " ++ text).toList =
      some (name.toList ++ [' '], ' ' :: text.toList) := by
    rw [line, splitFirst_assign_append apart (by simp), splitFirst, if_pos (by simp)]
    simp
  rw [splitDefinition?_of_assign cut, trim_name_space atomic, if_pos atomic, ofList_space_cons]

/-- A `:=` in the expression is taken for the end of the name. -/
theorem splitDefinition?_eq_none (atomic : isAtomText name = true) (signless : '=' ∉ name.toList)
    (assign : [':', '='] <:+: text.toList) :
    splitDefinition? (definitionLine name text) = none := by
  obtain ⟨⟨before, after⟩, found⟩ := Option.ne_none_iff_exists'.mp fun none =>
    (splitFirst_eq_none_iff (List.cons_ne_nil _ _)).mp none assign
  have cut : splitFirst [':', '='] (definitionLine name text).toList =
      some (name.toList ++ ' ' :: '=' :: ' ' :: before, after) := by
    rw [splitFirst_assign_definitionLine signless, found]
    rfl
  rw [splitDefinition?_of_assign cut, if_neg]
  rw [not_isAtomText_trim_line atomic]
  exact Bool.false_ne_true

/-- **Which sign ends the name.** Before `:=` a name is cut off whatever the expression holds.
Before `=` it is cut off exactly if the expression is free of `:=`; with one in it the line is no
definition at all. -/
theorem definition_recognized_iff (atomic : isAtomText name = true) (signless : '=' ∉ name.toList)
    (text : String) :
    splitDefinition? (name ++ " := " ++ text) = some (name, " " ++ text) ∧
      (splitDefinition? (name ++ " = " ++ text) = some (name, " " ++ text) ↔
        ¬ [':', '='] <:+: text.toList) ∧
      ([':', '='] <:+: text.toList → splitDefinition? (name ++ " = " ++ text) = none) := by
  refine ⟨splitDefinition?_assign atomic signless text, ⟨?_, ?_⟩,
    splitDefinition?_eq_none atomic signless⟩
  · intro recognized assign
    have lost : splitDefinition? (name ++ " = " ++ text) = none :=
      splitDefinition?_eq_none atomic signless assign
    rw [lost] at recognized
    cases recognized
  · intro plain
    exact splitDefinition?_definitionLine atomic signless
      ((splitFirst_eq_none_iff (List.cons_ne_nil _ _)).mpr plain)

/-- A name that ends in a colon, and expressions that hold signs. -/
theorem definition_recognized_iff_colon :
    isAtomText "f:" = true ∧ '=' ∉ "f:".toList ∧
      splitDefinition? ("f:" ++ " := " ++ "a = (b := c)") = some ("f:", " " ++ "a = (b := c)") ∧
      ¬ [':', '='] <:+: "a = : = b".toList ∧
      splitDefinition? ("f:" ++ " = " ++ "a = : = b") = some ("f:", " " ++ "a = : = b") ∧
      [':', '='] <:+: "a :=".toList ∧ splitDefinition? ("f:" ++ " = " ++ "a :=") = none := by
  have atomic : isAtomText "f:" = true := by decide
  have signless : '=' ∉ "f:".toList := by decide
  have plain : ¬ [':', '='] <:+: "a = : = b".toList := by simp [List.infix_cons_iff]
  have assign : [':', '='] <:+: "a :=".toList := by decide
  exact ⟨atomic, signless, (definition_recognized_iff atomic signless _).1, plain,
    (definition_recognized_iff atomic signless _).2.1.mpr plain, assign,
    (definition_recognized_iff atomic signless _).2.2 assign⟩

/-- The line `A = f := g` starts with a name and a sign, and is not taken for a definition. With the
other sign it is. -/
theorem definition_with_assign_not_recognized :
    isAtomText "A" = true ∧ '=' ∉ "A".toList ∧
      splitDefinition? ("A" ++ " = " ++ "f := g") ≠ some ("A", " " ++ "f := g") ∧
      splitDefinition? ("A" ++ " = " ++ "f := g") = none ∧
      splitDefinition? ("A" ++ " := " ++ "f := g") = some ("A", " " ++ "f := g") := by
  have atomic : isAtomText "A" = true := by decide
  have signless : '=' ∉ "A".toList := by decide
  have lost : splitDefinition? ("A" ++ " = " ++ "f := g") = none :=
    splitDefinition?_eq_none atomic signless (by decide)
  refine ⟨atomic, signless, ?_, lost, splitDefinition?_assign atomic signless _⟩
  rw [lost]
  exact nofun

end LambdaWorkbench
