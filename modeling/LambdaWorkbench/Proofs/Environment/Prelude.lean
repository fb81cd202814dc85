import LambdaWorkbench.Environment.Prelude
import LambdaWorkbench.Proofs.Environment.Listing
import LambdaWorkbench.Proofs.Redex.Contraction
import LambdaWorkbench.Proofs.Text.Numerals

/-! # The definitions of the prelude

The text of the prelude is a list of definitions in the named style, with remarks between. So it
makes the environment of these definitions, without a limit for numerals. None of its names spells a
number, so every number that fits in 64 bits stands for its numeral.
-/

namespace LambdaWorkbench

open Term

/-- A term whose names the shorthand can bind, and whose variables have their distances. -/
theorem Listable.of_names {name : String} {term : Term} (atomic : isAtomText name = true)
    (signless : Signless name) (indexed : term.reindex = term)
    (plain : ∀ name ∈ term.names,
      Shorthand.canBind name = true ∧ name ≠ lambdaWord ∧ Signless name) :
    Listable name term := by
  have named : term.WellNamed := .of_names fun name mem =>
    .of_canBind (plain name mem).1 (plain name mem).2.1
  have printed : PrintsAs false true term (term.render .named) := printsAs_render named (by decide)
  have parsed := printed.parse_eq.1
  rw [indexed] at parsed
  exact ⟨atomic, signless, ⟨_, parsed⟩, fun name mem => (plain name mem).2.2⟩

namespace FileLine

/-- A definition, with the distances of its variables worked out. -/
def defining (name : String) (term : Term) : FileLine :=
  .definition name term.reindex

/-- Whether a line is blank before its comment, or has names without dots, lambda signs and signs
of the notation for definitions. -/
def isPlain : FileLine → Bool
  | remark text => Text.isBlankText (Text.beforeComment text) && !text.toList.contains '\n' &&
      text.toList.getLast? != some '\r'
  | definition name term => isAtomText name && decide (Signless name) &&
      decide (term.reindex = term) && term.names.all fun name =>
        Shorthand.canBind name && decide (name ≠ lambdaWord) && decide (Signless name)

theorem fits_of_isPlain {line : FileLine} (h : line.isPlain = true) : line.Fits := by
  cases line with
  | remark text =>
    simp only [isPlain, Bool.and_eq_true, Bool.not_eq_true', bne_iff_ne] at h
    exact ⟨h.1.1, by simpa using h.1.2, h.2⟩
  | definition name term =>
    simp only [isPlain, Bool.and_eq_true, decide_eq_true_eq, List.all_eq_true] at h
    obtain ⟨⟨⟨atomic, signless⟩, indexed⟩, plain⟩ := h
    exact .of_names atomic signless indexed fun name mem =>
      ⟨(plain name mem).1.1, (plain name mem).1.2, (plain name mem).2⟩

end FileLine

/-- The prelude, line by line. -/
def preludeFile : List FileLine :=
  [.remark "# combinators",
    .defining "I" (lam "x" (free "x")),
    .defining "K" (lams ["x", "y"] (free "x")),
    .defining "S" (lams ["x", "y", "z"]
      (app (app (free "x") (free "z")) (app (free "y") (free "z")))),
    .defining "B" (lams ["f", "g", "x"] (app (free "f") (app (free "g") (free "x")))),
    .defining "C" (lams ["f", "x", "y"] (app (app (free "f") (free "y")) (free "x"))),
    .defining "Y" (lam "f" (app (lam "x" (app (free "f") (app (free "x") (free "x"))))
      (lam "x" (app (free "f") (app (free "x") (free "x")))))),
    .remark "",
    .remark "# booleans",
    .defining "TRUE" (lams ["t", "f"] (free "t")),
    .defining "FALSE" (lams ["t", "f"] (free "f")),
    .defining "AND" (lams ["p", "q"] (app (app (free "p") (free "q")) (free "p"))),
    .defining "OR" (lams ["p", "q"] (app (app (free "p") (free "p")) (free "q"))),
    .defining "NOT" (lam "p" (app (app (free "p") (free "FALSE")) (free "TRUE"))),
    .defining "IF" (lams ["p", "a", "b"] (app (app (free "p") (free "a")) (free "b"))),
    .remark "",
    .remark "# pairs",
    .defining "PAIR" (lams ["x", "y", "f"] (app (app (free "f") (free "x")) (free "y"))),
    .defining "FST" (lam "p" (app (free "p") (free "TRUE"))),
    .defining "SND" (lam "p" (app (free "p") (free "FALSE"))),
    .remark "",
    .remark "# numerals",
    .defining "SUCC" (lams ["n", "f", "x"]
      (app (free "f") (app (app (free "n") (free "f")) (free "x")))),
    .defining "PRED" (lams ["n", "f", "x"] (app (app (app (free "n")
      (lams ["g", "h"] (app (free "h") (app (free "g") (free "f"))))) (lam "u" (free "x")))
      (lam "u" (free "u")))),
    .defining "PLUS" (lams ["m", "n", "f", "x"] (app (app (free "m") (free "f"))
      (app (app (free "n") (free "f")) (free "x")))),
    .defining "MULT" (lams ["m", "n", "f"] (app (free "m") (app (free "n") (free "f")))),
    .defining "POW" (lams ["b", "e"] (app (free "e") (free "b"))),
    .defining "ISZERO" (lam "n" (app (app (free "n") (lam "x" (free "FALSE"))) (free "TRUE")))]

theorem preludeText_eq : preludeText = Text.unlines (preludeFile.map (·.text .named)) := by
  have lines : preludeLines = preludeFile.map (·.text .named) := by decide +kernel
  rw [← lines]
  rfl

theorem fits_preludeFile : ∀ line ∈ preludeFile, line.Fits := by
  have plain : ∀ line ∈ preludeFile, line.isPlain = true := by decide +kernel
  exact fun line mem => FileLine.fits_of_isPlain (plain line mem)

namespace Environment

/-- The environment that the prelude makes. -/
def loadedPrelude : Environment :=
  ⟨preludeFile.filterMap (·.definition?), none, by decide⟩

theorem prelude_eq : Environment.prelude = .ok loadedPrelude := by
  have byName : Style.named ∈ [Style.named, Style.compact] := by decide
  have defines : preludeFile.filterMap (·.definition?) = loadedPrelude.entries := rfl
  rw [prelude, preludeText_eq, ofSource_file byName fits_preludeFile defines]
  rfl

theorem unfold_of_get? {env : Environment} {name : String} {term : Term}
    (h : env.get? name = some term) : env.rules.unfold name = some term.nameless := by
  simp only [rules, h]

/-- A number stands for its numeral. -/
theorem unfold_numeral {spelling : String} {n : Nat}
    (spells : Text.naturalValue? spelling = some n) (fits : n ≤ Text.maxWord) :
    loadedPrelude.rules.unfold spelling = some (church n).nameless := by
  have wordy : ∀ name ∈ loadedPrelude.names, Text.naturalValue? name = none := by decide +kernel
  have absent : loadedPrelude.get? spelling = none := by
    rw [get?, List.lookup_eq_none_iff]
    intro entry mem
    rw [bne_iff_ne]
    rintro rfl
    have none := wordy entry.1 (List.mem_map_of_mem mem)
    rw [none] at spells
    cases spells
  have expanded : loadedPrelude.expands n = true := by
    rw [expands, Bool.and_eq_true, decide_eq_true_eq]
    exact ⟨fits, rfl⟩
  simp only [rules, absent, spells, expanded, if_true]

end Environment

end LambdaWorkbench
