import LambdaWorkbench.Proofs.Term.WellNamed
import LambdaWorkbench.Term.Render

/-! # The characters of printed terms

Besides the names of a term, the named styles print nothing but parentheses, spaces, dots, lambda
signs and the word `lambda`. So whatever keeps clear of these and of the names keeps clear of the
printed term.
-/

namespace LambdaWorkbench.Term

/-- The characters that a printed term may have besides those of its names. -/
def markChars : List Char :=
  ['λ', '.', '(', ')', ' '] ++ lambdaWord.toList

/-- Every character of the text is a mark of the notation or belongs to one of the names. -/
def WrittenWith (names : List String) (text : String) : Prop :=
  ∀ c ∈ text.toList, c ∈ markChars ∨ ∃ name ∈ names, c ∈ name.toList

variable {names names' : List String} {text text' name param : String} {t : Term}

namespace WrittenWith

theorem of_marks (h : text.toList.all (markChars.contains ·) = true) : WrittenWith names text := by
  intro c mem
  have mark := List.all_eq_true.mp h c mem
  exact .inl (List.contains_iff_mem.mp mark)

theorem of_mem (h : name ∈ names) : WrittenWith names name :=
  fun _ mem => .inr ⟨name, h, mem⟩

theorem append (h : WrittenWith names text) (h' : WrittenWith names text') :
    WrittenWith names (text ++ text') := by
  intro c mem
  rw [String.toList_append] at mem
  rcases List.mem_append.mp mem with front | back
  · exact h c front
  · exact h' c back

theorem mono (h : WrittenWith names text) (sub : ∀ name ∈ names, name ∈ names') :
    WrittenWith names' text := by
  intro c mem
  rcases h c mem with mark | ⟨name, known, inName⟩
  · exact .inl mark
  · exact .inr ⟨name, sub name known, inName⟩

theorem parens (h : WrittenWith names text) : WrittenWith names ("(" ++ text ++ ")") :=
  ((of_marks (by decide)).append h).append (of_marks (by decide))

theorem parenthesized (needed : Bool) (h : WrittenWith names text) :
    WrittenWith names (parenthesized needed text) := by
  cases needed with
  | true => exact h.parens
  | false => exact h

theorem wordLambda (hp : WrittenWith names param) (h : WrittenWith names text) :
    WrittenWith names (wordLambda param text) :=
  ((((of_marks (by decide)).append hp).append (of_marks (by decide))).append h).append
    (of_marks (by decide))

theorem shorthand (hp : WrittenWith names param) (h : WrittenWith names text) :
    WrittenWith names ("λ" ++ param ++ "." ++ text) :=
  (((of_marks (by decide)).append hp).append (of_marks (by decide))).append h

theorem spaced (h : WrittenWith names text) (h' : WrittenWith names text') :
    WrittenWith names (text ++ " " ++ text') :=
  (h.append (of_marks (by decide))).append h'

end WrittenWith

open WrittenWith

theorem writtenWith_renderNamed (applied : Bool) (t : Term) :
    WrittenWith t.names (t.renderNamed applied) := by
  induction t generalizing applied with
  | var name index => exact .of_mem List.mem_cons_self
  | lam param body ih =>
    have bound : WrittenWith (lam param body).names param := .of_mem List.mem_cons_self
    have inner := (ih false).mono fun _ => List.mem_cons_of_mem param
    rw [renderNamed]
    split
    · exact (bound.shorthand inner).parenthesized applied
    · exact bound.wordLambda inner
  | app func arg ihf iha =>
    have left := (ihf true).mono fun _ => List.mem_append_left arg.names
    have right := (iha false).mono fun _ => List.mem_append_right func.names
    exact ((of_marks (by decide)).append left).spaced right |>.append (of_marks (by decide))

theorem writtenWith_renderCompact (place : Place) (t : Term) :
    WrittenWith t.names (t.renderCompact place) := by
  induction t generalizing place with
  | var name index => exact .of_mem List.mem_cons_self
  | lam param body ih =>
    have bound : WrittenWith (lam param body).names param := .of_mem List.mem_cons_self
    have inner := (ih .top).mono fun _ => List.mem_cons_of_mem param
    rw [renderCompact]
    split
    · exact (bound.shorthand inner).parenthesized _
    · exact bound.wordLambda inner
  | app func arg ihf iha =>
    have left := (ihf .func).mono fun _ => List.mem_append_left arg.names
    have right := (iha (.arg (place.argument || place.last))).mono
      fun _ => List.mem_append_right func.names
    rw [renderCompact]
    exact (left.spaced right).parenthesized _

theorem writtenWith_render (t : Term) {style : Style}
    (byName : style ∈ [Style.named, Style.compact]) : WrittenWith t.names (t.render style) := by
  simp only [List.mem_cons, List.not_mem_nil, or_false] at byName
  rcases byName with rfl | rfl
  · exact writtenWith_renderNamed false t
  · exact writtenWith_renderCompact .top t

/-- A character that is no mark and in none of the names is not printed. -/
theorem WrittenWith.notMem (h : WrittenWith names text) {c : Char} (mark : c ∉ markChars)
    (absent : ∀ name ∈ names, c ∉ name.toList) : c ∉ text.toList := by
  intro mem
  rcases h c mem with marked | ⟨name, known, inName⟩
  · exact mark marked
  · exact absent name known inName

/-- Every name in a well-named term is readable, those of parameters included. -/
theorem WellNamed.readable (h : t.WellNamed) : ∀ name ∈ t.names, Shorthand.Readable name := by
  induction t with
  | var name index =>
    intro occurring mem
    exact List.mem_singleton.mp mem ▸ VariableName.readable h
  | lam param body ih => exact List.forall_mem_cons.mpr ⟨h.1, ih h.2⟩
  | app func arg ihf iha =>
    intro name mem
    rcases List.mem_append.mp mem with inFunc | inArg
    · exact ihf h.1 name inFunc
    · exact iha h.2 name inArg

theorem WellNamed.of_names (h : ∀ name ∈ t.names, VariableName name) : t.WellNamed := by
  induction t with
  | var name index => exact h name List.mem_cons_self
  | lam param body ih =>
    rw [names, List.forall_mem_cons] at h
    exact ⟨h.1.readable, ih h.2⟩
  | app func arg ihf iha =>
    rw [names, List.forall_mem_append] at h
    exact ⟨ihf h.1, iha h.2⟩

/-- A well-named term is printed without blank characters other than spaces. -/
theorem WellNamed.blank_notMem_render (h : t.WellNamed) {style : Style}
    (byName : style ∈ [Style.named, Style.compact]) {c : Char} (blank : Text.isBlank c = true)
    (notSpace : c ≠ ' ') : c ∉ (t.render style).toList := by
  refine (writtenWith_render t byName).notMem ?_ ?_
  · intro mark
    have only : markChars.all (fun mark => !Text.isBlank mark || mark == ' ') = true := by decide
    have space := List.all_eq_true.mp only c mark
    simp [blank, notSpace] at space
  · intro name known inName
    have atom := (h.readable name known).atomic c inName
    simp [isAtomChar, blank] at atom

end LambdaWorkbench.Term
