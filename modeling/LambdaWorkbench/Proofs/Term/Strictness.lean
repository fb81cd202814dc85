import LambdaWorkbench.Proofs.Sexpr.Nesting
import LambdaWorkbench.Term.OfSexpr

/-! # Strict and tolerant parsing

Shorthands are written out before a text is read, while the prompt counts open lists in the text as
it was typed. Nothing is lost by that: expansion keeps the nesting, and all other faults of a text
are faults of a list in it. So the strict parser and the tolerant one differ in exactly what the
parentheses of the typed text say.
-/

namespace LambdaWorkbench

open Shorthand Sexpr

/-- The faults that a list of items can have. -/
inductive ParseError.OfList : ParseError → Prop
  | emptyExpression : OfList .emptyExpression
  | missingParameters : OfList .missingParameters
  | invalidParameter (text : String) : OfList (.invalidParameter text)

namespace Term

variable {text : String} {fault : ParseError}

/-! ## Faults of lists -/

/-- A computation in two parts fails in the first or, when that succeeds, in the second. -/
theorem error_of_bind {ε α β : Type} {x : Except ε α} {f : α → Except ε β} {fault : ε}
    (h : x >>= f = .error fault) : x = .error fault ∨ ∃ a, x = .ok a ∧ f a = .error fault := by
  cases x with
  | error other =>
    cases h
    exact .inl rfl
  | ok a => exact .inr ⟨a, rfl, h⟩

theorem ofList_paramNames {items : List Sexpr} (h : paramNames items = .error fault) :
    fault.OfList := by
  induction items with
  | nil => cases h
  | cons item rest ih =>
    cases item with
    | list inner =>
      cases h
      exact .invalidParameter _
    | atom name =>
      obtain early | ⟨names, -, late⟩ := error_of_bind h
      · exact ih early
      · cases late

mutual

theorem ofList_ofSexpr {scope : List String} {s : Sexpr} (h : ofSexpr scope s = .error fault) :
    fault.OfList := by
  cases s with
  | atom name => cases h
  | list items => exact ofList_ofItems h

theorem ofList_ofItems {scope : List String} {items : List Sexpr}
    (h : ofItems scope items = .error fault) : fault.OfList := by
  cases items with
  | nil =>
    cases h
    exact .emptyExpression
  | cons item rest =>
    rw [ofItems] at h
    split at h
    · exact ofList_ofLambda h
    · obtain first | ⟨func, -, others⟩ := error_of_bind h
      · exact ofList_ofSexpr first
      · exact ofList_applyItems others

theorem ofList_applyItems {scope : List String} {func : Term} {items : List Sexpr}
    (h : applyItems scope func items = .error fault) : fault.OfList := by
  cases items with
  | nil => cases h
  | cons item rest =>
    rw [applyItems] at h
    split at h
    · obtain last | ⟨arg, -, done⟩ := error_of_bind h
      · exact ofList_ofLambda last
      · cases done
    · obtain next | ⟨arg, -, others⟩ := error_of_bind h
      · exact ofList_ofSexpr next
      · exact ofList_applyItems others

theorem ofList_ofLambda {scope : List String} {items : List Sexpr}
    (h : ofLambda scope items = .error fault) : fault.OfList := by
  rcases items with - | ⟨name | - | ⟨first, others⟩, body⟩
  · cases h
    exact .missingParameters
  · cases h
    exact .missingParameters
  · cases h
    exact .missingParameters
  · rw [ofLambda] at h
    obtain given | ⟨params, -, rest⟩ := error_of_bind h
    · exact ofList_paramNames given
    · obtain inside | ⟨inner, -, done⟩ := error_of_bind rest
      · exact ofList_ofItems inside
      · cases done

end

/-! ## Parsers -/

theorem noStray_expand_iff : NoStray 0 (expand text).toList ↔ NoStray 0 text.toList :=
  (nestsAs_expand text).noStray 0

/-- Without a stray parenthesis the parsers differ only where lists are left open. -/
theorem parseStrict_eq (h : NoStray 0 text.toList) :
    parseStrict text = if unclosedCount text = 0 then parse text
      else .error (.unclosedParens (unclosedCount text)) := by
  rw [parseStrict, (noStray_expand_iff.mpr h).readStrict_eq, (nestsAs_expand text).unclosedCount_eq]
  split
  · rfl
  · rfl

/-- A stray parenthesis is all that the strict parser reports. -/
theorem exists_parseStrict_eq (h : ¬ NoStray 0 text.toList) :
    ∃ offset, parseStrict text = .error (.strayParen offset) := by
  obtain ⟨offset, stray⟩ := exists_stray_iff.mpr (mt noStray_expand_iff.mp h)
  exact ⟨offset, by rw [parseStrict, stray]; rfl⟩

theorem parseStrict_eq_unclosed_iff {depth : Nat} :
    parseStrict text = .error (.unclosedParens depth) ↔
      unclosedCount text = depth ∧ 0 < depth := by
  by_cases noStray : NoStray 0 text.toList
  · rw [parseStrict_eq noStray]
    split
    · rename_i closed
      refine iff_of_false ?_ ?_
      · intro unclosed
        cases ofList_ofSexpr unclosed
      · rintro ⟨rfl, positive⟩
        exact Nat.ne_of_gt positive closed
    · rename_i left
      constructor
      · intro unclosed
        cases unclosed
        exact ⟨rfl, Nat.pos_of_ne_zero left⟩
      · rintro ⟨rfl, -⟩
        rfl
  · obtain ⟨offset, stray⟩ := exists_parseStrict_eq noStray
    rw [stray, unclosedCount_eq_zero noStray]
    refine iff_of_false nofun ?_
    rintro ⟨rfl, positive⟩
    exact Nat.lt_irrefl 0 positive

/-- Parentheses that close lists are left alone. -/
theorem expand_closing (text : String) (count : Nat) :
    expand (text ++ String.ofList (List.replicate count ')')) =
      expand text ++ String.ofList (List.replicate count ')') := by
  have plain : Plain (List.replicate count ')') := by
    refine plain_of_not_marker (List.any_eq_false.mpr ?_)
    intro c mem
    rw [List.eq_of_mem_replicate mem]
    decide
  rw [expand, String.toList_append, String.toList_ofList,
    expandChars_append (startsApart_replicate_closing count),
    (expandChars_eq_self_iff false).mpr plain, String.ofList_append, expand]

theorem parse_eq_closed (h : NoStray 0 text.toList) :
    parse text =
      parseStrict (text ++ String.ofList (List.replicate (unclosedCount text) ')')) := by
  rw [parseStrict, expand_closing, ← (nestsAs_expand text).unclosedCount_eq,
    (noStray_expand_iff.mpr h).readStrict_closed]
  rfl

/-- **Expansion and parentheses.** An expanded text holds no marker that a name and a dot follow,
and expanding it again leaves it as it is. It leaves as many lists open as the text, and has a stray
parenthesis exactly when the text has one. Hence the strict parser reports the number of open lists
of the text itself. Without a stray parenthesis the tolerant parser does what the strict one does
once the open lists are closed, and on balanced texts both do the same. -/
theorem expansion_keeps_nesting (text : String) :
    (∀ front marker name after, isMarker marker = true → name ≠ [] →
      (∀ c ∈ name, isNameChar c = true) →
        (expand text).toList ≠ front ++ marker :: (name ++ '.' :: after)) ∧
    expand (expand text) = expand text ∧
    unclosedCount (expand text) = unclosedCount text ∧
    (NoStray 0 (expand text).toList ↔ NoStray 0 text.toList) ∧
    ((∃ offset, readStrict (expand text) = .error (.strayParen offset)) ↔
      ∃ offset, readStrict text = .error (.strayParen offset)) ∧
    (∀ depth, parseStrict text = .error (.unclosedParens depth) ↔
      unclosedCount text = depth ∧ 0 < depth) ∧
    (NoStray 0 text.toList →
      parse text =
        parseStrict (text ++ String.ofList (List.replicate (unclosedCount text) ')'))) ∧
    (NoStray 0 text.toList → text.toList.count '(' = text.toList.count ')' →
      parse text = parseStrict text) := by
  have nests := nestsAs_expand text
  have plain := plain_expand text
  refine ⟨?_, expand_eq_self_iff.mpr plain, nests.unclosedCount_eq, nests.noStray 0,
    nests.exists_stray_iff, fun depth => parseStrict_eq_unclosed_iff, parse_eq_closed, ?_⟩
  · intro front marker name after isMarker nonempty named whole
    rw [whole] at plain
    have none := plain.of_append_right.1 isMarker
    rw [binder?_eq_some_iff.mpr ⟨nonempty, named, rfl⟩] at none
    cases none
  · intro noStray balanced
    have closed : unclosedCount text = 0 := by
      have count := noStray.count_eq
      omega
    rw [parseStrict_eq noStray, if_pos closed]

/-- The first marker has no name, as the second one is none, and stays. In the second text the
parameter list is the only fault. -/
theorem expansion_keeps_nesting_marked :
    let text := "λ\\x.(x λy.y"
    NoStray 0 text.toList ∧ expand text = "λ lambda (x) (x lambda (y) y" ∧
      expand (expand text) = expand text ∧ unclosedCount (expand text) = 1 ∧
      parseStrict text = .error (.unclosedParens 1) ∧ parse text = parseStrict (text ++ ")") ∧
      parse "(lambda ((λx.x)) y)" = parseStrict "(lambda ((λx.x)) y)" ∧
      parse "(lambda ((λx.x)) y)" = .error (.invalidParameter "(lambda (x) x)") := by
  intro text
  have noStray : NoStray 0 text.toList := by decide +kernel
  have unclosed : unclosedCount text = 1 := by decide +kernel
  obtain ⟨-, fixed, count, -, -, strict, closed, -⟩ := expansion_keeps_nesting text
  have balanced := (expansion_keeps_nesting "(lambda ((λx.x)) y)").2.2.2.2.2.2.2
  rw [unclosed] at closed
  exact ⟨noStray, by decide +kernel, fixed, count.trans unclosed,
    (strict 1).mpr ⟨unclosed, Nat.one_pos⟩, closed noStray,
    balanced (by decide +kernel) (by decide +kernel), by decide +kernel⟩

end Term

end LambdaWorkbench
