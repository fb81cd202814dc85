import LambdaWorkbench.Proofs.Sexpr.Reading
import LambdaWorkbench.Term.OfSexpr

/-! # Blank characters around a text

Blank characters at the ends of a text are no part of a token, and no shorthand reaches into them.
So a text reads as the same trees with them and without them, and parses to the same term or fails
in the same way.
-/

namespace LambdaWorkbench

open Text

variable {cs front back : List Char}

namespace Text

/-- A text is its trimmed form between blank characters. -/
theorem exists_trimChars (cs : List Char) :
    ∃ front back, cs = front ++ (trimChars cs ++ back) ∧ (∀ c ∈ front, isBlank c = true) ∧
      ∀ c ∈ back, isBlank c = true := by
  let rest := cs.dropWhile isBlank
  refine ⟨cs.takeWhile isBlank, (rest.reverse.takeWhile isBlank).reverse, ?_, ?_, ?_⟩
  · rw [trimChars, ← List.reverse_append, List.takeWhile_append_dropWhile, List.reverse_reverse,
      List.takeWhile_append_dropWhile]
  · intro c mem
    exact List.all_eq_true.mp List.all_takeWhile c mem
  · intro c mem
    exact List.all_eq_true.mp List.all_takeWhile c (List.mem_reverse.mp mem)

end Text

theorem isAtomChar_of_isBlank {c : Char} (h : isBlank c = true) : isAtomChar c = false := by
  simp [isAtomChar, h]

theorem startsApart_of_isBlank (blank : ∀ c ∈ cs, isBlank c = true) : StartsApart cs :=
  fun c first => isAtomChar_of_isBlank (blank c (List.mem_of_mem_head? first))

namespace Shorthand

/-- Expansion passes over blank characters. -/
theorem expandChars_blank_append (blank : ∀ c ∈ front, isBlank c = true) (rest : List Char) :
    expandChars false (front ++ rest) = front ++ expandChars false rest := by
  induction front with
  | nil => rfl
  | cons c front ih =>
    rw [List.forall_mem_cons] at blank
    rw [List.cons_append, expandChars_separator (isAtomChar_of_isBlank blank.1), ih blank.2]
    rfl

/-- Expansion leaves blank characters at the end as they are. -/
theorem expandChars_append_blank (blank : ∀ c ∈ back, isBlank c = true) (cs : List Char) :
    expandChars false (cs ++ back) = expandChars false cs ++ back := by
  have kept : expandChars false back = back := by
    have alone := expandChars_blank_append blank []
    simpa [expandChars] using alone
  rw [expandChars_append (startsApart_of_isBlank blank), kept]

end Shorthand

namespace Token

theorem ofChars_blank_append (blank : ∀ c ∈ front, isBlank c = true) (rest : List Char) :
    ofChars (front ++ rest) = ofChars rest := by
  induction front with
  | nil => rfl
  | cons c front ih =>
    rw [List.forall_mem_cons] at blank
    rw [List.cons_append, ofChars_blank blank.1, ih blank.2]

theorem scanFrom_append_blank (blank : ∀ c ∈ back, isBlank c = true) (offset : Nat)
    (cs : List Char) : scanFrom offset (cs ++ back) = scanFrom offset cs := by
  induction cs generalizing offset with
  | nil =>
    have nothing := ofChars_blank_append blank []
    rw [List.append_nil, ofChars_nil, ← map_snd_scanFrom offset, List.map_eq_nil_iff] at nothing
    exact nothing
  | cons c rest ih => rw [List.cons_append, scanFrom, scanFrom, ih]

/-- Only what stands between the blank characters at its ends is written with tokens. -/
theorem ofChars_expandChars_trimChars (cs : List Char) :
    ofChars (Shorthand.expandChars false cs) =
      ofChars (Shorthand.expandChars false (trimChars cs)) := by
  obtain ⟨front, back, whole, before, after⟩ := exists_trimChars cs
  calc
    ofChars (Shorthand.expandChars false cs)
      = ofChars (Shorthand.expandChars false (front ++ (trimChars cs ++ back))) := by rw [← whole]
    _ = ofChars (front ++ (Shorthand.expandChars false (trimChars cs) ++ back)) := by
      rw [Shorthand.expandChars_blank_append before, Shorthand.expandChars_append_blank after]
    _ = ofChars (Shorthand.expandChars false (trimChars cs)) := by
      rw [ofChars_blank_append before, ofChars, scanFrom_append_blank after, ofChars]

end Token

namespace Sexpr

/-- The trees that are read do not depend on where the tokens stand. -/
theorem items_readTokens_congr {scanned scanned' : List (Nat × Token)}
    (same : scanned.map Prod.snd = scanned'.map Prod.snd) (items : List Sexpr)
    (outer : List (List Sexpr)) :
    (readTokens scanned items outer).items = (readTokens scanned' items outer).items := by
  induction scanned generalizing scanned' items outer with
  | nil =>
    rw [List.map_nil, eq_comm, List.map_eq_nil_iff] at same
    rw [same]
  | cons first rest ih =>
    obtain ⟨offset, token⟩ := first
    obtain ⟨⟨offset', token'⟩, rest', rfl, written, others⟩ := List.map_eq_cons_iff.mp same.symm
    obtain rfl : token' = token := written
    cases token' with
    | opening => exact ih others.symm [] (items :: outer)
    | atom name => exact ih others.symm (atom name :: items) outer
    | closing =>
      cases outer with
      | nil => rfl
      | cons parent outer => exact ih others.symm (list items.reverse :: parent) outer

theorem read_congr {text text' : String}
    (same : Token.ofChars text.toList = Token.ofChars text'.toList) : read text = read text' :=
  congrArg list (items_readTokens_congr same [] [])

end Sexpr

namespace Term

/-- Blank characters at the ends of a text do not matter to the tolerant parser. -/
theorem parse_trim (text : String) : parse (Text.trim text) = parse text := by
  have same : Token.ofChars (Shorthand.expand (Text.trim text)).toList =
      Token.ofChars (Shorthand.expand text).toList := by
    simp only [Shorthand.expand, Text.trim, String.toList_ofList]
    exact (Token.ofChars_expandChars_trimChars text.toList).symm
  rw [parse, Sexpr.read_congr same, parse]

end Term

end LambdaWorkbench
