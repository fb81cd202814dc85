import LambdaWorkbench.Proofs.Sexpr.Layout

/-! # Tokens taken one by one

The tokens of a text can be taken one by one, each from the byte position after the one before it. A
look for a token cuts the text at positions that it works out from the lengths of the characters it
has passed. No such cut falls inside a character, every look gets on, and what is taken in the end
are the tokens of the scan.
-/

namespace LambdaWorkbench.Token

open Text

/-- What a look for a token comes to: the end of the text, or a token between two byte positions. -/
inductive Look where
  | finished
  | found (start : Nat) (token : Token) (position : Nat)

/-- The token at the start of the rest of a text, which stands at byte `start`. -/
def tokenAt? (start : Nat) (rest : List Char) : Option Look :=
  match rest with
  | [] => some .finished
  | c :: _ =>
    if c = '(' then some (.found start opening (start + 1))
    else if c = ')' then some (.found start closing (start + 1))
    else
      let length := byteLength (rest.takeWhile isAtomChar)
      (charsBefore? length rest).map fun name =>
        .found start (atom (String.ofList name)) (start + length)

/-- Looks for a token from a byte position on, past the blank characters there. Nothing comes of it
when the text would have to be cut inside a character. -/
def look? (cs : List Char) (position : Nat) : Option Look := do
  let ahead ← charsFrom? position cs
  let start := position + byteLength (ahead.takeWhile isBlank)
  let rest ← charsFrom? start cs
  tokenAt? start rest

/-- Taking tokens from a byte position on comes to an end after `items`. -/
inductive Takes (cs : List Char) : Nat → List (Nat × Token) → Prop
  | finished {position : Nat} : look? cs position = some .finished → Takes cs position []
  | found {position start position' : Nat} {token : Token} {later : List (Nat × Token)} :
      look? cs position = some (.found start token position') → Takes cs position' later →
      Takes cs position ((start, token) :: later)

variable {cs blanks rest : List Char} {offset position : Nat} {token : Token}
  {items items' : List (Nat × Token)}

theorem Takes.unique (h : Takes cs position items) (h' : Takes cs position items') :
    items = items' := by
  induction h generalizing items' with
  | finished done =>
    cases h' with
    | finished _ => rfl
    | found step _ => cases done.symm.trans step
  | found step _ ih =>
    cases h' with
    | finished done => cases step.symm.trans done
    | found step' later =>
      cases step.symm.trans step'
      rw [ih later]

/-! ## One look -/

theorem takeWhile_append_startsApart {run : List Char} (inked : ∀ c ∈ run, isAtomChar c = true)
    (apart : StartsApart rest) : (run ++ rest).takeWhile isAtomChar = run := by
  rw [List.takeWhile_append_of_pos inked]
  cases rest with
  | nil => rw [List.takeWhile_nil, List.append_nil]
  | cons c rest =>
    rw [List.takeWhile_cons_of_neg (by simp [startsApart_cons.mp apart]), List.append_nil]

theorem tokenAt?_append (spelled : token.Spelled) (apart : token.isAtom = true → StartsApart rest)
    (start : Nat) :
    tokenAt? start (token.text.toList ++ rest) =
      some (.found start token (start + byteLength token.text.toList)) := by
  cases token with
  | opening => rfl
  | closing => rfl
  | atom name =>
    obtain ⟨c, run, eq⟩ := List.exists_cons_of_ne_nil spelled.nonempty
    have inked := spelled.inked c (eq ▸ List.mem_cons_self)
    obtain ⟨-, notOpening, notClosing⟩ := isAtomChar_iff.mp inked
    have starts : name.toList ++ rest = c :: (run ++ rest) := by rw [eq, List.cons_append]
    have longest : (name.toList ++ rest).takeWhile isAtomChar = name.toList :=
      takeWhile_append_startsApart spelled.inked (apart rfl)
    rw [text, starts, tokenAt?, if_neg notOpening, if_neg notClosing, ← starts, longest]
    simp only [charsBefore?_append, Option.map_some, String.ofList_toList]

/-- Blank characters are passed over, and the text is cut after them. -/
theorem look?_eq (blank : Blank blanks) (stops : rest.takeWhile isBlank = []) (front : List Char) :
    look? (front ++ (blanks ++ rest)) (byteLength front) =
      tokenAt? (byteLength front + byteLength blanks) rest := by
  have ahead : (blanks ++ rest).takeWhile isBlank = blanks := by
    rw [List.takeWhile_append_of_pos blank, stops, List.append_nil]
  have cut := charsFrom?_append (front ++ blanks) rest
  rw [byteLength_append, List.append_assoc] at cut
  simp only [look?, charsFrom?_append, Option.bind_eq_bind, Option.bind_some, ahead, cut]

/-- The tokens of a layout are taken. -/
theorem Layout.takes (h : Layout offset cs items) (front : List Char)
    (before : byteLength front = offset) : Takes (front ++ cs) offset items := by
  induction h generalizing front with
  | @gap offset blanks blank =>
    refine .finished ?_
    have atEnd := look?_eq blank List.takeWhile_nil front
    rw [List.append_nil, before] at atEnd
    exact atEnd
  | @token offset start blanks rest token later blank eq spelled apart _ ih =>
    have after := ih (front ++ blanks ++ token.text.toList) (byteLength_upTo before eq token)
    simp only [List.append_assoc] at after
    refine .found ?_ after
    obtain ⟨c, run, first, inked⟩ := spelled.exists_cons
    have stops : (token.text.toList ++ rest).takeWhile isBlank = [] := by
      rw [first, List.cons_append, List.takeWhile_cons_of_neg (by simp [inked])]
    rw [← before, look?_eq blank stops, before, ← eq, tokenAt?_append spelled apart]

/-- **Tokenizing loses nothing.** Taking tokens one by one ends, with the tokens of the scan and no
others, and never cuts inside a character. The tokens start at increasing positions and stand there
with their own texts; atoms are not empty and hold no blank character and no parenthesis. Before,
between and after the tokens there are only blank characters, at least one where two atoms follow
each other. -/
theorem scan_covers_text (source : String) :
    (∀ items, Takes source.toList 0 items ↔ items = scan source) ∧
    (scan source).Pairwise (fun a b => a.1 < b.1) ∧
    (∀ item ∈ scan source, slice? item.1 (stop item) source.toList = some item.2.text.toList) ∧
    (∀ offset name, (offset, atom name) ∈ scan source → Atomic name) ∧
    (∀ gap ∈ gaps 0 (byteLength source.toList) (scan source),
      ∃ blanks, slice? gap.1 gap.2 source.toList = some blanks ∧ Blank blanks) ∧
    (scan source).IsChain fun a b => a.2.isAtom = true → b.2.isAtom = true →
      ∃ c blanks, slice? (stop a) b.1 source.toList = some (c :: blanks) ∧ isBlank c = true := by
  have layout : Layout 0 source.toList (scan source) := layout_scanFrom 0 source.toList
  have takes : Takes source.toList 0 (scan source) := layout.takes [] rfl
  refine ⟨?_, layout.pairwise_start, layout.slice_token [] rfl, ?_, layout.slice_gap [] rfl,
    layout.chain_atoms [] rfl⟩
  · intro items
    constructor
    · intro other
      exact other.unique takes
    · rintro rfl
      exact takes
  · intro offset name mem
    exact layout.spelled _ mem

/-- The letter takes two bytes and the wide blank three. The atoms touch the parentheses but not
each other. -/
theorem scan_covers_text_wide :
    let source := "é(a\u3000b"
    scan source = [(0, atom "é"), (2, opening), (3, atom "a"), (7, atom "b")] ∧
      slice? 7 8 source.toList = some ['b'] ∧ slice? 1 2 source.toList = none ∧ Atomic "é" ∧
      (∃ blanks, slice? 4 7 source.toList = some blanks ∧ Blank blanks) ∧
      ∃ c blanks, slice? 4 7 source.toList = some (c :: blanks) ∧ isBlank c = true := by
  intro source
  have scanned : scan source = [(0, atom "é"), (2, opening), (3, atom "a"), (7, atom "b")] := by
    decide
  obtain ⟨-, -, stands, atoms, blanks, apart⟩ := scan_covers_text source
  simp only [scanned, List.isChain_cons_cons] at stands atoms blanks apart
  exact ⟨scanned, stands (7, atom "b") (by decide), by decide, atoms 0 "é" (by decide),
    blanks (4, 7) (by decide), apart.2.2.1 rfl rfl⟩

end LambdaWorkbench.Token
