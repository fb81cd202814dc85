import LambdaWorkbench.Proofs.Sexpr.Layout

/-! # Trees read back from their texts

A printed tree has the tokens of the tree: parentheses stand for themselves, and an atom ends at the
space or the parenthesis after it. So it reads back, and since every atom that is read is one that
can be printed, whatever has been read can be printed and read again.
-/

namespace LambdaWorkbench.Sexpr

/-- A tree whose atoms are not empty and hold no blank character and no parenthesis. -/
inductive Printable : Sexpr → Prop
  | atom {name : String} : Token.Atomic name → Printable (atom name)
  | list {items : List Sexpr} : (∀ item ∈ items, Printable item) → Printable (list items)

variable {s t : Sexpr} {text : String}

/-! ## The tokens of a printed tree -/

theorem toList_render_list (items : List Sexpr) :
    (list items).render.toList = '(' :: ((renderItems items).toList ++ [')']) := by
  simp

theorem toList_renderItems_cons_cons (item next : Sexpr) (others : List Sexpr) :
    (renderItems (item :: next :: others)).toList =
      item.render.toList ++ ' ' :: (renderItems (next :: others)).toList := by
  simp [renderItems]

mutual

/-- A printed tree has the tokens of the tree, whatever starts apart after it. -/
theorem ofChars_render (s : Sexpr) (printable : Printable s) {rest : List Char}
    (apart : StartsApart rest) :
    Token.ofChars (s.render.toList ++ rest) = s.tokens ++ Token.ofChars rest := by
  cases printable with
  | @atom name atomic =>
    rw [render_atom, Token.ofChars_append atomic.nonempty atomic.inked apart, tokens_atom,
      String.ofList_toList, List.singleton_append]
  | @list items each =>
    have closes : StartsApart (')' :: rest) := startsApart_cons.mpr (by decide)
    rw [toList_render_list, List.cons_append, List.append_assoc, Token.ofChars_opening,
      List.singleton_append, ofChars_renderItems items each closes, Token.ofChars_closing,
      tokens_list, List.cons_append, List.cons_append, List.append_assoc, List.singleton_append]

theorem ofChars_renderItems (items : List Sexpr) (printable : ∀ item ∈ items, Printable item)
    {rest : List Char} (apart : StartsApart rest) :
    Token.ofChars ((renderItems items).toList ++ rest) =
      itemTokens items ++ Token.ofChars rest := by
  match items with
  | [] => rw [renderItems, itemTokens_nil]; rfl
  | [item] =>
    rw [renderItems, ofChars_render item (List.forall_mem_singleton.mp printable) apart,
      itemTokens_cons, itemTokens_nil, List.append_nil]
  | item :: next :: others =>
    obtain ⟨first, later⟩ := List.forall_mem_cons.mp printable
    have space : ∀ back, StartsApart (' ' :: back) := fun _ => startsApart_cons.mpr (by decide)
    rw [toList_renderItems_cons_cons, List.append_assoc, List.cons_append,
      ofChars_render item first (space _), Token.ofChars_space,
      ofChars_renderItems (next :: others) later apart, itemTokens_cons item, List.append_assoc]

end

theorem reading_render (h : Printable s) : reading s.render = ⟨[s], .balanced⟩ := by
  refine reading_eq ?_
  have whole := ofChars_render s h startsApart_nil
  rw [List.append_nil, Token.ofChars_nil, List.append_nil] at whole
  rw [whole, itemTokens_cons, itemTokens_nil, List.append_nil]

theorem readStrict_render (h : Printable s) : readStrict s.render = .ok (list [s]) := by
  rw [readStrict, read, reading_render h]

theorem read_render (h : Printable s) : read s.render = list [s] := by
  rw [read, reading_render h]

/-! ## Trees that have been read -/

mutual

theorem printable_of_tokens (s : Sexpr) (h : Token.AllAtoms Token.Atomic s.tokens) :
    Printable s := by
  cases s with
  | atom name => exact .atom (h name (by simp))
  | list items => exact .list (printable_of_itemTokens items (by simpa using h))

theorem printable_of_itemTokens (items : List Sexpr)
    (h : Token.AllAtoms Token.Atomic (itemTokens items)) : ∀ item ∈ items, Printable item := by
  cases items with
  | nil => exact nofun
  | cons item others =>
    rw [itemTokens_cons, Token.allAtoms_append] at h
    exact List.forall_mem_cons.mpr
      ⟨printable_of_tokens item h.1, printable_of_itemTokens others h.2⟩

end

/-- What is read from any text can be printed. -/
theorem printable_read (text : String) : Printable (read text) := by
  have scanned : Token.AllAtoms Token.Atomic ((Token.scan text).map Prod.snd) := by
    intro name mem
    obtain ⟨item, inScan, eq⟩ := List.mem_map.mp mem
    have spelled := (Token.layout_scanFrom 0 text.toList).spelled item inScan
    rw [eq] at spelled
    exact spelled
  have items : Token.AllAtoms Token.Atomic (itemTokens (reading text).items) :=
    allAtoms_readTokens scanned (by simp) nofun
  exact .list (printable_of_itemTokens (reading text).items items)

theorem eq_read_of_readStrict (h : readStrict text = .ok t) : t = read text := by
  rw [readStrict] at h
  split at h <;> cases h
  rfl

/-- **Printed trees read back.** A tree whose atoms can stand as such is read back from its text, by
either reader, as the only tree in it. Either reader only yields such trees, so what the tolerant
reader has made of a text, balanced or not, is read back from its own text. -/
theorem printed_reads_back (s : Sexpr) (text : String) :
    (Printable s → readStrict s.render = .ok (list [s]) ∧ read s.render = list [s]) ∧
    Printable (read text) ∧
    (∀ t, readStrict text = .ok t → Printable t) ∧
    readStrict (read text).render = .ok (list [read text]) := by
  have printable := printable_read text
  refine ⟨fun h => ⟨readStrict_render h, read_render h⟩, printable, ?_,
    readStrict_render printable⟩
  intro t strict
  rw [eq_read_of_readStrict strict]
  exact printable

/-- An empty list and a list after an atom are told apart from atoms. The other text ends inside a
list. -/
theorem printed_reads_back_nested :
    let s : Sexpr := list [.atom "é", .list [], .list [.atom "b"]]
    Printable s ∧ s.render = "(é () (b))" ∧ readStrict s.render = .ok (list [s]) ∧
      read s.render = list [s] ∧ readStrict "a (b" = .error (.unclosedParens 1) ∧
      readStrict (read "a (b").render = .ok (list [read "a (b"]) ∧
      readStrict "a b" = .ok (list [.atom "a", .atom "b"]) ∧
      Printable (list [.atom "a", .atom "b"]) := by
  intro s
  have accented : Printable (.atom "é") := .atom ⟨by decide, List.all_eq_true.mp (by decide)⟩
  have letter : Printable (.atom "b") := .atom ⟨by decide, List.all_eq_true.mp (by decide)⟩
  have grouped : Printable (list [.atom "b"]) := .list (List.forall_mem_singleton.mpr letter)
  have empty : Printable (list []) := .list (List.forall_mem_nil Printable)
  have printable : Printable s := .list (by simp [accented, empty, grouped])
  have strict : readStrict "a b" = .ok (list [.atom "a", .atom "b"]) := rfl
  obtain ⟨both, -, -, again⟩ := printed_reads_back s "a (b"
  exact ⟨printable, rfl, (both printable).1, (both printable).2, rfl, again, strict,
    (printed_reads_back s "a b").2.2.1 _ strict⟩

end LambdaWorkbench.Sexpr
