import Mathlib.Data.List.Induction
import Mathlib.Data.List.Infix
import LambdaWorkbench.Proofs.Sexpr.Reading

/-! # Readers and the depth of parentheses

The three readers share one pass that keeps the open lists. Its depth is a flat count: the opening
parentheses so far less the closing ones. That count alone says how each reader ends, and where; the
trees read up to a place do not depend on what comes after it.
-/

namespace LambdaWorkbench

open Text

theorem StartsApart.append {front back : List Char} (h : StartsApart front)
    (h' : StartsApart back) : StartsApart (front ++ back) := by
  cases front with
  | nil => exact h'
  | cons c rest => exact startsApart_cons.mpr (startsApart_cons.mp h)

namespace Sexpr

/-- Every closing parenthesis of a text closes a list, when `depth` lists are open before it: no
initial part closes more than are open there. -/
def NoStray (depth : Nat) (cs : List Char) : Prop :=
  ∀ front, front <+: cs → front.count ')' ≤ depth + front.count '('

instance (depth : Nat) (cs : List Char) : Decidable (NoStray depth cs) :=
  decidable_of_iff (∀ front ∈ cs.inits, front.count ')' ≤ depth + front.count '(')
    (forall_congr' fun front => imp_congr_left (List.mem_inits front cs))

/-- `front` is what a text has before the first closing parenthesis that closes nothing. -/
structure FirstStray (cs front : List Char) : Prop where
  stray : front ++ [')'] <+: cs
  noStray : NoStray 0 front
  balanced : front.count ')' = front.count '('

variable {c : Char} {cs front run back : List Char} {depth : Nat}

/-! ## Counting -/

theorem count_eq_zero_of_atomChars (atomic : ∀ c ∈ run, isAtomChar c = true)
    (h : isAtomChar c = false) : run.count c = 0 := by
  refine List.count_eq_zero.mpr ?_
  intro mem
  rw [atomic c mem] at h
  cases h

theorem ne_parens_of_isBlank (h : isBlank c = true) : c ≠ '(' ∧ c ≠ ')' := by
  constructor
  · rintro rfl
    exact absurd h (by decide)
  · rintro rfl
    exact absurd h (by decide)

/-- What follows an initial part starts at the depth that this part leads to. -/
theorem NoStray.of_append {depth' : Nat} (front : List Char) (h : NoStray depth (front ++ back))
    (count : depth' + front.count ')' = depth + front.count '(') : NoStray depth' back := by
  intro part initial
  have whole := h (front ++ part) ((List.prefix_append_right_inj front).mpr initial)
  rw [List.count_append, List.count_append] at whole
  omega

theorem NoStray.pos_of_closing (h : NoStray depth (')' :: cs)) : 0 < depth := by
  have first := h [')'] (List.cons_prefix_cons.mpr ⟨rfl, List.nil_prefix⟩)
  rw [List.count_singleton_self, List.count_singleton, if_neg (by decide)] at first
  exact first

/-- A text has a first closing parenthesis that closes nothing, or none at all. -/
theorem noStray_or_firstStray (cs : List Char) :
    NoStray 0 cs ∨ ∃ front, FirstStray cs front := by
  induction cs using List.reverseRecOn with
  | nil =>
    left
    intro front initial
    rw [List.prefix_nil.mp initial]
    exact Nat.zero_le _
  | append_singleton cs c ih =>
    obtain noStray | ⟨front, first⟩ := ih
    · by_cases enough : (cs ++ [c]).count ')' ≤ (cs ++ [c]).count '('
      · left
        intro front initial
        obtain rfl | inside := List.prefix_concat_iff.mp initial
        · simpa using enough
        · exact noStray front inside
      · -- the last character tips the balance, so it closes what was balanced before it
        have before := noStray cs (List.prefix_refl cs)
        rw [List.count_append, List.count_append, List.count_singleton, List.count_singleton]
          at enough
        by_cases closes : c = ')'
        · subst closes
          simp only [beq_self_eq_true, if_true] at enough
          exact .inr ⟨cs, List.prefix_refl _, noStray, by grind⟩
        · grind
    · exact .inr ⟨front, first.stray.trans (List.prefix_append cs [c]), first.noStray,
        first.balanced⟩

/-! ## One pass -/

/-- Reading `cs` inside the open lists `items` and `outer` leads into `items'` and `outer'`, whatever
follows. The number of open lists changes by the count of parentheses. -/
structure Passes (cs : List Char) (items : List Sexpr) (outer : List (List Sexpr))
    (items' : List Sexpr) (outer' : List (List Sexpr)) : Prop where
  count : outer'.length + cs.count ')' = outer.length + cs.count '('
  read : ∀ offset back, StartsApart back →
    readTokens (Token.scanFrom offset (cs ++ back)) items outer =
      readTokens (Token.scanFrom (offset + byteLength cs) back) items' outer'

section Passes

variable {items items' parent : List Sexpr} {outer outer' : List (List Sexpr)}

theorem passes_nil : Passes [] items outer items outer where
  count := rfl
  read := by
    intro offset back apart
    rfl

theorem Passes.blank (h : Passes cs items outer items' outer') (blank : isBlank c = true) :
    Passes (c :: cs) items outer items' outer' where
  count := by
    obtain ⟨notOpening, notClosing⟩ := ne_parens_of_isBlank blank
    rw [List.count_cons_of_ne notOpening, List.count_cons_of_ne notClosing, h.count]
  read := by
    intro offset back apart
    rw [List.cons_append, Token.scanFrom_blank blank, h.read _ _ apart, byteLength_cons,
      Nat.add_assoc]

theorem Passes.opening (h : Passes cs [] (items :: outer) items' outer') :
    Passes ('(' :: cs) items outer items' outer' where
  count := by
    have count := h.count
    rw [List.length_cons] at count
    rw [List.count_cons_self, List.count_cons_of_ne (by decide)]
    omega
  read := by
    intro offset back apart
    rw [List.cons_append, Token.scanFrom_opening, readTokens, h.read _ _ apart, byteLength_cons,
      Nat.add_assoc]

theorem Passes.closing (h : Passes cs (list items.reverse :: parent) outer items' outer') :
    Passes (')' :: cs) items (parent :: outer) items' outer' where
  count := by
    have count := h.count
    rw [List.count_cons_self, List.count_cons_of_ne (by decide), List.length_cons]
    omega
  read := by
    intro offset back apart
    rw [List.cons_append, Token.scanFrom_closing, readTokens, h.read _ _ apart, byteLength_cons,
      Nat.add_assoc]

/-- An atom is one token, so its characters are passed at once. -/
theorem Passes.atom (h : Passes cs (atom (String.ofList run) :: items) outer items' outer')
    (nonempty : run ≠ []) (atomic : ∀ c ∈ run, isAtomChar c = true) (apart : StartsApart cs) :
    Passes (run ++ cs) items outer items' outer' where
  count := by
    rw [List.count_append, List.count_append, count_eq_zero_of_atomChars atomic (by decide),
      count_eq_zero_of_atomChars atomic (by decide), Nat.zero_add, Nat.zero_add, h.count]
  read := by
    intro offset back apart'
    rw [List.append_assoc, Token.scanFrom_append nonempty atomic (apart.append apart'),
      readTokens, h.read _ _ apart', byteLength_append, Nat.add_assoc]

end Passes

/-- A text without a stray parenthesis can be passed. -/
theorem exists_passes (items : List Sexpr) (outer : List (List Sexpr))
    (h : NoStray outer.length cs) : ∃ items' outer', Passes cs items outer items' outer' := by
  induction cs using Token.scan_induction generalizing items outer with
  | nil => exact ⟨items, outer, passes_nil⟩
  | blank c rest blank ih =>
    obtain ⟨notOpening, notClosing⟩ := ne_parens_of_isBlank blank
    have inRest : NoStray outer.length rest := h.of_append [c] (by
      rw [List.count_singleton, List.count_singleton, if_neg (by simpa using notClosing),
        if_neg (by simpa using notOpening)])
    obtain ⟨items', outer', passes⟩ := ih items outer inRest
    exact ⟨items', outer', passes.blank blank⟩
  | opening rest ih =>
    have inRest : NoStray (items :: outer).length rest := h.of_append ['('] rfl
    obtain ⟨items', outer', passes⟩ := ih [] (items :: outer) inRest
    exact ⟨items', outer', passes.opening⟩
  | closing rest ih =>
    cases outer with
    | nil => exact absurd h.pos_of_closing (Nat.lt_irrefl 0)
    | cons parent outer =>
      have inRest : NoStray outer.length rest := h.of_append [')'] rfl
      obtain ⟨items', outer', passes⟩ := ih (list items.reverse :: parent) outer inRest
      exact ⟨items', outer', passes.closing⟩
  | atom run rest nonempty inked apart ih =>
    have inRest : NoStray outer.length rest := h.of_append run (by
      rw [count_eq_zero_of_atomChars inked (by decide),
        count_eq_zero_of_atomChars inked (by decide)])
    obtain ⟨items', outer', passes⟩ := ih (atom (String.ofList run) :: items) outer inRest
    exact ⟨items', outer', passes.atom nonempty inked apart⟩

/-- As many closing parentheses as there are open lists close them all. -/
theorem readTokens_closing (offset : Nat) (items : List Sexpr) (outer : List (List Sexpr)) :
    readTokens (Token.scanFrom offset (List.replicate outer.length ')')) items outer =
      ⟨closeAll items outer, .balanced⟩ := by
  induction outer generalizing offset items with
  | nil => rfl
  | cons parent outer ih =>
    rw [List.length_cons, List.replicate_succ, Token.scanFrom_closing, readTokens, ih, closeAll]

theorem startsApart_replicate_closing (count : Nat) :
    StartsApart (List.replicate count ')') := by
  cases count with
  | zero => exact startsApart_nil
  | succ count => exact startsApart_cons.mpr (by decide)

/-- A reading ends at the first stray parenthesis with the items of the text before it. -/
theorem FirstStray.reading_eq {text : String} (h : FirstStray text.toList front) :
    ∃ items, reading text = ⟨items, .stray (byteLength front)⟩ ∧
      reading (String.ofList front) = ⟨items, .balanced⟩ := by
  obtain ⟨back, whole⟩ := h.stray
  obtain ⟨items, outer, count, read⟩ :=
    exists_passes [] [] (show NoStray [].length front from h.noStray)
  rw [h.balanced, Nat.add_right_cancel_iff] at count
  obtain rfl := List.length_eq_zero_iff.mp count
  refine ⟨items.reverse, ?_, ?_⟩
  · have apart : StartsApart (')' :: back) := startsApart_cons.mpr (by decide)
    rw [List.append_assoc, List.singleton_append] at whole
    rw [reading, Token.scan, ← whole, read 0 _ apart, Token.scanFrom_closing, readTokens,
      Nat.zero_add]
  · have alone := read 0 [] startsApart_nil
    rw [List.append_nil] at alone
    rw [reading, Token.scan, String.toList_ofList, alone]
    rfl

/-- Without a stray parenthesis a reading ends inside as many lists as the count says. -/
theorem NoStray.reading_eq {text : String} (h : NoStray 0 text.toList) :
    ∃ items depth, text.toList.count '(' = text.toList.count ')' + depth ∧
      reading text = ⟨items, if depth = 0 then .balanced else .unclosed depth⟩ ∧
      reading (text ++ String.ofList (List.replicate depth ')')) = ⟨items, .balanced⟩ := by
  obtain ⟨items, outer, count, read⟩ :=
    exists_passes [] [] (show NoStray [].length text.toList from h)
  refine ⟨closeAll items outer, outer.length, ?_, ?_, ?_⟩
  · rw [List.length_nil] at count
    omega
  · have alone := read 0 [] startsApart_nil
    rw [List.append_nil] at alone
    rw [reading, Token.scan, alone, Token.scanFrom, readTokens]
    cases outer <;> rfl
  · rw [reading, Token.scan, String.toList_append, String.toList_ofList,
      read 0 _ (startsApart_replicate_closing _), readTokens_closing]

/-- **The readers agree, and a count of parentheses says how.** If a closing parenthesis closes
nothing, the strict reader names the first such one, no list counts as unclosed, and the tolerant
reader takes the text before it. Otherwise the number of unclosed lists is that of the opening
parentheses less that of the closing ones; the strict reader reports it or, if it is zero, agrees
with the tolerant one, and adding as many closing parentheses makes it agree in any case. -/
theorem readers_agree (text : String) :
    (∀ front, FirstStray text.toList front →
      readStrict text = .error (.strayParen (byteLength front)) ∧ unclosedCount text = 0 ∧
      read text = read (String.ofList front)) ∧
    (NoStray 0 text.toList →
      ∃ depth, text.toList.count '(' = text.toList.count ')' + depth ∧
        unclosedCount text = depth ∧
        (0 < depth → readStrict text = .error (.unclosedParens depth)) ∧
        (depth = 0 → readStrict text = .ok (read text)) ∧
        readStrict (text ++ String.ofList (List.replicate depth ')')) = .ok (read text)) ∧
    (NoStray 0 text.toList ∨ ∃ front, FirstStray text.toList front) := by
  refine ⟨?_, ?_, noStray_or_firstStray text.toList⟩
  · intro front first
    obtain ⟨items, eq, eq'⟩ := first.reading_eq
    refine ⟨?_, ?_, ?_⟩
    · rw [readStrict, eq]
    · rw [unclosedCount, eq]
    · rw [read, read, eq, eq']
  · intro noStray
    obtain ⟨items, depth, count, eq, eq'⟩ := noStray.reading_eq
    refine ⟨depth, count, ?_, ?_, ?_, ?_⟩
    · rw [unclosedCount, eq]
      cases depth <;> rfl
    · intro positive
      rw [readStrict, eq, if_neg (Nat.ne_of_gt positive)]
    · intro zero
      rw [readStrict, eq, if_pos zero]
    · rw [readStrict, eq', read, read, eq, eq']

/-- The letter takes two bytes. In the first text the second closing parenthesis closes nothing; the
second text ends inside two lists. -/
theorem readers_agree_accented :
    FirstStray "(é) ) (b".toList "(é) ".toList ∧
      readStrict "(é) ) (b" = .error (.strayParen 5) ∧ unclosedCount "(é) ) (b" = 0 ∧
      read "(é) ) (b" = read "(é) " ∧
      NoStray 0 "(é (b".toList ∧ unclosedCount "(é (b" = 2 ∧
      readStrict "(é (b" = .error (.unclosedParens 2) ∧
      readStrict "(é (b))" = .ok (read "(é (b") := by
  have first : FirstStray "(é) ) (b".toList "(é) ".toList :=
    ⟨by decide, by decide, by decide⟩
  have noStray : NoStray 0 "(é (b".toList := by decide
  obtain ⟨strict, none, tolerant⟩ := (readers_agree "(é) ) (b").1 _ first
  obtain ⟨depth, count, unclosed, strict', -, closed⟩ := (readers_agree "(é (b").2.1 noStray
  obtain rfl : depth = 2 := Nat.add_left_cancel (count.symm.trans (by decide : _ = 0 + 2))
  exact ⟨first, strict, none, tolerant, noStray, unclosed, strict' (by decide), closed⟩

end Sexpr

end LambdaWorkbench
