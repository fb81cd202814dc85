import LambdaWorkbench.Proofs.Sexpr.Expansion
import LambdaWorkbench.Sexpr.Reader

/-! # Tokens and their trees

Scanning breaks a text where an atom ends, so the tokens of a text are those of its pieces, and
reading the tokens of a list of trees gives the trees back. Byte offsets play no part in it. The
other way round, every atom that is read comes from the text and is a readable name if the text is
plain.
-/

namespace LambdaWorkbench

open Text Shorthand

namespace Token

variable {c : Char} {cs rest run : List Char} {item : Nat × Token} {later : List (Nat × Token)}

/-! ## Kinds of characters -/

theorem char_cases (c : Char) : isBlank c = true ∨ c = '(' ∨ c = ')' ∨ isAtomChar c = true := by
  rw [isAtomChar_iff]
  cases isBlank c <;> grind

theorem scanFrom_blank (h : isBlank c = true) (offset : Nat) (rest : List Char) :
    scanFrom offset (c :: rest) = scanFrom (offset + c.utf8Size) rest := by
  rw [scanFrom, if_pos h]

theorem scanFrom_opening (offset : Nat) (rest : List Char) :
    scanFrom offset ('(' :: rest) = (offset, opening) :: scanFrom (offset + '('.utf8Size) rest :=
  rfl

theorem scanFrom_closing (offset : Nat) (rest : List Char) :
    scanFrom offset (')' :: rest) = (offset, closing) :: scanFrom (offset + ')'.utf8Size) rest :=
  rfl

theorem scanFrom_atomChar (h : isAtomChar c = true) (offset : Nat) (rest : List Char) :
    scanFrom offset (c :: rest) =
      attach offset c (offset + c.utf8Size) (scanFrom (offset + c.utf8Size) rest) := by
  obtain ⟨inked, notOpening, notClosing⟩ := isAtomChar_iff.mp h
  rw [scanFrom, if_neg (by simp [inked]), if_neg notOpening, if_neg notClosing]

/-! ## Offsets -/

theorem attach_shift (shift offset after : Nat) (c : Char) (later : List (Nat × Token)) :
    attach (offset + shift) c (after + shift) (later.map fun item => (item.1 + shift, item.2)) =
      (attach offset c after later).map fun item => (item.1 + shift, item.2) := by
  rcases later with - | ⟨⟨next, - | - | name⟩, later⟩
  · rfl
  · rfl
  · rfl
  · simp only [attach, List.map_cons, Nat.add_right_cancel_iff]
    split <;> rfl

theorem scanFrom_shift (shift offset : Nat) (cs : List Char) :
    scanFrom (offset + shift) cs =
      (scanFrom offset cs).map fun item => (item.1 + shift, item.2) := by
  induction cs generalizing offset with
  | nil => rfl
  | cons c rest ih =>
    have later := ih (offset + c.utf8Size)
    rw [Nat.add_right_comm] at later
    rcases char_cases c with blank | rfl | rfl | atomic
    · rw [scanFrom_blank blank, scanFrom_blank blank, later]
    · rw [scanFrom_opening, scanFrom_opening, later, List.map_cons]
    · rw [scanFrom_closing, scanFrom_closing, later, List.map_cons]
    · rw [scanFrom_atomChar atomic, scanFrom_atomChar atomic, later, Nat.add_right_comm,
        attach_shift]

/-- The tokens of a run of characters, wherever it stands. -/
def ofChars (cs : List Char) : List Token :=
  (scanFrom 0 cs).map Prod.snd

theorem map_snd_scanFrom (offset : Nat) (cs : List Char) :
    (scanFrom offset cs).map Prod.snd = ofChars cs := by
  rw [← Nat.zero_add offset, scanFrom_shift, List.map_map]
  rfl

/-- One atom comes in front, and at most the first token goes into it. -/
theorem attach_cases (offset after : Nat) (c : Char) (later : List (Nat × Token)) :
    ∃ name tail, attach offset c after later = (offset, atom name) :: tail ∧ tail ⊆ later := by
  unfold attach
  split
  · exact ⟨_, _, rfl, List.Subset.refl _⟩
  · split
    · split
      · exact ⟨_, _, rfl, List.subset_cons_self _ _⟩
      · exact ⟨_, _, rfl, List.Subset.refl _⟩
    · exact ⟨_, _, rfl, List.Subset.refl _⟩

theorem le_of_mem_scanFrom {offset : Nat} (mem : item ∈ scanFrom offset cs) : offset ≤ item.1 := by
  induction cs generalizing offset with
  | nil => cases mem
  | cons c rest ih =>
    have inRest : item ∈ scanFrom (offset + c.utf8Size) rest → offset ≤ item.1 := fun later =>
      Nat.le_trans (Nat.le_add_right _ _) (ih later)
    rcases char_cases c with blank | rfl | rfl | atomic
    · exact inRest (scanFrom_blank blank offset rest ▸ mem)
    · rcases List.mem_cons.mp mem with rfl | later
      · exact Nat.le_refl _
      · exact inRest later
    · rcases List.mem_cons.mp mem with rfl | later
      · exact Nat.le_refl _
      · exact inRest later
    · obtain ⟨name, tail, eq, sub⟩ := attach_cases offset (offset + c.utf8Size) c
        (scanFrom (offset + c.utf8Size) rest)
      rw [scanFrom_atomChar atomic, eq] at mem
      rcases List.mem_cons.mp mem with rfl | inTail
      · exact Nat.le_refl _
      · exact inRest (sub inTail)

/-! ## Tokens of pieces -/

/-- An atom does not start where a text starts apart. -/
theorem ne_of_mem_scanFrom_of_startsApart {offset : Nat} {name : String}
    (apart : StartsApart rest) : (offset, atom name) ∉ scanFrom offset rest := by
  intro mem
  cases rest with
  | nil => cases mem
  | cons c rest =>
    have beyond : ∀ token, (offset, token) ∉ scanFrom (offset + c.utf8Size) rest := by
      intro token later
      have := le_of_mem_scanFrom later
      have := c.utf8Size_pos
      omega
    rcases char_cases c with blank | rfl | rfl | atomic
    · exact beyond _ (scanFrom_blank blank offset rest ▸ mem)
    · rcases List.mem_cons.mp mem with same | later
      · cases same
      · exact beyond _ later
    · rcases List.mem_cons.mp mem with same | later
      · cases same
      · exact beyond _ later
    · rw [startsApart_cons.mp apart] at atomic
      cases atomic

theorem attach_of_not_mem {offset after : Nat} (h : ∀ name, (after, atom name) ∉ later) :
    attach offset c after later = (offset, atom (String.singleton c)) :: later := by
  unfold attach
  split
  · rfl
  · split
    · rename_i next token rest name
      refine if_neg ?_
      rintro rfl
      exact h name List.mem_cons_self
    · rfl

/-- A run of atom characters is one atom when the text after it starts apart. -/
theorem scanFrom_append (nonempty : run ≠ []) (atomic : ∀ c ∈ run, isAtomChar c = true)
    (apart : StartsApart rest) (offset : Nat) :
    scanFrom offset (run ++ rest) =
      (offset, atom (String.ofList run)) :: scanFrom (offset + byteLength run) rest := by
  induction run generalizing offset with
  | nil => exact absurd rfl nonempty
  | cons c run ih =>
    have isAtom := atomic c List.mem_cons_self
    rw [List.cons_append, scanFrom_atomChar isAtom, byteLength_cons, ← Nat.add_assoc]
    cases run with
    | nil =>
      exact attach_of_not_mem fun _ => ne_of_mem_scanFrom_of_startsApart apart
    | cons d run =>
      have atomic' := fun e mem => atomic e (List.mem_cons_of_mem _ mem)
      rw [ih (List.cons_ne_nil _ _) atomic', attach, if_pos rfl]
      refine congrArg (fun name => (offset, atom name) :: _) (String.toList_inj.mp ?_)
      simp

@[simp] theorem ofChars_nil : ofChars [] = [] := rfl

theorem ofChars_blank (h : isBlank c = true) (rest : List Char) :
    ofChars (c :: rest) = ofChars rest := by
  rw [ofChars, scanFrom_blank h, map_snd_scanFrom]

@[simp] theorem ofChars_space (rest : List Char) : ofChars (' ' :: rest) = ofChars rest :=
  ofChars_blank (by decide) rest

@[simp] theorem ofChars_opening (rest : List Char) :
    ofChars ('(' :: rest) = opening :: ofChars rest := by
  rw [ofChars, scanFrom_opening, List.map_cons, map_snd_scanFrom]

@[simp] theorem ofChars_closing (rest : List Char) :
    ofChars (')' :: rest) = closing :: ofChars rest := by
  rw [ofChars, scanFrom_closing, List.map_cons, map_snd_scanFrom]

theorem ofChars_append (nonempty : run ≠ []) (atomic : ∀ c ∈ run, isAtomChar c = true)
    (apart : StartsApart rest) :
    ofChars (run ++ rest) = atom (String.ofList run) :: ofChars rest := by
  rw [ofChars, scanFrom_append nonempty atomic apart, List.map_cons, map_snd_scanFrom]

/-- The longest run of atom characters that a text starts with. -/
theorem exists_run (h : isAtomChar c = true) (rest : List Char) :
    ∃ run back, c :: rest = run ++ back ∧ run ≠ [] ∧ (∀ d ∈ run, isAtomChar d = true) ∧
      StartsApart back := by
  refine ⟨(c :: rest).takeWhile isAtomChar, (c :: rest).dropWhile isAtomChar,
    List.takeWhile_append_dropWhile.symm, ?_, ?_, startsApart_dropWhile _⟩
  · simp [h]
  · exact fun d => List.all_eq_true.mp List.all_takeWhile d

/-- Induction along the tokens of a text: a step goes over one blank character, one parenthesis or
one longest run of atom characters. -/
@[elab_as_elim]
theorem scan_induction {motive : List Char → Prop} (nil : motive [])
    (blank : ∀ c rest, isBlank c = true → motive rest → motive (c :: rest))
    (opening : ∀ rest, motive rest → motive ('(' :: rest))
    (closing : ∀ rest, motive rest → motive (')' :: rest))
    (atom : ∀ run rest, run ≠ [] → (∀ d ∈ run, isAtomChar d = true) → StartsApart rest →
      motive rest → motive (run ++ rest)) (cs : List Char) : motive cs := by
  induction length : cs.length using Nat.strongRecOn generalizing cs with
  | ind n ih =>
    subst length
    cases cs with
    | nil => exact nil
    | cons c rest =>
      have shorter : rest.length < (c :: rest).length := Nat.lt_succ_self _
      rcases char_cases c with isBlank | rfl | rfl | atomic
      · exact blank c rest isBlank (ih _ shorter rest rfl)
      · exact opening rest (ih _ shorter rest rfl)
      · exact closing rest (ih _ shorter rest rfl)
      · obtain ⟨run, back, whole, nonempty, inked, apart⟩ := exists_run atomic rest
        rw [whole] at ih ⊢
        have shorter' : back.length < (run ++ back).length := by
          have := List.length_pos_iff.mpr nonempty
          rw [List.length_append]
          omega
        exact atom run back nonempty inked apart (ih _ shorter' back rfl)

/-- The atoms of a plain text are readable names. -/
theorem readable_of_mem_ofChars {name : String} (plain : Plain cs)
    (mem : atom name ∈ ofChars cs) : Readable name := by
  induction cs using scan_induction with
  | nil => cases mem
  | blank c rest blank ih => exact ih plain.2 (ofChars_blank blank rest ▸ mem)
  | opening rest ih =>
    rw [ofChars_opening, List.mem_cons] at mem
    exact ih plain.2 (mem.resolve_left Token.noConfusion)
  | closing rest ih =>
    rw [ofChars_closing, List.mem_cons] at mem
    exact ih plain.2 (mem.resolve_left Token.noConfusion)
  | atom run rest nonempty inked apart ih =>
    rw [ofChars_append nonempty inked apart, List.mem_cons] at mem
    rcases mem with here | later
    · obtain rfl := Token.atom.inj here
      exact ⟨by simpa using nonempty, by simpa using inked,
        expand_eq_self_iff.mpr (by simpa using plain.of_append_left)⟩
    · exact ih plain.of_append_right later

/-- All atoms among the tokens satisfy `p`. -/
def AllAtoms (p : String → Prop) (tokens : List Token) : Prop :=
  ∀ name, atom name ∈ tokens → p name

section AllAtoms

variable {p : String → Prop} {tokens more : List Token} {name : String}

@[simp] theorem allAtoms_nil : AllAtoms p [] := nofun

@[simp] theorem allAtoms_opening : AllAtoms p (opening :: tokens) ↔ AllAtoms p tokens := by
  simp [AllAtoms]

@[simp] theorem allAtoms_closing : AllAtoms p (closing :: tokens) ↔ AllAtoms p tokens := by
  simp [AllAtoms]

@[simp] theorem allAtoms_atom :
    AllAtoms p (atom name :: tokens) ↔ p name ∧ AllAtoms p tokens := by
  simp [AllAtoms, or_imp, forall_and]

@[simp] theorem allAtoms_append :
    AllAtoms p (tokens ++ more) ↔ AllAtoms p tokens ∧ AllAtoms p more := by
  simp [AllAtoms, or_imp, forall_and]

end AllAtoms

end Token

namespace Sexpr

/-! ## Trees -/

mutual

/-- The tokens that an S-expression is written with. -/
def tokens : Sexpr → List Token
  | atom name => [.atom name]
  | list items => .opening :: itemTokens items ++ [.closing]

/-- The tokens that the items of a list are written with. -/
def itemTokens : List Sexpr → List Token
  | [] => []
  | item :: rest => item.tokens ++ itemTokens rest

end

@[simp] theorem tokens_atom (name : String) : (atom name).tokens = [.atom name] := by
  rw [tokens]

@[simp] theorem tokens_list (items : List Sexpr) :
    (list items).tokens = .opening :: itemTokens items ++ [.closing] := by
  rw [tokens]

@[simp] theorem itemTokens_nil : itemTokens [] = [] := by
  rw [itemTokens]

@[simp] theorem itemTokens_cons (item : Sexpr) (rest : List Sexpr) :
    itemTokens (item :: rest) = item.tokens ++ itemTokens rest := by
  rw [itemTokens]

@[simp] theorem itemTokens_append (front back : List Sexpr) :
    itemTokens (front ++ back) = itemTokens front ++ itemTokens back := by
  induction front with
  | nil => simp
  | cons item rest ih => simp [ih]

mutual

/-- Reading the tokens of a tree adds the tree to the innermost list. -/
theorem readTokens_tokens (s : Sexpr) {scanned : List (Nat × Token)} {rest : List Token}
    (h : scanned.map Prod.snd = s.tokens ++ rest) :
    ∃ later, later.map Prod.snd = rest ∧ ∀ items outer,
      readTokens scanned items outer = readTokens later (s :: items) outer := by
  cases s with
  | atom name =>
    rw [tokens_atom, List.singleton_append] at h
    obtain ⟨⟨offset, token⟩, later, rfl, rfl, same⟩ := List.map_eq_cons_iff.mp h
    exact ⟨later, same, fun _ _ => rfl⟩
  | list inner =>
    rw [tokens_list, List.cons_append, List.cons_append, List.append_assoc] at h
    obtain ⟨⟨offset, token⟩, inside, rfl, rfl, same⟩ := List.map_eq_cons_iff.mp h
    obtain ⟨ending, closes, read⟩ := readTokens_itemTokens inner same
    obtain ⟨⟨offset', token'⟩, later, rfl, rfl, same'⟩ := List.map_eq_cons_iff.mp closes
    refine ⟨later, same', fun items outer => ?_⟩
    rw [readTokens, read, readTokens, List.append_nil, List.reverse_reverse]

/-- Reading the tokens of trees adds them, in their order, to the innermost list. -/
theorem readTokens_itemTokens (trees : List Sexpr) {scanned : List (Nat × Token)}
    {rest : List Token} (h : scanned.map Prod.snd = itemTokens trees ++ rest) :
    ∃ later, later.map Prod.snd = rest ∧ ∀ items outer,
      readTokens scanned items outer = readTokens later (trees.reverse ++ items) outer := by
  cases trees with
  | nil =>
    rw [itemTokens_nil, List.nil_append] at h
    exact ⟨scanned, h, fun _ _ => rfl⟩
  | cons first others =>
    rw [itemTokens_cons, List.append_assoc] at h
    obtain ⟨middle, same, readFirst⟩ := readTokens_tokens first h
    obtain ⟨later, same', readOthers⟩ := readTokens_itemTokens others same
    refine ⟨later, same', fun items outer => ?_⟩
    rw [readFirst, readOthers, List.reverse_cons, List.append_assoc, List.singleton_append]

end

/-- A text with the tokens of some trees reads as these trees. -/
theorem reading_eq {text : String} {items : List Sexpr}
    (h : Token.ofChars text.toList = itemTokens items) : reading text = ⟨items, .balanced⟩ := by
  rw [← List.append_nil (itemTokens items)] at h
  obtain ⟨later, done, read⟩ := readTokens_itemTokens items h
  rw [reading, Token.scan, read, List.map_eq_nil_iff.mp done, readTokens, closeAll,
    List.append_nil, List.reverse_reverse]
  rfl

/-! ## Where atoms come from -/

variable {p : String → Prop}

theorem allAtoms_reverse {items : List Sexpr} :
    Token.AllAtoms p (itemTokens items.reverse) ↔ Token.AllAtoms p (itemTokens items) := by
  induction items with
  | nil => simp
  | cons item rest ih => simp [ih, and_comm]

theorem allAtoms_closeAll {items : List Sexpr} {outer : List (List Sexpr)}
    (hi : Token.AllAtoms p (itemTokens items))
    (ho : ∀ level ∈ outer, Token.AllAtoms p (itemTokens level)) :
    Token.AllAtoms p (itemTokens (closeAll items outer)) := by
  induction outer generalizing items with
  | nil => exact allAtoms_reverse.mpr hi
  | cons parent outer ih =>
    rw [List.forall_mem_cons] at ho
    exact ih (by simp [allAtoms_reverse, hi, ho.1]) ho.2

/-- Every atom that is read is one of the tokens, or was there before. -/
theorem allAtoms_readTokens {scanned : List (Nat × Token)} {items : List Sexpr}
    {outer : List (List Sexpr)} (hs : Token.AllAtoms p (scanned.map Prod.snd))
    (hi : Token.AllAtoms p (itemTokens items))
    (ho : ∀ level ∈ outer, Token.AllAtoms p (itemTokens level)) :
    Token.AllAtoms p (itemTokens (readTokens scanned items outer).items) := by
  fun_induction readTokens scanned items outer with
  | case1 items outer => exact allAtoms_closeAll hi ho
  | case2 offset name rest items outer ih =>
    simp only [List.map_cons, Token.allAtoms_atom] at hs
    exact ih hs.2 (by simp [hs.1, hi]) ho
  | case3 offset rest items outer ih =>
    simp only [List.map_cons, Token.allAtoms_opening] at hs
    exact ih hs (by simp) (List.forall_mem_cons.mpr ⟨hi, ho⟩)
  | case4 offset rest items => exact allAtoms_reverse.mpr hi
  | case5 offset rest items parent outer ih =>
    simp only [List.map_cons, Token.allAtoms_closing] at hs
    rw [List.forall_mem_cons] at ho
    exact ih hs (by simp [allAtoms_reverse, hi, ho.1]) ho.2

/-- A plain text reads as trees of readable names. -/
theorem allAtoms_reading {text : String} (plain : Plain text.toList) :
    Token.AllAtoms Readable (itemTokens (reading text).items) :=
  allAtoms_readTokens (fun _ mem => Token.readable_of_mem_ofChars plain mem) (by simp) nofun

end Sexpr

end LambdaWorkbench
