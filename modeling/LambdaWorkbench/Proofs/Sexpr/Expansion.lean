import LambdaWorkbench.Sexpr.Shorthand

/-! # Text that expansion leaves alone

A plain text holds no shorthand: no marker in it is followed by a name and a dot. Expansion is the
identity on plain text, what it writes is always plain, and it goes through a text piece by piece as
long as the next piece starts apart from the last one.
-/

namespace LambdaWorkbench

/-- A text that does not start with a character of an atom, so that an atom before it ends there. -/
def StartsApart (cs : List Char) : Prop :=
  ∀ c ∈ cs.head?, isAtomChar c = false

theorem startsApart_nil : StartsApart [] :=
  nofun

theorem startsApart_cons {c : Char} {rest : List Char} :
    StartsApart (c :: rest) ↔ isAtomChar c = false := by
  simp [StartsApart]

theorem startsApart_dropWhile (cs : List Char) : StartsApart (cs.dropWhile isAtomChar) := by
  intro c first
  have stop := List.head?_dropWhile_not isAtomChar cs
  rw [Option.mem_def.mp first] at stop
  exact stop

namespace Shorthand

variable {c : Char} {cs rest front back name after : List Char} {touching : Bool}

theorem isAtomChar_of_isNameChar (h : isNameChar c = true) : isAtomChar c = true := by
  simp only [isNameChar, Bool.and_eq_true] at h
  exact h.1.1

theorem isMarker_of_isNameChar (h : isNameChar c = true) : isMarker c = false := by
  simp only [isNameChar, Bool.and_eq_true, Bool.not_eq_true'] at h
  exact h.2

theorem any_isMarker_of_isNameChar (h : ∀ c ∈ name, isNameChar c = true) :
    name.any isMarker = false :=
  List.any_eq_false.mpr fun c mem => by simp [isMarker_of_isNameChar (h c mem)]

theorem isAtomChar_of_isMarker (h : isMarker c = true) : isAtomChar c = true := by
  simp only [isMarker, Bool.or_eq_true, beq_iff_eq] at h
  rcases h with rfl | rfl <;> decide

theorem isMarker_of_not_atom (h : isAtomChar c = false) : isMarker c = false := by
  refine Bool.eq_false_iff.mpr fun marker => ?_
  rw [isAtomChar_of_isMarker marker] at h
  cases h

theorem isNameChar_of_isDigit (h : c.isDigit = true) : isNameChar c = true := by
  have digits : ∀ code ∈ List.range' 48 10, isNameChar (Char.ofNat code) = true := by decide
  rw [Char.isDigit, Bool.and_eq_true, decide_eq_true_eq, decide_eq_true_eq] at h
  have code : c.toNat ∈ List.range' 48 10 := by
    rw [List.mem_range'_1]
    exact ⟨h.1, Nat.lt_succ_of_le h.2⟩
  exact Char.ofNat_toNat c ▸ digits c.toNat code

/-! ## Binders -/

theorem binder?_eq_some_iff :
    binder? cs = some (name, after) ↔
      name ≠ [] ∧ (∀ c ∈ name, isNameChar c = true) ∧ cs = name ++ '.' :: after := by
  constructor
  · intro h
    have whole := List.takeWhile_append_dropWhile (p := isNameChar) (l := cs)
    unfold binder? at h
    split at h
    · rename_i first front later run dot
      cases h
      rw [run, dot] at whole
      refine ⟨List.cons_ne_nil _ _, fun c mem => ?_, whole.symm⟩
      exact List.all_eq_true.mp (run ▸ List.all_takeWhile) c mem
    · cases h
  · rintro ⟨nonempty, named, rfl⟩
    obtain ⟨first, front, rfl⟩ := List.exists_cons_of_ne_nil nonempty
    have stop : isNameChar '.' = false := by decide
    rw [binder?, List.takeWhile_append_of_pos named, List.dropWhile_append_of_pos named,
      List.takeWhile_cons_of_neg (by simp [stop]), List.dropWhile_cons_of_neg (by simp [stop]),
      List.append_nil]
    rfl

theorem binder?_append_of_some (h : binder? front = some (name, after)) (back : List Char) :
    binder? (front ++ back) = some (name, after ++ back) := by
  obtain ⟨nonempty, named, rfl⟩ := binder?_eq_some_iff.mp h
  exact binder?_eq_some_iff.mpr ⟨nonempty, named, by simp⟩

/-- A text that cannot bring a name to its dot: what stands before its first dot is no name. -/
def Dotless (cs : List Char) : Prop :=
  ∀ name after, (∀ c ∈ name, isNameChar c = true) → cs ≠ name ++ '.' :: after

theorem dotless_of_startsApart (h : StartsApart cs) : Dotless cs := by
  rintro name after named rfl
  cases name with
  | nil => cases startsApart_cons.mp h
  | cons c name =>
    have atom := isAtomChar_of_isNameChar (named c List.mem_cons_self)
    rw [startsApart_cons.mp h] at atom
    cases atom

theorem binder?_append_of_none (none : binder? front = none) (dotless : Dotless back) :
    binder? (front ++ back) = Option.none := by
  refine Option.eq_none_iff_forall_ne_some.mpr fun ⟨name, after⟩ found => ?_
  obtain ⟨nonempty, named, whole⟩ := binder?_eq_some_iff.mp found
  obtain ⟨rest, rfl, eq⟩ | ⟨rest, rfl, eq⟩ := List.append_eq_append_iff.mp whole
  · exact dotless rest after (fun c mem => named c (List.mem_append_right _ mem)) eq
  · cases rest with
    | nil => exact dotless [] after nofun eq.symm
    | cons dot rest =>
      obtain ⟨rfl, -⟩ := List.cons.inj eq
      rw [binder?_eq_some_iff.mpr ⟨nonempty, named, rfl⟩] at none
      cases none

/-! ## The steps of expansion -/

theorem expandChars_of_not_marker (plain : isMarker c = false) (touching : Bool)
    (rest : List Char) :
    expandChars touching (c :: rest) = c :: expandChars (isAtomChar c) rest := by
  rw [expandChars, if_neg (by simp [plain])]

theorem expandChars_of_none (marker : isMarker c = true) (none : binder? rest = none)
    (touching : Bool) : expandChars touching (c :: rest) = c :: expandChars true rest := by
  rw [expandChars, if_pos marker]
  split
  · rename_i found
    rw [none] at found
    cases found
  · rfl

theorem expandChars_of_some (marker : isMarker c = true)
    (found : binder? rest = some (name, after)) (touching : Bool) :
    expandChars touching (c :: rest) =
      (if touching then [' '] else []) ++ "lambda (".toList ++ name ++ ") ".toList
        ++ expandChars false after := by
  rw [expandChars, if_pos marker]
  split
  · rename_i found'
    rw [found] at found'
    cases found'
    rfl
  · rename_i none
    rw [found] at none
    cases none

theorem expandChars_touching (apart : StartsApart cs) :
    expandChars touching cs = expandChars false cs := by
  cases cs with
  | nil => simp only [expandChars]
  | cons c rest =>
    have plain := isMarker_of_not_atom (startsApart_cons.mp apart)
    rw [expandChars_of_not_marker plain, expandChars_of_not_marker plain]

theorem expandChars_separator (h : isAtomChar c = false) (rest : List Char) :
    expandChars false (c :: rest) = c :: expandChars false rest := by
  rw [expandChars_of_not_marker (isMarker_of_not_atom h), h]

theorem startsApart_expandChars (h : StartsApart cs) : StartsApart (expandChars false cs) := by
  cases cs with
  | nil => simpa only [expandChars] using h
  | cons c rest =>
    have apart := startsApart_cons.mp h
    rw [expandChars_separator apart]
    exact startsApart_cons.mpr apart

/-- A text is expanded in two parts when the second starts apart from the first. -/
theorem expandChars_append (apart : StartsApart back) (touching : Bool) (front : List Char) :
    expandChars touching (front ++ back) =
      expandChars touching front ++ expandChars false back := by
  fun_induction expandChars touching front with
  | case1 => exact expandChars_touching apart
  | case2 touching c rest marker name after found =>
    rename_i ih
    rw [List.cons_append, expandChars_of_some marker (binder?_append_of_some found back), ih]
    simp only [List.append_assoc]
  | case3 touching c rest marker none ih =>
    have none' := binder?_append_of_none none (dotless_of_startsApart apart)
    rw [List.cons_append, expandChars_of_none marker none', ih, List.cons_append]
  | case4 touching c rest plain ih =>
    rw [List.cons_append, expandChars_of_not_marker (Bool.eq_false_iff.mpr plain), ih,
      List.cons_append]

/-! ## Plain text -/

/-- No shorthand starts anywhere in the text. -/
def Plain : List Char → Prop
  | [] => True
  | c :: rest => (isMarker c = true → binder? rest = none) ∧ Plain rest

theorem Plain.append (hf : Plain front) (hb : Plain back) (dotless : Dotless back) :
    Plain (front ++ back) := by
  induction front with
  | nil => exact hb
  | cons c rest ih =>
    exact ⟨fun marker => binder?_append_of_none (hf.1 marker) dotless, ih hf.2⟩

theorem Plain.of_append_left (h : Plain (front ++ back)) : Plain front := by
  induction front with
  | nil => trivial
  | cons c rest ih =>
    refine ⟨fun marker => Option.eq_none_iff_forall_ne_some.mpr fun ⟨name, after⟩ found => ?_,
      ih h.2⟩
    have whole : binder? (rest ++ back) = none := h.1 marker
    rw [binder?_append_of_some found] at whole
    cases whole

theorem Plain.of_append_right (h : Plain (front ++ back)) : Plain back := by
  induction front with
  | nil => exact h
  | cons c rest ih => exact ih h.2

/-- Text without markers may stand before a plain text. -/
theorem Plain.append_of_not_marker (hb : Plain back) (h : front.any isMarker = false) :
    Plain (front ++ back) := by
  induction front with
  | nil => exact hb
  | cons c rest ih =>
    rw [List.any_cons, Bool.or_eq_false_iff] at h
    refine ⟨fun marker => ?_, ih h.2⟩
    rw [h.1] at marker
    cases marker

theorem plain_of_not_marker (h : cs.any isMarker = false) : Plain cs := by
  have nothing : Plain [] := trivial
  have whole := nothing.append_of_not_marker h
  rwa [List.append_nil] at whole

theorem expandChars_eq_self_iff (touching : Bool) {cs : List Char} :
    expandChars touching cs = cs ↔ Plain cs := by
  induction cs generalizing touching with
  | nil => simp [expandChars, Plain]
  | cons c rest ih =>
    cases marker : isMarker c with
    | false =>
      rw [expandChars_of_not_marker marker, List.cons_inj_right, ih]
      simp [Plain, marker]
    | true =>
      cases found : binder? rest with
      | none =>
        rw [expandChars_of_none marker found, List.cons_inj_right, ih]
        simp [Plain, found]
      | some binder =>
        refine iff_of_false (fun eq => ?_) fun h => ?_
        · rw [expandChars_of_some marker found] at eq
          cases touching <;> obtain ⟨rfl, -⟩ := List.cons.inj eq <;> cases marker
        · rw [h.1 marker] at found
          cases found

/-- Expansion goes over a plain text that ends before what follows starts. -/
theorem expandChars_append_of_plain (plain : Plain front) (apart : StartsApart back)
    (touching : Bool) : expandChars touching (front ++ back) = front ++ expandChars false back := by
  rw [expandChars_append apart, (expandChars_eq_self_iff touching).mpr plain]

/-! ## The result of an expansion -/

/-- Expansion after an atom starts with a character that an atom goes on with only where the text
already does. -/
theorem eq_cons_of_expandChars (h : expandChars true cs = c :: back) (atom : isAtomChar c = true)
    (plain : isMarker c = false) : ∃ rest, cs = c :: rest ∧ expandChars true rest = back := by
  cases cs with
  | nil => simp [expandChars] at h
  | cons d rest =>
    cases marker : isMarker d with
    | false =>
      rw [expandChars_of_not_marker marker] at h
      obtain ⟨rfl, rfl⟩ := List.cons.inj h
      exact ⟨rest, rfl, by rw [atom]⟩
    | true =>
      cases found : binder? rest with
      | none =>
        rw [expandChars_of_none marker found] at h
        obtain ⟨rfl, -⟩ := List.cons.inj h
        rw [marker] at plain
        cases plain
      | some binder =>
        rw [expandChars_of_some marker found] at h
        obtain ⟨rfl, -⟩ := List.cons.inj h
        cases atom

/-- Expansion brings no name to a dot. -/
theorem binder?_expandChars (none : binder? cs = none) :
    binder? (expandChars true cs) = Option.none := by
  refine Option.eq_none_iff_forall_ne_some.mpr fun ⟨name, after⟩ found => ?_
  obtain ⟨nonempty, named, whole⟩ := binder?_eq_some_iff.mp found
  have same : ∃ after', cs = name ++ '.' :: after' := by
    clear none found nonempty
    induction name generalizing cs with
    | nil =>
      obtain ⟨rest, rfl, -⟩ := eq_cons_of_expandChars whole (by decide) (by decide)
      exact ⟨rest, rfl⟩
    | cons c name ih =>
      have isName := named c List.mem_cons_self
      obtain ⟨rest, rfl, whole'⟩ := eq_cons_of_expandChars whole
        (isAtomChar_of_isNameChar isName) (isMarker_of_isNameChar isName)
      obtain ⟨after', rfl⟩ := ih (fun d mem => named d (List.mem_cons_of_mem _ mem)) whole'
      exact ⟨after', rfl⟩
  obtain ⟨after', rfl⟩ := same
  rw [binder?_eq_some_iff.mpr ⟨nonempty, named, rfl⟩] at none
  cases none

/-- What expansion writes holds no shorthand any more. -/
theorem plain_expandChars (touching : Bool) (cs : List Char) : Plain (expandChars touching cs) := by
  fun_induction expandChars touching cs with
  | case1 => trivial
  | case2 touching c rest marker name after found =>
    rename_i ih
    obtain ⟨-, named, -⟩ := binder?_eq_some_iff.mp found
    refine ih.append_of_not_marker ?_
    rw [List.any_append, List.any_append, List.any_append, any_isMarker_of_isNameChar named]
    cases touching <;> decide
  | case3 touching c rest marker none ih => exact ⟨fun _ => binder?_expandChars none, ih⟩
  | case4 touching c rest plain ih => exact ⟨fun marker => absurd marker plain, ih⟩

theorem plain_expand (text : String) : Plain (expand text).toList := by
  rw [expand, String.toList_ofList]
  exact plain_expandChars false text.toList

theorem expand_eq_self_iff {text : String} : expand text = text ↔ Plain text.toList := by
  rw [← expandChars_eq_self_iff false, expand, ← String.toList_inj,
    String.toList_ofList]

/-! ## Names -/

/-- A name that is an atom and stays one when it is expanded. -/
structure Readable (name : String) : Prop where
  nonempty : name.toList ≠ []
  atomic : ∀ c ∈ name.toList, isAtomChar c = true
  unexpanded : expand name = name

theorem Readable.plain {name : String} (h : Readable name) : Plain name.toList :=
  expand_eq_self_iff.mp h.unexpanded

/-- A primed name is as readable as the name. -/
theorem Readable.prime {name : String} (h : Readable name) : Readable (name ++ "'") where
  nonempty := by simp
  atomic := by
    intro c mem
    rw [String.toList_append] at mem
    rcases List.mem_append.mp mem with inName | isPrime
    · exact h.atomic c inName
    · obtain rfl := List.mem_singleton.mp isPrime
      decide
  unexpanded := by
    have dotless : Dotless ['\''] := by
      intro front after _ eq
      have dot : '.' ∈ ['\''] := eq ▸ List.mem_append_right front List.mem_cons_self
      revert dot
      decide
    rw [expand_eq_self_iff, String.toList_append]
    exact h.plain.append ⟨nofun, trivial⟩ dotless

theorem isNameChar_of_canBind {name : String} (h : canBind name = true) :
    ∀ c ∈ name.toList, isNameChar c = true := by
  rw [canBind, Bool.and_eq_true] at h
  exact List.all_eq_true.mp h.2

theorem Readable.of_canBind {name : String} (h : canBind name = true) : Readable name where
  nonempty := by
    rw [canBind, Bool.and_eq_true] at h
    simpa [String.isEmpty_iff] using h.1
  atomic := fun c mem => isAtomChar_of_isNameChar (isNameChar_of_canBind h c mem)
  unexpanded := expand_eq_self_iff.mpr <|
    plain_of_not_marker (any_isMarker_of_isNameChar (isNameChar_of_canBind h))

/-- The shorthand of a name it can bind is expanded like the lambda written out. -/
theorem expandChars_binder {name : String} (h : canBind name = true) (rest : List Char) :
    expandChars false ('λ' :: (name.toList ++ '.' :: rest)) =
      expandChars false ("lambda (".toList ++ name.toList ++ ") ".toList ++ rest) := by
  have named := isNameChar_of_canBind h
  have found : binder? (name.toList ++ '.' :: rest) = some (name.toList, rest) :=
    binder?_eq_some_iff.mpr ⟨(Readable.of_canBind h).nonempty, named, rfl⟩
  have plain : Plain ("lambda (".toList ++ name.toList ++ [')']) := by
    refine plain_of_not_marker ?_
    rw [List.any_append, List.any_append, any_isMarker_of_isNameChar named]
    decide
  have space : isAtomChar ' ' = false := by decide
  calc
    _ = "lambda (".toList ++ name.toList ++ ") ".toList ++ expandChars false rest :=
      expandChars_of_some (by decide) found false
    _ = "lambda (".toList ++ name.toList ++ [')'] ++ expandChars false (' ' :: rest) := by
      rw [expandChars_separator space]
      simp
    _ = expandChars false ("lambda (".toList ++ name.toList ++ [')'] ++ ' ' :: rest) :=
      (expandChars_append_of_plain plain (startsApart_cons.mpr space) false).symm
    _ = _ := by simp

end Shorthand

end LambdaWorkbench
