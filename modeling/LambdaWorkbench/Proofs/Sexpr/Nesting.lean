import LambdaWorkbench.Proofs.Sexpr.Balance

/-! # Expansion and the nesting of lists

To the readers a text is a rise and fall of the depth of parentheses. Two texts nest alike when
either may stand for the other in this, whatever comes before and after. Expansion replaces a run of
atom characters by a text that closes the list it opens, so that what it writes nests as the text
does, and the readers find the same faults in both.
-/

namespace LambdaWorkbench

open Text Shorthand

namespace Sexpr

variable {cs front front' back back' run : List Char} {depth : Nat} {text text' : String}

/-! ## Nesting alike -/

theorem noStray_nil (depth : Nat) : NoStray depth [] := by
  intro front initial
  rw [List.prefix_nil.mp initial]
  exact Nat.zero_le _

theorem NoStray.deepen (h : NoStray 0 cs) (depth : Nat) : NoStray depth cs := by
  intro front initial
  have bound := h front initial
  omega

/-- The second part of a text starts at the depth that the first part ends at. -/
theorem noStray_append_iff :
    NoStray depth (front ++ back) ↔
      NoStray depth front ∧ NoStray (depth + front.count '(' - front.count ')') back := by
  constructor
  · intro h
    have within : NoStray depth front := fun part initial =>
      h part (initial.trans (List.prefix_append front back))
    have bound := within front List.prefix_rfl
    exact ⟨within, h.of_append front (by omega)⟩
  · rintro ⟨within, beyond⟩ part initial
    have bound := within front List.prefix_rfl
    rcases List.prefix_or_prefix_of_prefix initial (List.prefix_append front back) with
      inFront | ⟨rest, rfl⟩
    · exact within part inFront
    · have inBack := beyond rest ((List.prefix_append_right_inj front).mp initial)
      rw [List.count_append, List.count_append]
      omega

/-- The two texts have the same effect on the depth: what closes nothing in one place has its like
in the other, and both open as many lists more than they close. -/
structure NestsAs (cs cs' : List Char) : Prop where
  noStray : ∀ depth, NoStray depth cs ↔ NoStray depth cs'
  count : cs.count '(' + cs'.count ')' = cs'.count '(' + cs.count ')'

theorem NestsAs.refl (cs : List Char) : NestsAs cs cs where
  noStray := fun _ => Iff.rfl
  count := rfl

theorem NestsAs.symm (h : NestsAs front back) : NestsAs back front where
  noStray := fun depth => (h.noStray depth).symm
  count := h.count.symm

theorem NestsAs.trans (h : NestsAs front back) (h' : NestsAs back back') :
    NestsAs front back' where
  noStray := fun depth => (h.noStray depth).trans (h'.noStray depth)
  count := by
    have count := h.count
    have count' := h'.count
    omega

theorem NestsAs.append (h : NestsAs front front') (h' : NestsAs back back') :
    NestsAs (front ++ back) (front' ++ back') where
  noStray := by
    intro depth
    rw [noStray_append_iff, noStray_append_iff, h.noStray]
    refine and_congr_right ?_
    intro within
    have bound := within front' List.prefix_rfl
    have bound' := (h.noStray depth).mpr within front List.prefix_rfl
    have count := h.count
    rw [h'.noStray, show depth + front.count '(' - front.count ')' =
      depth + front'.count '(' - front'.count ')' by omega]
  count := by
    have count := h.count
    have count' := h'.count
    simp only [List.count_append]
    omega

/-- A text that closes what it opens may be left out. -/
theorem NestsAs.nil_of_noStray (h : NoStray 0 cs) (count : cs.count '(' = cs.count ')') :
    NestsAs cs [] where
  noStray := fun depth => iff_of_true (h.deepen depth) (noStray_nil depth)
  count := by rw [count, Nat.add_comm]; rfl

theorem NestsAs.nil_of_parenless (parenless : ∀ c ∈ run, c ≠ '(' ∧ c ≠ ')') : NestsAs run [] := by
  refine .nil_of_noStray ?_ ?_
  · intro part initial
    have unclosed : part.count ')' = 0 :=
      List.count_eq_zero.mpr fun mem => (parenless _ (initial.subset mem)).2 rfl
    rw [unclosed]
    exact Nat.zero_le _
  · have opens : run.count '(' = 0 := List.count_eq_zero.mpr fun mem => (parenless _ mem).1 rfl
    have closes : run.count ')' = 0 := List.count_eq_zero.mpr fun mem => (parenless _ mem).2 rfl
    rw [opens, closes]

theorem NestsAs.nil_of_atomChars (atomic : ∀ c ∈ run, isAtomChar c = true) : NestsAs run [] := by
  refine .nil_of_parenless fun c mem => ⟨?_, ?_⟩
  · rintro rfl
    exact absurd (atomic _ mem) (by decide)
  · rintro rfl
    exact absurd (atomic _ mem) (by decide)

/-! ## Expansion -/

/-- The list of a written out parameter is closed again. -/
theorem NestsAs.nil_of_binder (touching : Bool) (atomic : ∀ c ∈ run, isAtomChar c = true) :
    NestsAs ((if touching then [' '] else []) ++ "lambda (".toList ++ run ++ ") ".toList) [] := by
  have closed : NestsAs ((if touching then [' '] else []) ++ "lambda (".toList ++ [] ++
      ") ".toList) [] := by
    cases touching
    · exact .nil_of_noStray (by decide) (by decide)
    · exact .nil_of_noStray (by decide) (by decide)
  exact (((NestsAs.refl _).append (.nil_of_atomChars atomic)).append (.refl _)).trans closed

/-- What expansion writes nests as the text. -/
theorem nestsAs_expandChars (touching : Bool) (cs : List Char) :
    NestsAs (expandChars touching cs) cs := by
  fun_induction expandChars touching cs with
  | case1 => exact .refl []
  | case2 touching c rest marker name after found =>
    rename_i ih
    obtain ⟨-, named, rfl⟩ := binder?_eq_some_iff.mp found
    have atomic : ∀ d ∈ name, isAtomChar d = true := fun d mem =>
      isAtomChar_of_isNameChar (named d mem)
    have short : NestsAs (c :: (name ++ ['.'])) [] := by
      refine .nil_of_atomChars ?_
      rw [List.forall_mem_cons, List.forall_mem_append]
      exact ⟨isAtomChar_of_isMarker marker, atomic, List.forall_mem_singleton.mpr (by decide)⟩
    have whole := ((NestsAs.nil_of_binder touching atomic).trans short.symm).append ih
    simpa only [List.cons_append, List.append_assoc, List.nil_append] using whole
  | case3 touching c rest marker none ih => exact (NestsAs.refl [c]).append ih
  | case4 touching c rest plain ih => exact (NestsAs.refl [c]).append ih

theorem nestsAs_expand (text : String) : NestsAs (expand text).toList text.toList := by
  rw [expand, String.toList_ofList]
  exact nestsAs_expandChars false text.toList

/-! ## Readers -/

theorem NoStray.count_eq (h : NoStray 0 text.toList) :
    text.toList.count '(' = text.toList.count ')' + unclosedCount text := by
  obtain ⟨items, depth, count, eq, -⟩ := h.reading_eq
  rw [count, unclosedCount, eq]
  cases depth <;> rfl

theorem NoStray.readStrict_eq (h : NoStray 0 text.toList) :
    readStrict text = if unclosedCount text = 0 then .ok (read text)
      else .error (.unclosedParens (unclosedCount text)) := by
  obtain ⟨items, depth, -, eq, -⟩ := h.reading_eq
  rw [readStrict, unclosedCount, eq]
  cases depth <;> rfl

/-- The tolerant reader closes what is left open. -/
theorem NoStray.readStrict_closed (h : NoStray 0 text.toList) :
    readStrict (text ++ String.ofList (List.replicate (unclosedCount text) ')')) =
      .ok (read text) := by
  have same := h.count_eq
  obtain ⟨items, depth, count, eq, closed⟩ := h.reading_eq
  obtain rfl : unclosedCount text = depth := Nat.add_left_cancel (same.symm.trans count)
  rw [readStrict, closed, read, read, eq, closed]

theorem exists_stray_iff :
    (∃ offset, readStrict text = .error (.strayParen offset)) ↔ ¬ NoStray 0 text.toList := by
  constructor
  · rintro ⟨offset, stray⟩ noStray
    rw [noStray.readStrict_eq] at stray
    split at stray <;> cases stray
  · intro h
    obtain ⟨front, first⟩ := (noStray_or_firstStray text.toList).resolve_left h
    obtain ⟨items, eq, -⟩ := first.reading_eq
    exact ⟨byteLength front, by rw [readStrict, eq]⟩

theorem unclosedCount_eq_zero (h : ¬ NoStray 0 text.toList) : unclosedCount text = 0 := by
  obtain ⟨front, first⟩ := (noStray_or_firstStray text.toList).resolve_left h
  obtain ⟨items, eq, -⟩ := first.reading_eq
  rw [unclosedCount, eq]

theorem NestsAs.unclosedCount_eq (h : NestsAs text.toList text'.toList) :
    unclosedCount text = unclosedCount text' := by
  by_cases noStray : NoStray 0 text.toList
  · have count := noStray.count_eq
    have count' := ((h.noStray 0).mp noStray).count_eq
    have same := h.count
    omega
  · rw [unclosedCount_eq_zero noStray, unclosedCount_eq_zero (mt (h.noStray 0).mpr noStray)]

theorem NestsAs.exists_stray_iff (h : NestsAs text.toList text'.toList) :
    (∃ offset, readStrict text = .error (.strayParen offset)) ↔
      ∃ offset, readStrict text' = .error (.strayParen offset) := by
  rw [Sexpr.exists_stray_iff, Sexpr.exists_stray_iff, h.noStray]

end Sexpr

end LambdaWorkbench
