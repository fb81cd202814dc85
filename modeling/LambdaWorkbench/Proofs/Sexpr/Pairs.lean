import LambdaWorkbench.Proofs.Sexpr.Nesting

/-! # Pairs of parentheses

Two parentheses of a text match when what stands between them closes what it opens and nothing else.
In a text that is put together of such pieces no pair reaches from one piece into another. So to
leave out a pair of the whole is to leave out a pair of one piece, or the one around it.
-/

namespace LambdaWorkbench.Sexpr

variable {cs cs' front back before inside after : List Char}

/-- The text closes what it opens and nothing else. -/
structure Balanced (cs : List Char) : Prop where
  noStray : NoStray 0 cs
  count_eq : cs.count '(' = cs.count ')'

/-- The second text is the first one without two parentheses that match. -/
def DropsPair (cs cs' : List Char) : Prop :=
  ∃ before inside after, Balanced inside ∧
    cs = before ++ '(' :: (inside ++ ')' :: after) ∧ cs' = before ++ (inside ++ after)

theorem balanced_iff_nestsAs_nil : Balanced cs ↔ NestsAs cs [] := by
  constructor
  · intro h
    exact .nil_of_noStray h.noStray h.count_eq
  · intro h
    exact ⟨(h.noStray 0).mpr (noStray_nil 0), by simpa using h.count⟩

theorem balanced_of_atomChars (atomic : ∀ c ∈ cs, isAtomChar c = true) : Balanced cs :=
  balanced_iff_nestsAs_nil.mpr (.nil_of_atomChars atomic)

theorem Balanced.append (h : Balanced front) (h' : Balanced back) : Balanced (front ++ back) := by
  rw [balanced_iff_nestsAs_nil] at *
  exact h.append h'

theorem Balanced.parens (h : Balanced cs) : Balanced ('(' :: (cs ++ [')'])) := by
  rw [balanced_iff_nestsAs_nil] at *
  have closed : NestsAs ['(', ')'] [] := .nil_of_noStray (by decide) (by decide)
  exact ((NestsAs.refl ['(']).append (h.append (.refl [')']))).trans closed

/-- A parenthesis that is open before a text without stray ones is open after it. -/
theorem Balanced.not_open (h : Balanced (before ++ '(' :: inside)) : ¬ NoStray 0 inside := by
  intro noStray
  have bound := noStray inside List.prefix_rfl
  have bound' := h.noStray before (List.prefix_append before _)
  have count := h.count_eq
  rw [List.count_append, List.count_append, List.count_cons_self,
    List.count_cons_of_ne (by decide)] at count
  omega

/-- A parenthesis that closes nothing in one part of a text does so in the whole. -/
theorem Balanced.not_closing (h : NoStray 0 (inside ++ ')' :: after)) : ¬ Balanced inside := by
  intro balanced
  have count := balanced.count_eq
  have rest : NoStray 0 (')' :: after) := h.of_append inside (by omega)
  exact Nat.lt_irrefl 0 rest.pos_of_closing

theorem not_dropsPair (h : '(' ∉ cs) : ¬ DropsPair cs cs' := by
  rintro ⟨before, inside, after, -, rfl, -⟩
  exact h (List.mem_append_right before List.mem_cons_self)

theorem not_dropsPair_of_atomChars (atomic : ∀ c ∈ cs, isAtomChar c = true) :
    ¬ DropsPair cs cs' := by
  refine not_dropsPair fun mem => ?_
  have notAtom : isAtomChar '(' = false := by decide
  exact Bool.false_ne_true (notAtom.symm.trans (atomic '(' mem))

/-- No pair reaches out of a part that closes what it opens. -/
theorem Balanced.dropsPair_append (h : Balanced front) (drops : DropsPair (front ++ back) cs) :
    (∃ front', DropsPair front front' ∧ cs = front' ++ back) ∨
      ∃ back', DropsPair back back' ∧ cs = front ++ back' := by
  obtain ⟨before, inside, after, balanced, whole, rfl⟩ := drops
  obtain ⟨between, rfl, rfl⟩ | ⟨opened, rfl, rest⟩ := List.append_eq_append_iff.mp whole
  · exact .inr ⟨_, ⟨between, inside, after, balanced, rfl, rfl⟩, List.append_assoc _ _ _⟩
  cases opened with
  | nil =>
    rw [List.append_nil]
    exact .inr ⟨_, ⟨[], inside, after, balanced, rest.symm, rfl⟩, rfl⟩
  | cons c opened =>
    obtain ⟨rfl, tail⟩ := List.cons.inj rest
    obtain ⟨closed, rfl, closes⟩ | ⟨beyond, rfl, -⟩ := List.append_eq_append_iff.mp tail
    · cases closed with
      | nil =>
        rw [List.append_nil] at h
        exact absurd balanced.noStray h.not_open
      | cons c closed =>
        obtain ⟨rfl, rfl⟩ := List.cons.inj closes
        exact .inl ⟨_, ⟨before, inside, closed, balanced, rfl, rfl⟩, by simp⟩
    · -- the pair would be open at the end of the first part
      exact absurd (noStray_append_iff.mp balanced.noStray).1 h.not_open

/-- Of a text in parentheses a pair is left out inside, or the one around it. -/
theorem Balanced.dropsPair_parens (h : Balanced cs) (drops : DropsPair ('(' :: (cs ++ [')'])) cs') :
    cs' = cs ∨ ∃ inner, DropsPair cs inner ∧ cs' = '(' :: (inner ++ [')']) := by
  obtain ⟨before, inside, after, balanced, whole, rfl⟩ := drops
  cases before with
  | nil =>
    left
    have tail : cs ++ [')'] = inside ++ ')' :: after := (List.cons.inj whole).2
    obtain ⟨between, rfl, rest⟩ | ⟨closed, rfl, rest⟩ := List.append_eq_append_iff.mp tail
    · cases between with
      | nil =>
        obtain rfl := (List.cons.inj rest).2
        simp
      | cons c between => simp at rest
    · cases closed with
      | nil =>
        obtain rfl := (List.cons.inj rest).2
        simp
      | cons c closed =>
        obtain ⟨rfl, -⟩ := List.cons.inj rest
        exact absurd balanced (Balanced.not_closing h.noStray)
  | cons c before =>
    right
    obtain ⟨rfl, tail⟩ := List.cons.inj whole
    have drops : DropsPair (cs ++ [')']) (before ++ (inside ++ after)) :=
      ⟨before, inside, after, balanced, tail, rfl⟩
    obtain ⟨inner, inCs, eq⟩ | ⟨back', atEnd, -⟩ := h.dropsPair_append drops
    · exact ⟨inner, inCs, congrArg ('(' :: ·) eq⟩
    · exact absurd atEnd (not_dropsPair (by decide))

end LambdaWorkbench.Sexpr
