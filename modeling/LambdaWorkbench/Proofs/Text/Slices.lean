import LambdaWorkbench.Text.Measure

/-! # Slices of a text

A text can be cut at a byte position only between two characters. So to know that a slice exists is
to know that its two ends lie on character boundaries.
-/

namespace LambdaWorkbench.Text

/-- The characters from byte position `position` on, or nothing when the position lies inside a
character or past the end. -/
def charsFrom? (position : Nat) (cs : List Char) : Option (List Char) :=
  (charsBefore? position cs).map fun front => cs.drop front.length

/-- The characters between two byte positions, or nothing unless both are boundaries and in order. -/
def slice? (start stop : Nat) (cs : List Char) : Option (List Char) :=
  if start ≤ stop then (charsFrom? start cs).bind (charsBefore? (stop - start)) else none

@[simp] theorem charsBefore?_zero (cs : List Char) : charsBefore? 0 cs = some [] := by
  cases cs <;> rw [charsBefore?]

theorem charsBefore?_cons (c : Char) (rest : List Char) (position : Nat) :
    charsBefore? (c.utf8Size + position) (c :: rest) =
      (charsBefore? position rest).map (c :: ·) := by
  obtain ⟨size, eq⟩ := Nat.exists_eq_add_one.mpr c.utf8Size_pos
  have first : c.utf8Size + position = size + position + 1 := by omega
  rw [first, charsBefore?, if_pos (by omega), eq, Nat.add_right_comm, Nat.add_sub_cancel_left]

theorem charsBefore?_append (front back : List Char) :
    charsBefore? (byteLength front) (front ++ back) = some front := by
  induction front with
  | nil => exact charsBefore?_zero back
  | cons c front ih => rw [byteLength_cons, List.cons_append, charsBefore?_cons, ih, Option.map_some]

/-- A cut at a byte position has that many bytes before it, and the rest after it. -/
theorem exists_eq_append_of_charsBefore? {position : Nat} {cs front : List Char}
    (h : charsBefore? position cs = some front) :
    ∃ back, cs = front ++ back ∧ position = byteLength front := by
  fun_induction charsBefore? position cs generalizing front with
  | case1 cs =>
    cases h
    exact ⟨cs, rfl, rfl⟩
  | case2 => cases h
  | case3 position c rest fits ih =>
    obtain ⟨before, cut, rfl⟩ := Option.map_eq_some_iff.mp h
    obtain ⟨back, rfl, left⟩ := ih cut
    exact ⟨back, rfl, by rw [byteLength_cons]; omega⟩
  | case4 => cases h

@[simp] theorem byteLength_reverse (cs : List Char) : byteLength cs.reverse = byteLength cs := by
  induction cs with
  | nil => rfl
  | cons c rest ih => simp [ih, Nat.add_comm]

theorem charsFrom?_append (front back : List Char) :
    charsFrom? (byteLength front) (front ++ back) = some back := by
  rw [charsFrom?, charsBefore?_append, Option.map_some, List.drop_left]

theorem slice?_append (front mid back : List Char) :
    slice? (byteLength front) (byteLength front + byteLength mid) (front ++ (mid ++ back)) =
      some mid := by
  rw [slice?, if_pos (Nat.le_add_right _ _), charsFrom?_append, Option.bind_some,
    Nat.add_sub_cancel_left, charsBefore?_append]

theorem slice?_front (front back : List Char) :
    slice? 0 (byteLength front) (front ++ back) = some front := by
  simpa using slice?_append [] front back

theorem slice?_back (front back : List Char) :
    slice? (byteLength front) (byteLength (front ++ back)) (front ++ back) = some back := by
  simpa using slice?_append front back []

end LambdaWorkbench.Text
