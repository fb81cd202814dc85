/-!
# Positions in a text

A position in a text is the number of bytes its UTF-8 form has before it. `charsBefore?` cuts
a text at such a position, which only exists between two characters.
-/

namespace LambdaWorkbench.Text

/-- The number of bytes a run of characters takes in UTF-8. -/
def byteLength : List Char → Nat
  | [] => 0
  | c :: rest => c.utf8Size + byteLength rest

/-- The characters before byte position `position`, or nothing when the position lies inside a
character or past the end. -/
def charsBefore? : Nat → List Char → Option (List Char)
  | 0, _ => some []
  | _ + 1, [] => none
  | position + 1, c :: rest =>
    if c.utf8Size ≤ position + 1 then
      (charsBefore? (position + 1 - c.utf8Size) rest).map (c :: ·)
    else none
termination_by structural _ cs => cs

@[simp] theorem byteLength_nil : byteLength [] = 0 := rfl

@[simp] theorem byteLength_cons (c : Char) (rest : List Char) :
    byteLength (c :: rest) = c.utf8Size + byteLength rest := rfl

@[simp] theorem byteLength_append (front back : List Char) :
    byteLength (front ++ back) = byteLength front + byteLength back := by
  induction front with
  | nil => simp
  | cons c rest ih => simp [ih, Nat.add_assoc]

end LambdaWorkbench.Text
