import LambdaWorkbench.Text.Unsigned

/-! # Spellings of numbers

A number is spelled by any non-empty run of digits that has its value, the decimal notation among
them.
-/

namespace LambdaWorkbench.Text

variable {text : String} {n : Nat}

theorem digitValue?_eq_ite (c : Char) :
    digitValue? c = if c.isDigit then some (c.toNat - '0'.toNat) else none := by
  have same : ('0' ≤ c ∧ c ≤ '9') ↔ c.isDigit = true := by
    rw [Char.isDigit, Bool.and_eq_true, decide_eq_true_eq, decide_eq_true_eq]
    exact Iff.rfl
  rw [digitValue?]
  by_cases digit : c.isDigit = true
  · rw [if_pos (same.mpr digit), if_pos digit]
  · rw [if_neg fun between => digit (same.mp between), if_neg digit]

/-- Digits are read from the left, and anything else ends the reading. -/
theorem foldlM_digitValue? (cs : List Char) (value : Nat) :
    cs.foldlM (fun value c => (digitValue? c).map (value * 10 + ·)) value =
      if cs.all Char.isDigit then some (Nat.ofDigitChars 10 cs value) else none := by
  induction cs generalizing value with
  | nil => rfl
  | cons c rest ih =>
    rw [List.foldlM_cons, digitValue?_eq_ite]
    by_cases digit : c.isDigit = true
    · rw [if_pos digit, Option.map_some, Option.bind_eq_bind, Option.bind_some, ih,
        Nat.ofDigitChars_cons, Nat.mul_comm 10, List.all_cons, digit, Bool.true_and]
    · rw [if_neg digit, List.all_cons, Bool.eq_false_iff.mpr digit, Bool.false_and]
      rfl

/-- A non-empty run of ASCII digits, leading zeros included, and the number it stands for. -/
structure Digits (text : String) (n : Nat) : Prop where
  nonempty : text ≠ ""
  digits : ∀ c ∈ text.toList, c.isDigit = true
  value : Nat.ofDigitChars 10 text.toList 0 = n

theorem naturalValue?_eq_some_iff : naturalValue? text = some n ↔ Digits text n := by
  have nonempty : text = "" ↔ text.toList = [] := by
    rw [← String.toList_inj, String.toList_empty]
  rw [naturalValue?]
  split
  · rename_i empty
    exact ⟨nofun, fun spelled => absurd (nonempty.mpr empty) spelled.nonempty⟩
  · rename_i inked
    rw [foldlM_digitValue?]
    split
    · rename_i digit
      exact ⟨fun same => ⟨fun empty => inked (nonempty.mp empty), List.all_eq_true.mp digit,
        Option.some.inj same⟩, fun spelled => congrArg some spelled.value⟩
    · rename_i other
      exact ⟨nofun, fun spelled => absurd (List.all_eq_true.mpr spelled.digits) other⟩

theorem digits_toString (n : Nat) : Digits (toString n) n where
  nonempty := by
    rw [Nat.toString_eq_ofList_toDigits, Ne, ← String.toList_inj, String.toList_ofList,
      String.toList_empty]
    exact Nat.toDigits_ne_nil
  digits := by
    rw [Nat.toString_eq_ofList_toDigits, String.toList_ofList]
    exact fun c => Nat.isDigit_of_mem_toDigits (by decide) (by decide)
  value := by
    rw [Nat.toString_eq_ofList_toDigits, String.toList_ofList]
    exact Nat.ofDigitChars_toDigits (by decide) (by decide)

/-- The decimal notation spells the number. -/
theorem naturalValue?_toString (n : Nat) : naturalValue? (toString n) = some n :=
  naturalValue?_eq_some_iff.mpr (digits_toString n)

end LambdaWorkbench.Text
