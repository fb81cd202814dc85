/-!
# Unsigned numbers

Decimal numbers typed by the user, with an optional plus sign, up to a bound that the place of use
gives. Reading stops at the first character that is not a digit or that takes the number over the
bound, and says which of the two it was.
-/

namespace LambdaWorkbench.Text

/-- The largest number that fits in 64 bits. -/
def maxWord : Nat := UInt64.size - 1

inductive NumberFault where
  | empty
  | invalidDigit
  | tooLarge
  deriving DecidableEq, Repr

def NumberFault.message : NumberFault → String
  | .empty => "cannot parse integer from empty string"
  | .invalidDigit => "invalid digit found in string"
  | .tooLarge => "number too large to fit in target type"

def digitValue? (c : Char) : Option Nat :=
  if '0' ≤ c ∧ c ≤ '9' then some (c.toNat - '0'.toNat) else none

/-- Reads digits onto `value`, which stays within `bound`. -/
def readDigits (bound : Nat) (value : Nat) : List Char → Except NumberFault Nat
  | [] => .ok value
  | c :: rest =>
    match digitValue? c with
    | none => .error .invalidDigit
    | some digit =>
      if value * 10 + digit ≤ bound then readDigits bound (value * 10 + digit) rest
      else .error .tooLarge

/-- Reads an unsigned number of at most `bound`, which a plus sign may precede. -/
def readUnsigned (bound : Nat) (text : String) : Except NumberFault Nat :=
  match text.toList with
  | [] => .error .empty
  | ['+'] => .error .invalidDigit
  | '+' :: digits => readDigits bound 0 digits
  | digits => readDigits bound 0 digits

/-- The value of a non-empty run of ASCII digits, without any bound. -/
def naturalValue? (text : String) : Option Nat :=
  match text.toList with
  | [] => none
  | digits => digits.foldlM (fun value c => (digitValue? c).map (value * 10 + ·)) 0

end LambdaWorkbench.Text
