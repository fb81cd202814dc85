import LambdaWorkbench.Text.Blank
import LambdaWorkbench.Text.Measure

/-!
# Tokens

Parentheses stand for themselves, blank characters separate, and every longest run of other
characters is an atom. Each token comes with its byte offset in the text, which error messages
point to.
-/

namespace LambdaWorkbench

open Text

inductive Token where
  | opening
  | closing
  | atom (text : String)
  deriving DecidableEq, Repr

/-- Whether `c` may stand in an atom: anything but a blank character or a parenthesis. -/
def isAtomChar (c : Char) : Bool :=
  !isBlank c && c != '(' && c != ')'

theorem isAtomChar_iff {c : Char} :
    isAtomChar c = true ↔ isBlank c = false ∧ c ≠ '(' ∧ c ≠ ')' := by
  rw [isAtomChar, Bool.and_eq_true, Bool.and_eq_true, Bool.not_eq_true', bne_iff_ne, bne_iff_ne,
    and_assoc]

namespace Token

def text : Token → String
  | opening => "("
  | closing => ")"
  | atom name => name

/-- Puts the atom character `c`, which takes the bytes from `offset` to `after`, in front of the
tokens of what follows. An atom that starts at `after` touches it and takes it in. -/
def attach (offset : Nat) (c : Char) (after : Nat) : List (Nat × Token) → List (Nat × Token)
  | [] => [(offset, atom (String.singleton c))]
  | (next, token) :: rest =>
    match token with
    | atom name =>
      if next = after then (offset, atom (String.singleton c ++ name)) :: rest
      else (offset, atom (String.singleton c)) :: (next, token) :: rest
    | _ => (offset, atom (String.singleton c)) :: (next, token) :: rest

/-- The tokens of a run of characters that starts at byte `offset`. -/
def scanFrom (offset : Nat) : List Char → List (Nat × Token)
  | [] => []
  | c :: rest =>
    let later := scanFrom (offset + c.utf8Size) rest
    if isBlank c then later
    else if c = '(' then (offset, opening) :: later
    else if c = ')' then (offset, closing) :: later
    else attach offset c (offset + c.utf8Size) later

/-- The tokens of a text with their byte offsets. -/
def scan (text : String) : List (Nat × Token) :=
  scanFrom 0 text.toList

end Token

end LambdaWorkbench
