import LambdaWorkbench.Sexpr.Token

/-!
# The lambda shorthand

`λx.` and `\x.` are short for `lambda (x) `. The shorthand is expanded in the text itself, before
reading: the body of such a lambda then extends to the end of the list it stands in, as that of
any other lambda does.
-/

namespace LambdaWorkbench.Shorthand

/-- The two characters that may start the shorthand. -/
def isMarker (c : Char) : Bool :=
  c == 'λ' || c == '\\'

/-- Whether `c` may stand in the name of a shorthand: the characters of atoms but for the dot,
which ends the name, and the markers. -/
def isNameChar (c : Char) : Bool :=
  isAtomChar c && c != '.' && !isMarker c

/-- The name and the text after the dot, when a text starts with a non-empty name and a dot. -/
def binder? (cs : List Char) : Option (List Char × List Char) :=
  match cs.takeWhile isNameChar, cs.dropWhile isNameChar with
  | first :: name, '.' :: after => some (first :: name, after)
  | _, _ => none

/-- What follows a name and its dot is shorter than the text. -/
theorem length_lt_of_binder? {cs name after : List Char} (h : binder? cs = some (name, after)) :
    after.length < cs.length := by
  unfold binder? at h
  split at h
  · rename_i first front later _ rest
    have whole := congrArg List.length (List.takeWhile_append_dropWhile (p := isNameChar) (l := cs))
    simp only [Option.some.injEq, Prod.mk.injEq] at h
    rw [rest, List.length_append, List.length_cons, h.2] at whole
    omega
  · simp at h

/-- Expands the shorthands in a text. `touching` says that an atom character comes just before
it, from which the word `lambda` has to be kept apart. -/
def expandChars (touching : Bool) (cs : List Char) : List Char :=
  match cs with
  | [] => []
  | c :: rest =>
    if isMarker c then
      match h : binder? rest with
      | some (name, after) =>
        have := length_lt_of_binder? h
        (if touching then [' '] else []) ++ "lambda (".toList ++ name ++ ") ".toList
          ++ expandChars false after
      | none => c :: expandChars true rest
    else c :: expandChars (isAtomChar c) rest
termination_by cs.length
decreasing_by all_goals simp only [List.length_cons]; omega

/-- A text with every shorthand written out. -/
def expand (text : String) : String :=
  String.ofList (expandChars false text.toList)

/-- Whether the shorthand can bind `name`. -/
def canBind (name : String) : Bool :=
  !name.isEmpty && name.toList.all isNameChar

end LambdaWorkbench.Shorthand
