import LambdaWorkbench.Prompt.Files
import LambdaWorkbench.Text.Lines
import LambdaWorkbench.Text.Measure

/-!
# Directories in memory

A directory given by the names and texts of its files, for evaluation without a disk. A name is
followed part by part, as it would be on a disk.
-/

namespace LambdaWorkbench.Directory

/-- The names of the files as lists of their parts, with the texts. -/
abbrev Listing := List (List String × String)

def maxPart : Nat := 255

def maxName : Nat := 4095

/-- The parts of a name, which slashes separate. -/
def parts (name : String) : List String :=
  (Text.pieces '/' name.toList).map String.ofList

/-- Whether a part leads nowhere else: it is empty or a single dot. -/
def isIdle (part : String) : Bool :=
  part.isEmpty || part == "."

/-- Whether a part leads to a place that no listing describes. -/
def isOutward (part : String) : Bool :=
  part == ".."

/-- Follows the parts of a name from the directory `reached`. -/
def follow (listing : Listing) (reached : List String) :
    List String → Except FileFault String
  | [] => .error .directory
  | part :: rest =>
    if isIdle part then follow listing reached rest
    else if isOutward part then
      if reached.isEmpty then
        if rest.all (fun other => isIdle other || isOutward other) then .error .directory
        else .error .missing
      else follow listing reached.dropLast rest
    else if maxPart < Text.byteLength part.toList then .error .nameTooLong
    else match listing.lookup (reached ++ [part]) with
      | some text => if rest.isEmpty then .ok text else .error .notDirectory
      | none =>
        if listing.any fun entry => (reached ++ [part]).isPrefixOf entry.1 then
          follow listing (reached ++ [part]) rest
        else .error .missing

/-- The files with the given names and texts. Of two with the same name the later one counts. -/
def files (entries : List (String × String)) : Files := fun name =>
  if name.toList.contains '\x00' then .error .nulInName
  else if maxName < Text.byteLength name.toList then .error .nameTooLong
  else match name.toList with
    | [] => .error .missing
    | '/' :: _ =>
      if (parts name).all (fun part => isIdle part || isOutward part) then .error .directory
      else .error .missing
    | _ =>
      follow ((entries.map fun entry => ((parts entry.1).filter (!isIdle ·), entry.2)).reverse) []
        (parts name)

end LambdaWorkbench.Directory
