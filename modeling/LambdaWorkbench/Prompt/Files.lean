/-!
# Files

Evaluation asks for the text of a file by its name, and is given the text or the reason why there
is none.
-/

namespace LambdaWorkbench

/-- Why a file cannot be read. -/
inductive FileFault where
  | missing
  | directory
  /-- A part of the name that should be a directory is a file. -/
  | notDirectory
  | nameTooLong
  | nulInName
  /-- Any other reason, in the words of the system. -/
  | other (reason : String)
  deriving DecidableEq, Repr

def FileFault.message : FileFault → String
  | missing => "No such file or directory (os error 2)"
  | directory => "Is a directory (os error 21)"
  | notDirectory => "Not a directory (os error 20)"
  | nameTooLong => "File name too long (os error 36)"
  | nulInName => "file name contained an unexpected NUL byte"
  | other reason => reason

/-- The text of each file, by the file's name. -/
abbrev Files := String → Except FileFault String

end LambdaWorkbench
