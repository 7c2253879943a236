/-!
# Unreadable files

Why a file cannot be read as a text, with the wording of the platform.
-/

namespace SymbolicAlgebra.Session

/-- The causes for which a file cannot be read as a text. -/
inductive FileFault where
  /-- There is no file under the path. -/
  | missing
  /-- The file may not be read. -/
  | denied
  /-- The path goes on below a file. -/
  | notDirectory
  /-- There is a directory under the path. -/
  | isDirectory
  /-- The path or a name in it is too long. -/
  | nameTooLong
  /-- The bytes of the file are not UTF-8. -/
  | notText
  /-- A cause that has only the wording of the platform. -/
  | other (reason : String)
deriving DecidableEq, Repr

/-- A cause in words, with the number that the platform gives it. -/
def FileFault.text : FileFault → String
  | missing => "No such file or directory (os error 2)"
  | denied => "Permission denied (os error 13)"
  | notDirectory => "Not a directory (os error 20)"
  | isDirectory => "Is a directory (os error 21)"
  | nameTooLong => "File name too long (os error 36)"
  | notText => "stream did not contain valid UTF-8"
  | other reason => reason

end SymbolicAlgebra.Session
