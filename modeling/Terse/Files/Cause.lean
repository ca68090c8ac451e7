/-!
# Why a file operation fails

The causes an operation can report, with the operating system's wording.
-/

namespace Terse.Files

inductive Cause where
  /-- Something on the way, or the thing itself, is not there. -/
  | missing
  /-- What was to be made is already there. -/
  | occupied
  /-- A file stands where a directory is needed. -/
  | notDirectory
  /-- A directory stands where a file is needed. -/
  | isDirectory
  /-- The path holds a zero byte, which no name can. -/
  | zeroByte
  deriving DecidableEq, Repr

def Cause.message : Cause → String
  | .missing => "No such file or directory (os error 2)"
  | .occupied => "File exists (os error 17)"
  | .notDirectory => "Not a directory (os error 20)"
  | .isDirectory => "Is a directory (os error 21)"
  | .zeroByte => "file name contained an unexpected NUL byte"

end Terse.Files
