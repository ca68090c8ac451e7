import Terse.Files.Cause
import Terse.Script.Fault
import Terse.Store.Key

/-!
# Failures

Why a job could not be done. A failure that was caused by another error names
it, so `chain` lists that error's own message once more behind the failure's.
-/

namespace Terse

inductive Failure where
  /-- The source is malformed. -/
  | rejected (fault : Script.Fault)
  /-- The store cannot be used. -/
  | store (reason : String)
  /-- The settings contradict each other. -/
  | settings (reason : String)
  /-- A file operation failed. -/
  | file (cause : Files.Cause)
  /-- Something else in the system failed. -/
  | system (reason : String)
  /-- The key names no directory to be kept in. -/
  | shardless (key : Store.Key)
  deriving DecidableEq, Repr

namespace Failure

def cause? : Failure → Option String
  | .rejected f => some f.message
  | .file c => some c.message
  | .system reason => some reason
  | _ => none

def message : Failure → String
  | .rejected f => "Minification failed: " ++ f.message
  | .store reason => "Cache error: " ++ reason
  | .settings reason => "Invalid configuration: " ++ reason
  | .file c => "An unexpected I/O error occurred: " ++ c.message
  | .system reason => "A critical system error occurred: " ++ reason
  | .shardless k => "Cache error: the key is too short to be stored: " ++ k.text

def chain (f : Failure) : List String := f.message :: f.cause?.toList

end Failure

end Terse
