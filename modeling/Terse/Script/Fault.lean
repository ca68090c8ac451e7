import Terse.Script.ByteClass

/-!
# Faults

The scan rejects a source for one reason only: something was opened and never
closed. A fault names the offset of the opener, and for a literal its delimiter.
-/

namespace Terse.Script

inductive Fault where
  | openComment (offset : Nat)
  | openLiteral (offset : Nat) (delimiter : UInt8)
  deriving DecidableEq, Repr

namespace Fault

def offset : Fault → Nat
  | .openComment n => n
  | .openLiteral n _ => n

def literalKind (d : UInt8) : String :=
  if d == slash then "regex" else if d == backtick then "template" else "string"

/-- The report for a reader. The delimiter is shown as the character with that
code. -/
def message : Fault → String
  | .openComment n => "unterminated comment starting at byte " ++ toString n
  | .openLiteral n d =>
    "unterminated " ++ literalKind d ++ " literal (" ++
      (Char.ofNat d.toNat).toString ++
      ") starting at byte " ++ toString n

end Fault

end Terse.Script
