import Terse.Store.Key

/-!
# Entries

Beside each stored output stands a record of what it is: its key, the length of
the source and of the output, and when it was written. Lengths are machine
words, which is also what bounds the numbers that can be read back.
-/

namespace Terse.Store

structure Entry where
  key : Key
  sourceLength : Nat
  outputLength : Nat
  createdAt : String
  deriving DecidableEq, Repr

/-- Lengths that a record can hold are below this bound, the first number of 65
bits. -/
def Entry.lengthBound : Nat := 0x10000000000000000

end Terse.Store
