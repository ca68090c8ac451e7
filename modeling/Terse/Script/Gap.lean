import Terse.Script.ByteClass

/-!
# Gaps

A run of blanks and comments collapses to one of two gaps: a `line` if a line
ends somewhere in it, a `space` otherwise. A gap is written out only where its
neighbours would otherwise be read differently. Two word bytes would join into
one word; and between a byte that can end a statement and one that can begin the
next, the line break may stand for a missing semicolon.
-/

namespace Terse.Script

inductive Gap where
  | space
  | line
  deriving DecidableEq, Repr

namespace Gap

def byte : Gap → UInt8
  | .space => Script.space
  | .line => lineFeed

def separates : Gap → UInt8 → UInt8 → Bool
  | .space, p, n => isWord p && isWord n
  | .line, p, n => endsStatement p && beginsStatement n

/-- Whether a gap stays between what was written last and what is read next. At
either end of the program there is nothing to keep apart. -/
def kept (g : Gap) : Option UInt8 → Option UInt8 → Bool
  | some p, some n => g.separates p n
  | _, _ => false

@[simp] theorem kept_none_left (g : Gap) (n : Option UInt8) :
    g.kept none n = false :=
  rfl

@[simp] theorem kept_none_right (g : Gap) (p : Option UInt8) :
    g.kept p none = false := by
  cases p <;> rfl

@[simp] theorem kept_some (g : Gap) (p n : UInt8) :
    g.kept (some p) (some n) = g.separates p n :=
  rfl

/-- The gap after one more blank byte has been read into the run. -/
def widen (g : Gap) (b : UInt8) : Gap :=
  if normalize b == lineFeed then .line else g

end Gap

end Terse.Script
