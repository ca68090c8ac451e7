import Terse.Bytes

/-!
# Classes of source bytes

The scan looks at JavaScript one byte at a time, so everything it knows about a
byte is a predicate on `UInt8`. A byte from `0x80` up belongs to a character
outside ASCII and counts as part of a word: it can only occur in identifiers,
literals and comments, and in the first of these it must not be joined to a
neighbour.
-/

namespace Terse.Script

abbrev lineFeed : UInt8 := 0x0a
abbrev carriageReturn : UInt8 := 0x0d
abbrev space : UInt8 := 0x20
abbrev doubleQuote : UInt8 := 0x22
abbrev singleQuote : UInt8 := 0x27
abbrev star : UInt8 := 0x2a
abbrev dot : UInt8 := 0x2e
abbrev slash : UInt8 := 0x2f
abbrev backslash : UInt8 := 0x5c
abbrev backtick : UInt8 := 0x60

/-- Letters, digits, `_`, `$`, the backslash of an escaped identifier, and every
byte outside ASCII. -/
def isWord (b : UInt8) : Bool :=
  (0x30 ≤ b && b ≤ 0x39) || (0x41 ≤ b && b ≤ 0x5a) || (0x61 ≤ b && b ≤ 0x7a) ||
    b == 0x5f || b == 0x24 || b == backslash || 0x80 ≤ b

def isQuote (b : UInt8) : Bool :=
  b == singleQuote || b == doubleQuote || b == backtick

def isCloser (b : UInt8) : Bool := b == 0x29 || b == 0x5d || b == 0x7d

def isOpener (b : UInt8) : Bool := b == 0x28 || b == 0x5b || b == 0x7b

def isSign (b : UInt8) : Bool := b == 0x2b || b == 0x2d

/-- Bytes that can end a statement, so that a line break after them may be
significant. -/
def endsStatement (b : UInt8) : Bool :=
  isWord b || isQuote b || isCloser b || isSign b

/-- Bytes that can begin a statement, so that a line break before them may be
significant. -/
def beginsStatement (b : UInt8) : Bool := isWord b || isOpener b || isSign b

/-- Bytes after which an operand is expected: `( , = : [ ! & | ? ;`, both braces
and a line feed. A slash there opens a regular expression. -/
def expectsOperand (b : UInt8) : Bool :=
  isOpener b || b == 0x2c || b == 0x3d || b == 0x3a || b == 0x21 ||
    b == 0x26 || b == 0x7c ||
    b == 0x3f || b == 0x7d || b == 0x3b || b == lineFeed

/-- What a byte reads as outside literals: both line terminators are a line
feed, and the other control bytes are a space. -/
def normalize (b : UInt8) : UInt8 :=
  if b == carriageReturn || b == lineFeed then lineFeed
  else if b < space || b == 0x7f then space
  else b

def isBlank (b : UInt8) : Bool :=
  normalize b == space || normalize b == lineFeed

theorem isBlank_iff (b : UInt8) : isBlank b = true ↔ b ≤ space ∨ b = 0x7f := by
  unfold isBlank normalize
  split
  · next h =>
    rcases Bool.or_eq_true_iff.1 h with
      h | h <;> simp [beq_iff_eq.1 h] <;> decide
  · split
    · next h =>
      rcases Bool.or_eq_true_iff.1 h with h | h
      · simp only [BEq.rfl, Bool.true_or, true_iff]
        exact Or.inl (UInt8.le_of_lt (of_decide_eq_true h))
      · simp [beq_iff_eq.1 h]
    · next h₁ h₂ =>
      simp only [Bool.or_eq_true, beq_iff_eq, decide_eq_true_eq, not_or,
        UInt8.not_lt] at h₁ h₂
      constructor
      · intro h
        rcases Bool.or_eq_true_iff.1 h with h | h
        · exact Or.inl (by simp [beq_iff_eq.1 h])
        · exact absurd (beq_iff_eq.1 h) h₁.2
      · rintro (h | h)
        · simp [UInt8.le_antisymm h h₂.1]
        · exact absurd h h₂.2

end Terse.Script
