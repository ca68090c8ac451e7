import Terse.Script.ByteClass

/-!
# Where a slash opens a regular expression

Division and regular expressions share a byte, and without a syntax tree the
only evidence is what was written before. A slash opens a literal at the start
of the output, after a byte that expects an operand, and, when keywords are
tracked, after a keyword that takes an operand. The output is inspected from its
end, so it is held newest byte first (`trail`).

`in`, `of`, `typeof` and `instanceof` are suffixes of one another and of
ordinary names; a match therefore counts only if the byte before it could not
have belonged to the same word, and is not the dot of a property access.
-/

namespace Terse.Script

def operandKeywords : List Bytes :=
  ["return", "typeof", "instanceof", "in", "of", "new", "delete", "void",
    "throw", "case", "do", "else",
    "yield", "await"].map Bytes.ofAscii

/-- Whether `trail` ends with the word `k`, read backwards, as a word of its
own. -/
def endsInWord (k : Bytes) (trail : Bytes) : Bool :=
  k.reverse.isPrefixOf trail &&
    match trail.drop k.length with
    | [] => true
    | b :: _ => !isWord b && b != dot

def endsInKeyword (trail : Bytes) : Bool :=
  operandKeywords.any (endsInWord · trail)

/-- Whether a slash opens a regular expression after the output `trail`, given
newest byte first. -/
def opensRegex (afterKeywords : Bool) : Bytes → Bool
  | [] => true
  | b :: trail =>
    expectsOperand b || (afterKeywords && endsInKeyword (b :: trail))

@[simp] theorem opensRegex_nil (k : Bool) : opensRegex k [] = true := rfl

theorem opensRegex_cons (k : Bool) (b : UInt8) (trail : Bytes) :
    opensRegex k (b :: trail) =
      (expectsOperand b || (k && endsInKeyword (b :: trail))) := rfl

theorem opensRegex_of_not_keywords {trail : Bytes}
    (h : opensRegex false trail = true) (k : Bool) :
    opensRegex k trail = true := by
  cases trail with
  | nil => rfl
  | cons b trail =>
    simp only [opensRegex_cons, Bool.false_and, Bool.or_false] at h
    simp [opensRegex_cons, h]

end Terse.Script
