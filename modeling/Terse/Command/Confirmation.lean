import Terse.Text.Utf8

/-!
# Confirmation

A question is answered by one line. Only `y` and `yes` mean yes, in any case and
with blanks around them; anything else, the end of the input included, means no.
-/

namespace Terse.Command

def isWhiteSpace (c : Char) : Bool :=
  let n := c.toNat
  (0x09 ≤ n && n ≤ 0x0d) || n == 0x20 || n == 0x85 || n == 0xa0 ||
    n == 0x1680 ||
    (0x2000 ≤ n && n ≤ 0x200a) || n == 0x2028 || n == 0x2029 || n == 0x202f ||
      n == 0x205f || n == 0x3000

def trim (s : List Char) : List Char :=
  ((s.dropWhile isWhiteSpace).reverse.dropWhile isWhiteSpace).reverse

def prompt (question : String) : String := question ++ " [y/N] "

/-- The first line of the input, its line feed included, and the rest. -/
def firstLine : Bytes → Bytes × Bytes
  | [] => ([], [])
  | b :: s =>
    if b == 0x0a then ([b], s)
    else
      let (line, rest) := firstLine s
      (b :: line, rest)

def answer? (line : Bytes) : Option Bool :=
  (Text.Utf8.decode? line).map fun s =>
    let word := (trim s).map Char.toLower
    word == ['y'] || word == ['y', 'e', 's']

end Terse.Command
