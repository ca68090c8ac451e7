/-!
# YAML text with a position

The layout of a YAML text is part of its meaning, so it is read together with
the line and the column. A column counts characters. A byte order mark is a
character like others, even where it is passed over.
-/

namespace Terse.Yaml

/-- What is left of a text, and where in the text it starts. -/
structure Source where
  rest : List Char
  index : Nat := 0
  line : Nat := 0
  column : Nat := 0

def isBreak (c : Char) : Bool :=
  c == '\n' || c == '\r' || c.toNat == 0x85 || c.toNat == 0x2028 ||
    c.toNat == 0x2029

def isBlank (c : Char) : Bool := c == ' ' || c == '\t'

def endsLine (c : Option Char) : Bool := c.all isBreak

/-- What separates words: blanks, line ends, and the end of the text. -/
def endsWord (c : Option Char) : Bool := c.all fun c => isBlank c || isBreak c

def isNameChar (c : Char) : Bool := c.isAlphanum || c == '_' || c == '-'

def isFlowIndicator (c : Char) : Bool :=
  c == ',' || c == '[' || c == ']' || c.toNat == 0x7b || c.toNat == 0x7d

def isPrintable (c : Char) : Bool :=
  let n := c.toNat
  n == 0x09 || n == 0x0a || n == 0x0d || (0x20 ≤ n && n ≤ 0x7e) || n == 0x85 ||
    (0xa0 ≤ n && n ≤ 0xd7ff) ||
    (0xe000 ≤ n && n ≤ 0xfffd) || 0x10000 ≤ n

namespace Source

def peek (s : Source) : Option Char := s.rest.head?

def ahead (s : Source) (n : Nat) : Option Char := s.rest[n]?

def skip (s : Source) (n : Nat) : Source :=
  { s with rest := s.rest.drop n, index := s.index + n, column := s.column + n }

/-- Passes over one line end, if one is here, and gives what it stands for. All
ends but the two Unicode separators stand for a line feed. -/
def readBreak (s : Source) : List Char × Source :=
  match s.rest with
  | '\r' :: '\n' :: t =>
    (['\n'], { rest := t, index := s.index + 2, line := s.line + 1 })
  | c :: t =>
    if isBreak c then
      ([if c.toNat == 0x2028 || c.toNat == 0x2029 then c else '\n'],
        { rest := t, index := s.index + 1, line := s.line + 1 })
    else ([], s)
  | [] => ([], s)

def skipBreak (s : Source) : Source := s.readBreak.2

/-- Passes over characters of the same line as long as `p` holds. -/
def skipWhile (s : Source) (p : Char → Bool) : Source :=
  s.skip (s.rest.takeWhile p).length

def skipLine (s : Source) : Source := s.skipWhile (!isBreak ·)

def startsWith (s : Source) (word : String) : Bool :=
  word.toList.isPrefixOf s.rest

/-- Whether a document marker stands here, at the start of a line. -/
def atDocumentMarker (s : Source) : Bool :=
  s.column == 0 && (s.startsWith "---" || s.startsWith "...") &&
    endsWord (s.ahead 3)

end Source

end Terse.Yaml
