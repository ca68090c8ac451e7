import Terse.Yaml.Source

/-!
# YAML scalars

The five ways of writing a text: plain, in single or double quotes, and as a
literal or folded block. A line end inside a plain or quoted scalar is folded:
it reads as a space, or as the empty lines that follow it.

Each reader gives the text and the source after it, or nothing if the scalar is
malformed. Readers that go on for several lines take a bound on the number of
their moves, which their callers take from the length of the source.
-/

namespace Terse.Yaml

inductive Style where
  | plain
  | singleQuoted
  | doubleQuoted
  | literal
  | folded
  deriving DecidableEq, Repr

/-! ### Folding -/

/-- White space between two words of a scalar: blanks on one line, or a line end
with the empty lines after it. -/
structure Fold where
  blanks : List Char := []
  firstBreak : List Char := []
  moreBreaks : List Char := []
  broken : Bool := false

def Fold.text (f : Fold) : List Char :=
  if f.broken then
    if f.firstBreak == ['\n'] then
      (if f.moreBreaks.isEmpty then [' '] else f.moreBreaks)
    else f.firstBreak ++ f.moreBreaks
  else f.blanks

/-- Reads white space. On a new line no tab may stand left of column
`indent`. -/
def readFold (indent : Int) : Nat → Fold → Source → Option (Fold × Source)
  | 0, _, _ => none
  | n + 1, f, s =>
    match s.peek with
    | none => some (f, s)
    | some c =>
      if isBlank c then
        if f.broken then
          if c == '\t' && (s.column : Int) < indent then
            none else readFold indent n f (s.skip 1)
        else readFold indent n { f with blanks := f.blanks ++ [c] } (s.skip 1)
      else if isBreak c then
        let (b, t) := s.readBreak
        if f.broken then
          readFold indent n { f with moreBreaks := f.moreBreaks ++ b } t
        else readFold indent n { f with firstBreak := b, broken := true } t
      else some (f, s)

/-! ### Plain scalars -/

/-- The characters of a plain scalar up to white space or to what ends the
scalar. -/
def plainWord (flow : Bool) : List Char → Option (List Char)
  | [] => some []
  | c :: t =>
    if isBlank c || isBreak c then some []
    else if flow && c == ':' &&
      t.head?.any (fun d => isFlowIndicator d || d == '?') then none
    else if c == ':' && endsWord t.head? then some []
    else if flow && isFlowIndicator c then some []
    else (plainWord flow t).map (c :: ·)

/-- A plain scalar as it was read. -/
structure Plain where
  text : List Char
  /-- Whether a line end was passed after the last word. -/
  lineEnded : Bool

/-- Reads a plain scalar, of which `text` and then `f` have been read. Its lines
are at least at column `indent`. -/
def readPlain (flow : Bool) (indent : Int) :
    Nat → List Char → Fold → Source → Option (Plain × Source)
  | 0, _, _, _ => none
  | n + 1, text, f, s =>
    if s.atDocumentMarker || s.peek == some '#' then some (⟨text, f.broken⟩, s)
    else do
      let word ← plainWord flow s.rest
      if word.isEmpty then some (⟨text, f.broken⟩, s)
      else
        let text := text ++ f.text ++ word
        let s := s.skip word.length
        if endsWord s.peek && s.peek.isSome then
          let (f, s) ← readFold indent (s.rest.length + 1) {} s
          if !flow && (s.column : Int) < indent then some (⟨text, f.broken⟩, s)
          else readPlain flow indent n text f s
        else some (⟨text, false⟩, s)

/-! ### Quoted scalars -/

def hexValue? (c : Char) : Option Nat :=
  if c.isDigit then some (c.toNat - 0x30)
  else if 'a' ≤ c && c ≤ 'f' then some (c.toNat - 0x57)
  else if 'A' ≤ c && c ≤ 'F' then some (c.toNat - 0x37)
  else none

def hexNumber? (n : Nat) (s : List Char) : Option Nat :=
  if s.length < n then none
  else (s.take n).foldlM (fun v c => do return v * 16 + (← hexValue? c)) 0

/-- What an escape stands for, and how many digits follow its letter if it is
given by number. -/
inductive Escape where
  | char (c : Char)
  | number (digits : Nat)

def escape? : Char → Option Escape
  | '0' => some (.char (Char.ofNat 0))
  | 'a' => some (.char (Char.ofNat 0x07))
  | 'b' => some (.char (Char.ofNat 0x08))
  | 't' | '\t' => some (.char '\t')
  | 'n' => some (.char '\n')
  | 'v' => some (.char (Char.ofNat 0x0b))
  | 'f' => some (.char (Char.ofNat 0x0c))
  | 'r' => some (.char '\r')
  | 'e' => some (.char (Char.ofNat 0x1b))
  | ' ' => some (.char ' ')
  | '"' => some (.char '"')
  | '/' => some (.char '/')
  | '\\' => some (.char '\\')
  | 'N' => some (.char (Char.ofNat 0x85))
  | '_' => some (.char (Char.ofNat 0xa0))
  | 'L' => some (.char (Char.ofNat 0x2028))
  | 'P' => some (.char (Char.ofNat 0x2029))
  | 'x' => some (.number 2)
  | 'u' => some (.number 4)
  | 'U' => some (.number 8)
  | _ => none

def charOfCode? (n : Nat) : Option Char :=
  if (0xd800 ≤ n && n ≤ 0xdfff) || 0x10ffff < n then
    none else some (Char.ofNat n)

/-- Reads the inside of a quoted scalar up to white space, the closing quote, or
an escaped line end. The flag says whether it was the last of these. -/
def quotedWord (single : Bool) :
    Nat → Source → Option (List Char × Bool × Source)
  | 0, _ => none
  | n + 1, s =>
    match s.rest with
    | [] => some ([], false, s)
    | c :: t =>
      if isBlank c || isBreak c then some ([], false, s)
      else if single then
        if c == '\'' then
          if t.head? == some '\'' then do
            let (word, b, s) ← quotedWord single n (s.skip 2)
            return ('\'' :: word, b, s)
          else some ([], false, s)
        else do
          let (word, b, s) ← quotedWord single n (s.skip 1)
          return (c :: word, b, s)
      else if c == '"' then some ([], false, s)
      else if c == '\\' then
        match t with
        | [] => none
        | e :: t' =>
          if isBreak e then some ([], true, (s.skip 1).skipBreak)
          else do
            match ← escape? e with
            | .char c =>
              let (word, b, s) ← quotedWord single n (s.skip 2)
              return (c :: word, b, s)
            | .number digits =>
              let c ← charOfCode? (← hexNumber? digits t')
              let (word, b, s) ← quotedWord single n (s.skip (2 + digits))
              return (c :: word, b, s)
      else do
        let (word, b, s) ← quotedWord single n (s.skip 1)
        return (c :: word, b, s)

/-- Reads a quoted scalar after its opening quote; `text` has been read. -/
def readQuoted (single : Bool) :
    Nat → List Char → Source → Option (List Char × Source)
  | 0, _, _ => none
  | n + 1, text, s =>
    if s.atDocumentMarker || s.rest.isEmpty then none
    else do
      let (word, continued, s) ← quotedWord single (s.rest.length + 1) s
      let text := text ++ word
      if s.peek == some (if single then '\'' else '"') then
        some (text, s.skip 1)
      else
        let (f, s) ← readFold 0 (s.rest.length + 1) { broken := continued } s
        readQuoted single n (text ++ f.text) s

/-! ### Block scalars -/

/-- What becomes of the line ends at the end of a block. -/
inductive Chomping where
  | strip
  | clip
  | keep
  deriving DecidableEq, Repr

def chomping? : Char → Option Chomping
  | '+' => some .keep
  | '-' => some .strip
  | _ => none

def increment? (c : Char) : Option Nat :=
  if c.isDigit && c != '0' then some (c.toNat - 0x30) else none

/-- Reads what may follow the indicator of a block: a chomping sign and an
indentation digit, in either order. A zero is not allowed. -/
def readBlockHeader (s : Source) : Option (Chomping × Nat × Source) :=
  match s.peek.bind chomping? with
  | some c =>
    let s := s.skip 1
    match s.peek with
    | some d =>
      if d.isDigit then do return (c, ← increment? d, s.skip 1)
        else some (c, 0, s)
    | none => some (c, 0, s)
  | none =>
    match s.peek with
    | some d =>
      if d.isDigit then do
        let i ← increment? d
        let s := s.skip 1
        match s.peek.bind chomping? with
        | some c => return (c, i, s.skip 1)
        | none => return (.clip, i, s)
      else some (.clip, 0, s)
    | none => some (.clip, 0, s)

/-- Reads empty lines of a block, and the indentation of the first line that is
not empty. If `indent` is zero the indentation is still to be found; `widest` is
the widest seen. -/
def readEmptyLines (indent : Nat) :
    Nat → Nat → List Char → Source → Option (Nat × List Char × Source)
  | 0, _, _, _ => none
  | n + 1, widest, breaks, s =>
    let room := if indent == 0 then s.rest.length else indent - s.column
    let s := s.skip ((s.rest.take room).takeWhile (· == ' ')).length
    let widest := max widest s.column
    if (indent == 0 || s.column < indent) && s.peek == some '\t' then none
    else if s.peek.any isBreak then
      let (b, s) := s.readBreak
      readEmptyLines indent n widest (breaks ++ b) s
    else some (widest, breaks, s)

/-- A block as far as it has been read. -/
structure Block where
  text : List Char := []
  /-- The line end of the last line. -/
  lastBreak : List Char := []
  /-- The empty lines after it. -/
  emptyLines : List Char := []
  /-- Whether the last line starts with a blank; such lines are not folded. -/
  moreIndented : Bool := false

/-- The block with what stands between its last line and the next one. -/
def Block.joined (b : Block) (isLiteral nextMoreIndented : Bool) : List Char :=
  if !isLiteral && b.lastBreak == ['\n'] && !b.moreIndented &&
    !nextMoreIndented then
    b.text ++ (if b.emptyLines.isEmpty then [' '] else []) ++ b.emptyLines
  else b.text ++ b.lastBreak ++ b.emptyLines

/-- Reads the lines of a block that is indented to column `indent`. -/
def readBlockLines (isLiteral : Bool) (indent : Nat) :
    Nat → Block → Source → Option (Block × Source)
  | 0, _, _ => none
  | n + 1, b, s =>
    if s.column == indent && !s.rest.isEmpty then do
      let moreIndented := s.peek.any isBlank
      let line := s.rest.takeWhile (!isBreak ·)
      let (lastBreak, t) := (s.skip line.length).readBreak
      let (_, emptyLines, t) ← readEmptyLines indent (t.rest.length + 1) 0 [] t
      readBlockLines isLiteral indent n
        { text := b.joined isLiteral moreIndented ++ line
          lastBreak
          emptyLines
          moreIndented } t
    else some (b, s)

/-- Reads a block scalar from its indicator on, inside a collection at column
`indent`. -/
def readBlock (isLiteral : Bool) (indent : Int) (s : Source) :
    Option (List Char × Source) := do
  let (chomping, increment, s) ← readBlockHeader (s.skip 1)
  let s := s.skipWhile isBlank
  let s := if s.peek == some '#' then s.skipLine else s
  if !endsLine s.peek then none
  else
    let s := s.skipBreak
    let given := if increment == 0 then 0 else (max indent 0).toNat + increment
    let (widest, emptyLines, s) ← readEmptyLines given
      (s.rest.length + 1) 0 [] s
    let column := if given == 0 then
      max (max widest (indent + 1).toNat) 1 else given
    let (b, s) ← readBlockLines isLiteral column (s.rest.length + 1)
      { emptyLines } s
    let text := match chomping with
      | .strip => b.text
      | .clip => b.text ++ b.lastBreak
      | .keep => b.text ++ b.lastBreak ++ b.emptyLines
    return (text, s)

end Terse.Yaml
