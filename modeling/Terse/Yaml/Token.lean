import Terse.Bytes
import Terse.Yaml.Scalar

/-!
# YAML tokens

The words of the YAML grammar. Indentation is expressed by tokens of its own,
which start and end block collections. Tags are kept as bytes, since they may
spell out bytes by number.
-/

namespace Terse.Yaml

inductive Token where
  | version (major minor : Nat)
  | tagHandle (handle : List Char) (expansion : Bytes)
  | documentStart
  | documentEnd
  | blockSequenceStart
  | blockMappingStart
  | blockEnd
  | flowSequenceStart
  | flowSequenceEnd
  | flowMappingStart
  | flowMappingEnd
  | blockEntry
  | flowEntry
  | key
  | value
  | alias (name : List Char)
  | anchor (name : List Char)
  | tag (handle : List Char) (suffix : Bytes)
  | scalar (style : Style) (text : List Char)
  | streamEnd
  deriving DecidableEq, Repr

/-! ### Names and tags -/

def endsName (c : Option Char) : Bool :=
  endsWord c || c.any fun c =>
    c == '?' || c == ':' || c == ',' || c == ']' || c.toNat == 0x7d ||
      c == '%' || c == '@' || c.toNat == 0x60

def readName (s : Source) : Option (List Char × Source) :=
  let s := s.skip 1
  let name := s.rest.takeWhile isNameChar
  let s := s.skip name.length
  if name.isEmpty || !endsName s.peek then none else some (name, s)

/-- Reads a tag handle: `!`, `!!` or `!name!`. Without its closing mark it may
be no handle but the start of a tag; in a directive only `!` may lack one. -/
def readHandle (inDirective : Bool) (s : Source) :
    Option (List Char × Source) :=
  if s.peek != some '!' then none
  else
    let s := s.skip 1
    let name := s.rest.takeWhile isNameChar
    let s := s.skip name.length
    if s.peek == some '!' then some ('!' :: name ++ ['!'], s.skip 1)
    else if inDirective && !name.isEmpty then none
    else some ('!' :: name, s)

def formLength? (b : Nat) : Option Nat :=
  if b < 0x80 then some 1
  else if b / 32 == 6 then some 2
  else if b / 16 == 14 then some 3
  else if b / 8 == 30 then some 4
  else none

/-- Reads bytes spelled out by number: the `n` that continue a character. -/
def readContinuation : Nat → Source → Option (Bytes × Source)
  | 0, s => some ([], s)
  | n + 1, s =>
    if s.peek != some '%' then none
    else do
      let b ← hexNumber? 2 (s.skip 1).rest
      if b / 64 != 2 then none
      else
        let (bs, s) ← readContinuation n (s.skip 3)
        return (UInt8.ofNat b :: bs, s)

def readSpelled (s : Source) : Option (Bytes × Source) := do
  let b ← hexNumber? 2 (s.skip 1).rest
  let n ← formLength? b
  let (bs, s) ← readContinuation (n - 1) (s.skip 3)
  return (UInt8.ofNat b :: bs, s)

/-- The characters of a tag; `verbatim` ones may hold some more. -/
def isTagChar (verbatim : Bool) (c : Char) : Bool :=
  isNameChar c || c == ';' || c == '/' || c == '?' || c == ':' || c == '@' ||
    c == '&' || c == '=' ||
    c == '+' || c == '$' || c == '.' || c == '%' || c == '!' || c == '~' ||
      c == '*' || c == '\'' ||
    c == '(' || c == ')' || (verbatim && (c == ',' || c == '[' || c == ']'))

def readTagText (verbatim : Bool) : Nat → Source → Option (Bytes × Source)
  | 0, _ => none
  | n + 1, s =>
    match s.peek with
    | none => some ([], s)
    | some c =>
      if !isTagChar verbatim c then some ([], s)
      else if c == '%' then do
        let (b, s) ← readSpelled s
        let (bs, s) ← readTagText verbatim n s
        return (b ++ bs, s)
      else do
        let (bs, s) ← readTagText verbatim n (s.skip 1)
        return (String.utf8EncodeChar c ++ bs, s)

/-- The text of a tag, which must not be empty unless something of it was read
before. -/
def readTagText? (verbatim : Bool) (before : List Char) (s : Source) :
    Option (Bytes × Source) := do
  let (bs, t) ← readTagText verbatim (s.rest.length + 1) s
  if before.isEmpty && bs.isEmpty then none
  else return ((before.drop 1).flatMap String.utf8EncodeChar ++ bs, t)

/-- Reads a tag as handle and suffix. A verbatim tag has an empty handle, and so
has the tag `!`. -/
def readTag (flow : Bool) (s : Source) : Option (Token × Source) := do
  let (token, s) ←
    if s.ahead 1 == some '<' then do
      let (suffix, s) ← readTagText? true [] (s.skip 2)
      if s.peek == some '>' then some (Token.tag [] suffix, s.skip 1) else none
    else do
      let (handle, s) ← readHandle false s
      if 1 < handle.length && handle.getLast? == some '!' then
        let (suffix, s) ← readTagText? false [] s
        some (Token.tag handle suffix, s)
      else
        let (suffix, s) ← readTagText? false handle s
        if suffix.isEmpty then some (Token.tag [] (Bytes.ofAscii "!"), s)
        else some (Token.tag ['!'] suffix, s)
  if endsWord s.peek || (flow && s.peek == some ',') then
    some (token, s) else none

/-! ### Directives -/

def readVersionNumber (s : Source) : Option (Nat × Source) :=
  let digits := s.rest.takeWhile Char.isDigit
  if digits.isEmpty || 9 < digits.length then none
  else some (digits.foldl (fun n c => n * 10 + (c.toNat - 0x30)) 0,
    s.skip digits.length)

def readVersion (s : Source) : Option (Token × Source) := do
  let (major, s) ← readVersionNumber (s.skipWhile isBlank)
  if s.peek != some '.' then none
  else
    let (minor, s) ← readVersionNumber (s.skip 1)
    return (.version major minor, s)

def readTagDirective (s : Source) : Option (Token × Source) := do
  let (handle, s) ← readHandle true (s.skipWhile isBlank)
  if !s.peek.any isBlank then none
  else
    let (expansion, s) ← readTagText? true [] (s.skipWhile isBlank)
    if endsWord s.peek then some (.tagHandle handle expansion, s) else none

def readDirective (s : Source) : Option (Token × Source) := do
  let s := s.skip 1
  let name := s.rest.takeWhile isNameChar
  let s := s.skip name.length
  if name.isEmpty || !endsWord s.peek then none
  else
    let (token, s) ←
      if name == "YAML".toList then readVersion s
      else if name == "TAG".toList then readTagDirective s
      else none
    let s := s.skipWhile isBlank
    let s := if s.peek == some '#' then s.skipLine else s
    if endsLine s.peek then some (token, s.skipBreak) else none

end Terse.Yaml
