import Terse.Text.Utf8

/-!
# JSON text

The parts of the JSON grammar that records need: strings and unsigned numbers,
and a way to pass over a value of any kind. Input is bytes. A string that is
read has to be UTF-8 and its escapes have to name characters; a value that is
only passed over is held to the grammar alone.

Every reader takes the bytes from where it starts and gives what it read and the
bytes after it.
-/

namespace Terse.Text.Json

def isSpace (b : UInt8) : Bool :=
  b == 0x20 || b == 0x0a || b == 0x09 || b == 0x0d

def skipSpace (s : Bytes) : Bytes := s.dropWhile isSpace

def isDigit (b : UInt8) : Bool := 0x30 ≤ b && b ≤ 0x39

/-! ### Writing -/

def escape (c : Char) : List Char :=
  if c = '"' then ['\\', '"']
  else if c = '\\' then ['\\', '\\']
  else if c = '\n' then ['\\', 'n']
  else if c = '\r' then ['\\', 'r']
  else if c = '\t' then ['\\', 't']
  else if c.toNat = 0x08 then ['\\', 'b']
  else if c.toNat = 0x0c then ['\\', 'f']
  else if c.toNat < 0x20 then
    ['\\', 'u', '0', '0', Bytes.hexDigit (c.toNat / 16),
      Bytes.hexDigit (c.toNat % 16)]
  else [c]

def quote (s : String) : String :=
  String.ofList ('"' :: s.toList.flatMap escape ++ ['"'])

/-! ### Reading strings -/

def hexValue? (b : UInt8) : Option Nat :=
  if isDigit b then some (b.toNat - 0x30)
  else if 0x61 ≤ b && b ≤ 0x66 then some (b.toNat - 0x57)
  else if 0x41 ≤ b && b ≤ 0x46 then some (b.toNat - 0x37)
  else none

def hexUnit? : Bytes → Option (Nat × Bytes)
  | a :: b :: c :: d :: s => do
    let a ← hexValue? a
    let b ← hexValue? b
    let c ← hexValue? c
    let d ← hexValue? d
    return (((a * 16 + b) * 16 + c) * 16 + d, s)
  | _ => none

def isHighSurrogate (n : Nat) : Bool := 0xd800 ≤ n && n < 0xdc00

def isLowSurrogate (n : Nat) : Bool := 0xdc00 ≤ n && n < 0xe000

/-- The character that a `\u` escape names, after the `u`. A high surrogate
needs the low one right behind it. -/
def unicodeEscape? (s : Bytes) : Option (Char × Bytes) := do
  let (n, s) ← hexUnit? s
  if isLowSurrogate n then none
  else if isHighSurrogate n then
    match s with
    | 0x5c :: 0x75 :: t =>
      let (m, t) ← hexUnit? t
      if isLowSurrogate m then
        some (Char.ofNat (0x10000 + (n - 0xd800) * 0x400 + (m - 0xdc00)), t)
      else none
    | _ => none
  else some (Char.ofNat n, s)

def simpleEscape? (b : UInt8) : Option UInt8 :=
  if b == 0x22 || b == 0x5c || b == 0x2f then some b
  else if b == 0x62 then some 0x08
  else if b == 0x66 then some 0x0c
  else if b == 0x6e then some 0x0a
  else if b == 0x72 then some 0x0d
  else if b == 0x74 then some 0x09
  else none

/-- The bytes a string stands for, after its opening quote, with at most `n`
characters and escapes. -/
def stringBytes? : Nat → Bytes → Option (Bytes × Bytes)
  | 0, _ => none
  | n + 1, s =>
    match s with
    | [] => none
    | 0x22 :: t => some ([], t)
    | 0x5c :: 0x75 :: t => do
      let (c, t) ← unicodeEscape? t
      let (out, t) ← stringBytes? n t
      return (String.utf8EncodeChar c ++ out, t)
    | 0x5c :: e :: t => do
      let b ← simpleEscape? e
      let (out, t) ← stringBytes? n t
      return (b :: out, t)
    | b :: t =>
      if b < 0x20 || b == 0x5c then none
      else do
        let (out, t) ← stringBytes? n t
        return (b :: out, t)

def string? : Bytes → Option (String × Bytes)
  | 0x22 :: s => do
    let (out, t) ← stringBytes? (s.length + 1) s
    return (← Utf8.toString? out, t)
  | _ => none

/-! ### Reading numbers -/

/-- An unsigned number below `bound`: no sign, fraction, exponent or leading
zero. -/
def natural? (bound : Nat) (s : Bytes) : Option (Nat × Bytes) :=
  let digits := s.takeWhile isDigit
  let rest := s.dropWhile isDigit
  let value := digits.foldl (fun n b => n * 10 + (b.toNat - 0x30)) 0
  if digits.isEmpty || (digits.head? == some 0x30 && 1 < digits.length) ||
    bound ≤ value then none
  else match rest.head? with
    | some b =>
      if b == 0x2e || b == 0x65 || b == 0x45 then none else some (value, rest)
    | none => some (value, rest)

/-! ### Passing over a value -/

def skipString? : Nat → Bytes → Option Bytes
  | 0, _ => none
  | n + 1, s =>
    match s with
    | [] => none
    | 0x22 :: t => some t
    | 0x5c :: 0x75 :: t => do
      let (_, t) ← hexUnit? t
      skipString? n t
    | 0x5c :: e :: t => do
      let _ ← simpleEscape? e
      skipString? n t
    | b :: t => if b < 0x20 || b == 0x5c then none else skipString? n t

def skipDigits? (s : Bytes) : Option Bytes :=
  match s with
  | b :: t => if isDigit b then some (t.dropWhile isDigit) else none
  | [] => none

def skipExponent? (s : Bytes) : Option Bytes :=
  match s with
  | b :: t =>
    if b == 0x65 || b == 0x45 then
      match t with
      | c :: u =>
        if c == 0x2b || c == 0x2d then skipDigits? u else skipDigits? t
      | [] => none
    else some s
  | [] => some []

def skipFraction? (s : Bytes) : Option Bytes :=
  match s with
  | 0x2e :: t => skipDigits? t >>= skipExponent?
  | _ => skipExponent? s

def skipNumber? (s : Bytes) : Option Bytes :=
  let unsigned : Bytes → Option Bytes
    | 0x30 :: t =>
      match t with
      | b :: _ => if isDigit b then none else skipFraction? t
      | [] => some []
    | t => skipDigits? t >>= skipFraction?
  match s with
  | 0x2d :: t => unsigned t
  | _ => unsigned s

def skipWord? (w : String) (s : Bytes) : Option Bytes :=
  let word := Bytes.ofAscii w
  if word.isPrefixOf s then some (s.drop word.length) else none

/-- Passes over anything that is neither an array nor an object. -/
def skipAtom? (s : Bytes) : Option Bytes :=
  match s with
  | 0x22 :: t => skipString? (t.length + 1) t
  | 0x6e :: _ => skipWord? "null" s
  | 0x74 :: _ => skipWord? "true" s
  | 0x66 :: _ => skipWord? "false" s
  | _ => skipNumber? s

inductive Bracket where
  | array
  | object
  deriving DecidableEq, Repr

/-- Where the scan stands: in front of a value, right after an opening bracket,
or right after a value. -/
inductive Position where
  | value
  | opened
  | closed

def skipMemberName? (s : Bytes) : Option Bytes :=
  match skipSpace s with
  | 0x22 :: t => do
    match skipSpace (← skipString? (t.length + 1) t) with
    | 0x3a :: u => some u
    | _ => none
  | _ => none

/-- Passes over a value inside the open brackets `stack`, in at most `n` moves.
Nesting is kept in the stack, so its depth is not limited. -/
def skipNested? : Nat → Position → List Bracket → Bytes → Option Bytes
  | 0, _, _, _ => none
  | _ + 1, .closed, [], s => some s
  | n + 1, .value, stack, s =>
    match skipSpace s with
    | 0x5b :: t => skipNested? n .opened (.array :: stack) t
    | 0x7b :: t => skipNested? n .opened (.object :: stack) t
    | t => skipAtom? t >>= skipNested? n .closed stack
  | _ + 1, .opened, [], _ => none
  | n + 1, .opened, .array :: stack, s =>
    match skipSpace s with
    | 0x5d :: t => skipNested? n .closed stack t
    | t => skipNested? n .value (.array :: stack) t
  | n + 1, .opened, .object :: stack, s =>
    match skipSpace s with
    | 0x7d :: t => skipNested? n .closed stack t
    | t => skipMemberName? t >>= skipNested? n .value (.object :: stack)
  | n + 1, .closed, .array :: stack, s =>
    match skipSpace s with
    | 0x2c :: t => skipNested? n .value (.array :: stack) t
    | 0x5d :: t => skipNested? n .closed stack t
    | _ => none
  | n + 1, .closed, .object :: stack, s =>
    match skipSpace s with
    | 0x2c :: t => skipMemberName? t >>= skipNested? n .value (.object :: stack)
    | 0x7d :: t => skipNested? n .closed stack t
    | _ => none

def skipValue? (s : Bytes) : Option Bytes :=
  skipNested? (2 * s.length + 2) .value [] s

end Terse.Text.Json
