import Terse.Bytes

/-!
# UTF-8

Reading bytes as text. `next` reads one scalar value and rejects exactly the
sequences that the standard calls ill formed: overlong forms, surrogates, values
above U+10FFFF and stray or missing continuation bytes. A rejected sequence is
dropped up to the first byte that could not continue it, which is what lets
`lossy` show one replacement character for each ill-formed part.
-/

namespace Terse.Text.Utf8

/-- What a leading byte promises: its payload bits, the range of the byte after
it, and how many continuation bytes come in all. -/
structure Lead where
  bits : Nat
  low : UInt8
  high : UInt8
  more : Nat

/-- The narrowed ranges after `e0`, `ed`, `f0` and `f4` are what excludes
overlong forms, surrogates and values beyond the last code point. -/
def lead? (b : UInt8) : Option Lead :=
  if b < 0xc2 then none
  else if b < 0xe0 then some ⟨b.toNat % 32, 0x80, 0xbf, 1⟩
  else if b < 0xf0 then
    some ⟨b.toNat % 16, if b = 0xe0 then 0xa0 else 0x80, if b = 0xed then
      0x9f else 0xbf, 2⟩
  else if b < 0xf5 then
    some ⟨b.toNat % 8, if b = 0xf0 then 0x90 else 0x80, if b = 0xf4 then
      0x8f else 0xbf, 3⟩
  else none

/-- Reads `n` continuation bytes, the first of them between `low` and `high`. -/
def continuation (value : Nat) (low high : UInt8) :
    Nat → Bytes → Option Nat × Bytes
  | 0, s => (some value, s)
  | _ + 1, [] => (none, [])
  | n + 1, c :: s =>
    if low ≤ c && c ≤ high then
      continuation (value * 64 + c.toNat % 64) 0x80 0xbf n s
    else (none, c :: s)

theorem length_continuation_le (value : Nat) (low high : UInt8) (n : Nat)
    (s : Bytes) :
    (continuation value low high n s).2.length ≤ s.length := by
  induction n generalizing value low high s with
  | zero => simp [continuation]
  | succ n ih =>
    cases s with
    | nil => simp [continuation]
    | cons c s =>
      simp only [continuation]
      split
      · exact Nat.le_succ_of_le (ih ..)
      · simp

/-- The scalar value that starts with `b`, or `none` for an ill-formed part, and
the bytes after it. -/
def next (b : UInt8) (s : Bytes) : Option Char × Bytes :=
  if b < 0x80 then (some (Char.ofNat b.toNat), s)
  else match lead? b with
    | none => (none, s)
    | some l =>
      let (value, rest) := continuation l.bits l.low l.high l.more s
      (value.map Char.ofNat, rest)

theorem length_next_le (b : UInt8) (s : Bytes) :
    (next b s).2.length ≤ s.length := by
  unfold next
  split
  · simp
  · split
    · simp
    · exact length_continuation_le ..

def decode? : Bytes → Option (List Char)
  | [] => some []
  | b :: s =>
    match h : next b s with
    | (none, _) => none
    | (some c, rest) =>
      have shorter : rest.length ≤ s.length := by
        have := length_next_le b s
        rwa [h] at this
      (decode? rest).map (c :: ·)
termination_by s => s.length
decreasing_by exact Nat.lt_succ_of_le shorter

/-- The characters of `s`, with U+FFFD for each ill-formed part. -/
def lossy : Bytes → List Char
  | [] => []
  | b :: s =>
    (next b s).1.getD '\uFFFD' :: lossy (next b s).2
termination_by s => s.length
decreasing_by exact Nat.lt_succ_of_le (length_next_le b s)

def toString? (s : Bytes) : Option String := (decode? s).map String.ofList

/-- Why bytes are no text: where the first ill-formed part starts, and how long
it is, unless the end cuts it short. -/
structure Flaw where
  offset : Nat
  length? : Option Nat
  deriving DecidableEq, Repr

def Flaw.message : Flaw → String
  | ⟨n, some k⟩ =>
    "invalid utf-8 sequence of " ++ toString k ++
    " bytes from index " ++ toString n
  | ⟨n, none⟩ => "incomplete utf-8 byte sequence from index " ++ toString n

/-- Where reading bytes that start at `offset` gets no further. If they have no
flaw, that is their end. -/
def flaw (offset : Nat) : Bytes → Flaw
  | [] => ⟨offset, none⟩
  | b :: s =>
    let taken := s.length + 1 - (next b s).2.length
    if (next b s).1.isSome then flaw (offset + taken) (next b s).2
    else ⟨offset, if (lead? b).isSome && (next b s).2.isEmpty then
      none else some taken⟩
termination_by s => s.length
decreasing_by exact Nat.lt_succ_of_le (length_next_le b s)

def display (s : Bytes) : String := String.ofList (lossy s)

/-- Whether position `n` of `s` is where a character starts or `s` ends. -/
def isBoundary (s : Bytes) (n : Nat) : Bool :=
  match s.drop n with
  | [] => n ≤ s.length
  | b :: _ => b < 0x80 || 0xc0 ≤ b

end Terse.Text.Utf8
