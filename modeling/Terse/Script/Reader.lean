import Terse.Script.Fault
import Terse.Script.Gap

/-!
# The reader

A `Reader` holds the bytes still to be read, the offset of the first of them,
and at most one byte that was put back in front. Putting back is how a comment
disappears: a line comment is replaced by the line feed that ended it and a
block comment by a space, so a run of blanks and comments is read as a run of
blanks. `offset` and `rest` speak of the input only and do not count the byte
that was put back.

`weight` is what every way of reading on decreases. A byte of the input weighs
two and the byte put back one, so replacing a comment, which is at least two
bytes long, by a single byte is progress.
-/

namespace Terse.Script

structure Reader where
  offset : Nat := 0
  slot : Option UInt8 := none
  rest : Bytes
  deriving DecidableEq, Repr

namespace Reader

def ofBytes (s : Bytes) : Reader where rest := s

def pending (r : Reader) : Bytes := r.slot.toList ++ r.rest

def peek (r : Reader) : Option UInt8 := r.slot <|> r.rest.head?

def second (r : Reader) : Option UInt8 :=
  match r.slot with
  | some _ => r.rest.head?
  | none => r.rest.tail.head?

def next? (r : Reader) : Option (UInt8 × Reader) :=
  match r.slot, r.rest with
  | some b, _ => some (b, { r with slot := none })
  | none, b :: s => some (b, { r with offset := r.offset + 1, rest := s })
  | none, [] => none

def skip (r : Reader) (n : Nat) : Reader :=
  { r with offset := r.offset + (r.rest.take n).length, rest := r.rest.drop n }

def putBack (r : Reader) (b : UInt8) : Reader := { r with slot := some b }

def weight (r : Reader) : Nat := 2 * r.rest.length + r.slot.toList.length

/-! ### Reading one byte -/

theorem peek_eq_head?_pending (r : Reader) : r.peek = r.pending.head? := by
  cases h : r.slot <;> simp [peek, pending, h]

theorem pending_of_next? {r r' : Reader} {b : UInt8}
    (h : r.next? = some (b, r')) :
    r.pending = b :: r'.pending := by
  unfold next? at h
  split at h
  · next hs =>
    obtain ⟨rfl, rfl⟩ := by simpa using h
    simp [pending, hs]
  · next hs hr =>
    obtain ⟨rfl, rfl⟩ := by simpa using h
    simp [pending, hs, hr]
  · simp at h

theorem slot_of_next? {r r' : Reader} {b : UInt8} (h : r.next? = some (b, r')) :
    r'.slot = none := by
  unfold next? at h
  split at h
  · obtain ⟨rfl, rfl⟩ := by simpa using h
    rfl
  · next hs _ =>
    obtain ⟨rfl, rfl⟩ := by simpa using h
    exact hs
  · simp at h

theorem weight_of_next? {r r' : Reader} {b : UInt8}
    (h : r.next? = some (b, r')) :
    r'.weight < r.weight := by
  unfold next? at h
  split at h
  · next hs =>
    obtain ⟨rfl, rfl⟩ := by simpa using h
    simp [weight, hs]
  · next hs hr =>
    obtain ⟨rfl, rfl⟩ := by simpa using h
    simp [weight, hs, hr]
  · simp at h

theorem weight_skip_le (r : Reader) (n : Nat) :
    (r.skip n).weight ≤ r.weight := by
  simp only [weight, skip, List.length_drop]; omega

/-! ### Comments -/

/-- How many bytes a line takes, its line feed included if it has one. -/
def lineSpan : Bytes → Nat
  | [] => 0
  | b :: s => if b == lineFeed then 1 else lineSpan s + 1

def blockSpan? : Bytes → Option Nat
  | [] => none
  | b :: s =>
    if b == star && s.head? == some slash then
      some 2 else (blockSpan? s).map (· + 1)

/-- Leaves out the line comment that starts here; the line feed is put back. -/
def skipLineComment (r : Reader) : Reader :=
  (r.skip (2 + lineSpan (r.rest.drop 2))).putBack lineFeed

/-- Leaves out the block comment that starts here and puts back a space. The
closing `*/` is looked for after the opening `/*`, so the two never share a
star. -/
def skipBlockComment (r : Reader) : Except Fault Reader :=
  match blockSpan? (r.rest.drop 2) with
  | some n => .ok ((r.skip (2 + n)).putBack space)
  | none => .error (.openComment r.offset)

def skipComment? (r : Reader) : Except Fault (Option Reader) :=
  if r.peek = some slash ∧ r.second = some slash then
    .ok (some r.skipLineComment)
  else if r.peek = some slash ∧ r.second = some star then
    r.skipBlockComment.map some
  else .ok none

theorem weight_skip_putBack {r : Reader} {b c : UInt8} (h : r.second = some c)
    (n : Nat) :
    ((r.skip (2 + n)).putBack b).weight < r.weight := by
  unfold second at h
  split at h
  · next hs =>
    rcases hr : r.rest with _ | ⟨x, s⟩
    · simp [hr] at h
    · simp [weight, skip, putBack, hr, hs]; omega
  · next hs =>
    rcases hr : r.rest with _ | ⟨x, _ | ⟨y, s⟩⟩
    · simp [hr] at h
    · simp [hr] at h
    · simp [weight, skip, putBack, hr, hs]; omega

theorem weight_of_skipComment? {r r' : Reader}
    (h : r.skipComment? = .ok (some r')) :
    r'.weight < r.weight := by
  unfold skipComment? at h
  split at h
  · next hc =>
    obtain rfl : r.skipLineComment = r' := by simpa using h
    exact weight_skip_putBack hc.2 _
  · split at h
    · next hc =>
      unfold skipBlockComment at h
      split at h
      · next n _ =>
        obtain rfl : (r.skip (2 + n)).putBack space = r' := by
          simpa [Except.map] using h
        exact weight_skip_putBack hc.2 _
      · simp [Except.map] at h
    · simp at h

/-! ### Runs -/

/-- Reads a run of blanks and comments to its end. The fault of an unclosed
comment leaves the reader in front of that comment, the blanks before it already
taken. -/
def collapse (r : Reader) (g : Gap) : Except Fault Gap × Reader :=
  match h : r.next? with
  | none => (.ok g, r)
  | some (b, r') =>
    if isBlank b then
      have := weight_of_next? h
      collapse r' (g.widen b)
    else match hc : r.skipComment? with
      | .error f => (.error f, r)
      | .ok none => (.ok g, r)
      | .ok (some r'') =>
        have := weight_of_skipComment? hc
        collapse r'' g
termination_by r.weight

theorem weight_collapse_le (r : Reader) (g : Gap) :
    (r.collapse g).2.weight ≤ r.weight := by
  fun_induction collapse r g with
  | case1 => simp
  | case2 r g b r' h _ hlt ih => omega
  | case3 => simp
  | case4 => simp
  | case5 r g b r' h _ r'' hc hlt ih => omega

/-! ### Literals -/

/-- How many bytes a literal takes after its opening delimiter `d`, through the
one that closes it. A backslash takes the byte after it along, whatever that is;
hence a literal opened by a backslash never closes. -/
def literalSpan? (d : UInt8) : Bytes → Option Nat
  | [] => none
  | b :: s =>
    if b == backslash then
      match s with
      | [] => none
      | _ :: t => (literalSpan? d t).map (· + 2)
    else if b == d then some 1
    else (literalSpan? d s).map (· + 1)

/-- What reading a literal gives: the bytes to copy, the reader after them, and
the fault if the literal is not closed, in which case the bytes are all that was
left. -/
structure Copied where
  bytes : Bytes
  reader : Reader
  fault? : Option Fault := none

/-- Reads the literal opened by the next byte. At the end of the input there is
none, and nothing is read. -/
def literal (r : Reader) : Copied :=
  match r.next? with
  | none => ⟨[], r, none⟩
  | some (d, r') =>
    match literalSpan? d r'.rest with
    | some n => ⟨d :: r'.rest.take n, r'.skip n, none⟩
    | none =>
      ⟨d :: r'.rest, r'.skip r'.rest.length, some (.openLiteral r.offset d)⟩

theorem weight_literal_lt {r r' : Reader} {b : UInt8}
    (h : r.next? = some (b, r')) :
    r.literal.reader.weight < r.weight := by
  have hw := weight_of_next? h
  unfold literal
  rw [h]
  dsimp only
  split
  · exact Nat.lt_of_le_of_lt (weight_skip_le ..) hw
  · exact Nat.lt_of_le_of_lt (weight_skip_le ..) hw

end Reader

end Terse.Script
