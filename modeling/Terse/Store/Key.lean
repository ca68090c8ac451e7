import Terse.Digest.Sha256
import Terse.Script.Minify
import Terse.Text.Utf8

/-!
# Keys

A stored output is found by the digest of what it was made from: a format salt,
one byte for the reading option, and the source. Two sources share a key only if
their digests collide, so a key stands for both the source and the way it was
read.

A key is text, because entries name theirs and may have been written by anyone.
Keys made by `derive` are 64 hexadecimal digits; of any other text only the
first two bytes matter here, which name the directory (`shard?`) it is kept in.
A text that is too short, or whose second byte does not end a character, has
none.
-/

namespace Terse.Store

structure Key where
  text : String
  deriving DecidableEq, Repr

namespace Key

/-- Marks the format of the store, so that a change of format changes every
key. -/
def salt : Bytes := Bytes.ofAscii "jsqueeze-cache-v1"

def preimage (o : Script.Options) (source : Bytes) : Bytes :=
  salt ++ (if o.regexAfterKeywords then 1 else 0) :: source

def derive (o : Script.Options) (source : Bytes) : Key :=
  ⟨String.ofList (Bytes.hex (Digest.Sha256.digest (preimage o source)))⟩

def bytes (k : Key) : Bytes := Bytes.ofString k.text

/-- The first two bytes of the key, if they are whole characters. -/
def shard? (k : Key) : Option Bytes :=
  if 2 ≤ k.bytes.length && Text.Utf8.isBoundary k.bytes 2 then
    some (k.bytes.take 2) else none

def le (a b : Key) : Bool := Bytes.le a.bytes b.bytes

theorem preimage_inj {o o' : Script.Options} {s s' : Bytes}
    (h : preimage o s = preimage o' s') :
    o = o' ∧ s = s' := by
  have h' := List.append_cancel_left h
  injection h' with hb hs
  obtain ⟨a⟩ := o
  obtain ⟨b⟩ := o'
  have hab : a = b := by
    cases a <;> cases b <;> simp_all
  exact ⟨by rw [hab], hs⟩

end Key

end Terse.Store
