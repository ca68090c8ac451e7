/-!
# Byte sequences

Sources, outputs and paths are plain sequences of bytes: nothing in the library
assumes that they are text. A list is used rather than an array because every
pass over them is a left-to-right recursion. The order `Bytes.le` is the one
directory listings and key listings are sorted by.
-/

namespace Terse

abbrev Bytes := List UInt8

namespace Bytes

def ofAscii (s : String) : Bytes := s.toList.map Char.toUInt8

def ofString (s : String) : Bytes := s.toList.flatMap String.utf8EncodeChar

def le : Bytes → Bytes → Bool
  | [], _ => true
  | _ :: _, [] => false
  | a :: s, b :: t => a < b || (a == b && le s t)

@[simp] theorem le_nil_left (t : Bytes) : le [] t = true := by cases t <;> rfl

@[simp] theorem le_cons_nil (a : UInt8) (s : Bytes) : le (a :: s) [] = false :=
  rfl

theorem le_cons_cons (a b : UInt8) (s t : Bytes) :
    le (a :: s) (b :: t) = (decide (a < b) || (a == b && le s t)) := rfl

theorem le_refl (s : Bytes) : le s s = true := by
  induction s with
  | nil => rfl
  | cons a s ih => simp [le_cons_cons, ih]

def hexDigit (n : Nat) : Char :=
  if n < 10 then Char.ofNat (0x30 + n) else Char.ofNat (0x57 + n)

def hex (s : Bytes) : List Char :=
  s.flatMap fun b => [hexDigit (b.toNat / 16), hexDigit (b.toNat % 16)]

@[simp] theorem hex_nil : hex [] = [] := rfl

theorem hex_cons (b : UInt8) (s : Bytes) :
    hex (b :: s) = hexDigit (b.toNat / 16) :: hexDigit (b.toNat % 16) ::
      hex s := rfl

end Bytes

end Terse
