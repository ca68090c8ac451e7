import Mathlib.Tactic.IntervalCases
import Terse.Text.Utf8

/-!
# Reading back UTF-8

Reading is stricter than writing has to be: a leading byte narrows the range of
the byte after it, so that no character has two forms. What is written for a
character is always within these ranges, and reading it gives the character and
leaves what follows (`exists_next_encode`). A text is then read back whole
(`toString?_ofString`).
-/

namespace Terse.Text.Utf8

/-! ### Leading and continuation bytes -/

theorem lead?_two {n : Nat} (hlow : 2 ≤ n) (hhigh : n < 32) :
    lead? (UInt8.ofNat (n + 0xc0)) = some ⟨n, 0x80, 0xbf, 1⟩ := by
  interval_cases n <;> rfl

theorem lead?_three {n : Nat} (h : n < 16) :
    lead? (UInt8.ofNat (n + 0xe0)) =
      some ⟨n, if n = 0 then 0xa0 else 0x80, if n = 13 then
        0x9f else 0xbf, 2⟩ := by
  interval_cases n <;> rfl

theorem lead?_four {n : Nat} (h : n < 5) :
    lead? (UInt8.ofNat (n + 0xf0)) =
      some ⟨n, if n = 0 then 0x90 else 0x80, if n = 4 then
        0x8f else 0xbf, 3⟩ := by
  interval_cases n <;> rfl

theorem continuation_cons {value n : Nat} {low high : UInt8} (hn : n < 64)
    (hlow : low.toNat ≤ n + 0x80) (hhigh : n + 0x80 ≤ high.toNat) (more : Nat)
    (s : Bytes) :
    continuation value low high (more + 1) (UInt8.ofNat (n + 0x80) :: s) =
      continuation (value * 64 + n) 0x80 0xbf more s := by
  have hbyte : (UInt8.ofNat (n + 0x80)).toNat = n + 0x80 := by
    rw [UInt8.toNat_ofNat']; omega
  have hbits : (n + 0x80) % 64 = n := by omega
  have hrange :
      (low ≤ UInt8.ofNat (n + 0x80) && UInt8.ofNat (n + 0x80) ≤ high) =
        true := by
    simp only [UInt8.le_iff_toNat_le, hbyte, hlow, hhigh, decide_true,
      Bool.and_self]
  rw [continuation, hrange, if_pos rfl, hbyte, hbits]

theorem next_of_lead? {b : UInt8} {l : Lead} (h : 0x80 ≤ b.toNat)
    (hl : lead? b = some l) (s : Bytes) :
    next b s = ((continuation l.bits l.low l.high l.more s).1.map Char.ofNat,
      (continuation l.bits l.low l.high l.more s).2) := by
  have hb : ¬ b < 0x80 := by
    rw [UInt8.lt_iff_toNat_lt]
    exact Nat.not_lt.mpr h
  rw [next, if_neg hb, hl]

/-! ### Characters and texts -/

theorem encode_ascii_or (c : Char) :
    String.utf8EncodeChar c = [UInt8.ofNat c.val.toNat] ∧ c.val.toNat < 0x80 ∨
      ∀ b ∈ String.utf8EncodeChar c, 0x80 ≤ b.toNat := by
  rw [String.utf8EncodeChar]
  split
  · next h => exact .inl ⟨rfl, Nat.lt_succ_of_le h⟩
  · refine .inr fun b hb => ?_
    split at hb
    · simp only [List.mem_cons, List.not_mem_nil, or_false] at hb
      rcases hb with rfl | rfl <;> (rw [UInt8.toNat_ofNat']; omega)
    · split at hb
      · simp only [List.mem_cons, List.not_mem_nil, or_false] at hb
        rcases hb with rfl | rfl | rfl <;> (rw [UInt8.toNat_ofNat']; omega)
      · simp only [List.mem_cons, List.not_mem_nil, or_false] at hb
        rcases hb with
          rfl | rfl | rfl | rfl <;> (rw [UInt8.toNat_ofNat']; omega)

/-- What is written for a character is read as that character, whatever
follows. -/
theorem exists_next_encode (c : Char) :
    ∃ b s, String.utf8EncodeChar c = b :: s ∧ ∀ rest, next b (s ++ rest) =
      (some c, rest) := by
  have hvalid : c.val.toNat < 0xd800 ∨ 0xdfff < c.val.toNat ∧
      c.val.toNat < 0x110000 := c.valid
  have hchar : Char.ofNat c.val.toNat = c := Char.ofNat_toNat c
  rw [String.utf8EncodeChar]
  generalize c.val.toNat = v at hvalid hchar ⊢
  -- One case for each length. With three and four bytes the first continuation
  -- byte has the narrowed range: the
  -- lower bound holds because a shorter form would have done, the upper one
  -- because `v` is a scalar value.
  split
  · next h =>
    refine ⟨_, _, rfl, fun rest => ?_⟩
    have hbyte : (UInt8.ofNat v).toNat = v := by rw [UInt8.toNat_ofNat']; omega
    have hlow : UInt8.ofNat v < 0x80 := by
      rw [UInt8.lt_iff_toNat_lt, hbyte]
      exact Nat.lt_succ_of_le h
    rw [next, if_pos hlow, hbyte, hchar]
    rfl
  split
  · next h₁ h₂ =>
    have hbits : v / 64 % 32 * 64 + v % 64 = v := by omega
    refine ⟨_, _, rfl, fun rest => ?_⟩
    rw [next_of_lead? (by rw [UInt8.toNat_ofNat']; omega)
      (lead?_two (by omega) (by omega)),
      List.cons_append, continuation_cons (by omega) (by simp)
        (by simp; omega), hbits]
    simp only [continuation, Option.map_some, hchar, List.nil_append]
  split
  · next h₁ h₂ h₃ =>
    have hbits : (v / 4096 % 16 * 64 + v / 64 % 64) * 64 + v % 64 = v := by
      omega
    refine ⟨_, _, rfl, fun rest => ?_⟩
    rw [next_of_lead? (by rw [UInt8.toNat_ofNat']; omega)
      (lead?_three (by omega)),
      List.cons_append, List.cons_append, continuation_cons (by omega) ?_ ?_,
      continuation_cons (by omega) (by simp) (by simp; omega), hbits]
    · simp only [continuation, Option.map_some, hchar, List.nil_append]
    · dsimp only
      split
      · simp
        omega
      · simp
    · dsimp only
      split
      · simp
        omega
      · simp
        omega
  · next h₁ h₂ h₃ =>
    have hbits : ((v / 262144 % 8 * 64 + v / 4096 % 64) * 64 + v / 64 % 64) *
        64 + v % 64 = v := by omega
    refine ⟨_, _, rfl, fun rest => ?_⟩
    rw [next_of_lead? (by rw [UInt8.toNat_ofNat']; omega)
      (lead?_four (by omega)),
      List.cons_append, List.cons_append, List.cons_append,
        continuation_cons (by omega) ?_ ?_,
      continuation_cons (by omega) (by simp) (by simp; omega),
      continuation_cons (by omega) (by simp) (by simp; omega), hbits]
    · simp only [continuation, Option.map_some, hchar, List.nil_append]
    · dsimp only
      split
      · simp
        omega
      · simp
    · dsimp only
      split
      · simp
        omega
      · simp
        omega

theorem decode?_encode (cs : List Char) :
    decode? (cs.flatMap String.utf8EncodeChar) = some cs := by
  induction cs with
  | nil => simp [decode?]
  | cons c cs ih =>
    obtain ⟨b, s, hencode, hnext⟩ := exists_next_encode c
    rw [List.flatMap_cons, hencode, List.cons_append, decode?]
    split
    · next heq =>
      rw [hnext] at heq
      cases heq
    · next heq =>
      rw [hnext] at heq
      cases heq
      rw [ih]
      rfl

theorem toString?_ofString (s : String) :
    toString? (Bytes.ofString s) = some s := by
  rw [toString?, Bytes.ofString, decode?_encode, Option.map_some,
    String.ofList_toList]

end Terse.Text.Utf8
