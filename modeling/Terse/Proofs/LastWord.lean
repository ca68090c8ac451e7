import Mathlib.Data.List.DropRight
import Terse.Proofs.Cut

/-!
# The keyword rule and the last word

`endsInWord` compares a keyword with the end of the output and looks at one byte
more. A keyword may end in another one, and so may any name, so that a match
alone says little. The rule is one about the last word all the same: it holds
exactly if the longest stretch of word bytes at the end is a keyword and not the
name of a property (`endsInKeyword_reverse_iff_lastWord`). All bytes of a
keyword are word bytes, so a match behind a byte that is none is that longest
stretch.

`Indexed` is the rule with the byte in front of a match looked up by its place
in the output, where a place that is not there would be a fault. It is never
met.
-/

namespace Terse.Script

/-- The longest stretch of word bytes at the end of an output. -/
def lastWord (out : Bytes) : Bytes := out.rtakeWhile isWord

def beforeLastWord (out : Bytes) : Bytes := out.rdropWhile isWord

variable {out before k : Bytes}

theorem beforeLastWord_append_lastWord (out : Bytes) :
    beforeLastWord out ++ lastWord out = out :=
  List.rdropWhile_append_rtakeWhile

theorem isWord_getLast?_beforeLastWord {b : UInt8}
    (h : (beforeLastWord out).getLast? = some b) :
    isWord b = false := by
  have hfirst := List.head?_dropWhile_not isWord out.reverse
  rw [beforeLastWord, List.rdropWhile, List.getLast?_reverse] at h
  rw [h] at hfirst
  exact hfirst

/-- A stretch of word bytes behind a byte that is none is the last word. -/
theorem lastWord_append (hk : ∀ b ∈ k, isWord b = true)
    (hbefore : ∀ b, before.getLast? = some b → isWord b = false) :
    lastWord (before ++ k) = k ∧ beforeLastWord (before ++ k) = before := by
  -- read backwards, the stretch comes first, and the byte in front of it stops
  -- it
  have hword : ∀ b ∈ k.reverse, isWord b = true :=
    fun b hb => hk b (List.mem_reverse.mp hb)
  have hstop : before.reverse.takeWhile isWord = [] ∧
      before.reverse.dropWhile isWord = before.reverse := by
    cases hrev : before.reverse with
    | nil => exact ⟨rfl, rfl⟩
    | cons b u =>
      have hb : isWord b = false :=
        hbefore b (by rw [List.getLast?_eq_head?_reverse, hrev]; rfl)
      exact ⟨List.takeWhile_cons_of_neg (by simp [hb]),
        List.dropWhile_cons_of_neg (by simp [hb])⟩
  constructor
  · rw [lastWord, List.rtakeWhile, List.reverse_append,
      List.takeWhile_append_of_pos hword, hstop.1, List.append_nil,
      List.reverse_reverse]
  · rw [beforeLastWord, List.rdropWhile, List.reverse_append,
      List.dropWhile_append_of_pos hword, hstop.2,
      List.reverse_reverse]

theorem isWord_of_mem_operandKeywords (hk : k ∈ operandKeywords) :
    ∀ b ∈ k, isWord b = true := by
  have hall : operandKeywords.all (·.all isWord) = true := by decide
  exact List.all_eq_true.mp (List.all_eq_true.mp hall k hk)

theorem endsInKeyword_reverse_iff_lastWord (out : Bytes) :
    endsInKeyword out.reverse = true ↔
      lastWord out ∈ operandKeywords ∧ (beforeLastWord out).getLast? ≠
        some dot := by
  rw [endsInKeyword_reverse_iff]
  constructor
  · rintro ⟨k, hk, before, rfl, hbefore⟩
    obtain ⟨hlast, hfront⟩ :=
      lastWord_append (isWord_of_mem_operandKeywords hk) fun b hb =>
        (hbefore b hb).1
    rw [hlast, hfront]
    exact ⟨hk, fun hdot => (hbefore dot hdot).2 rfl⟩
  · rintro ⟨hk, hdot⟩
    refine ⟨lastWord out, hk, beforeLastWord out,
      (beforeLastWord_append_lastWord out).symm, fun b hb => ?_⟩
    refine ⟨isWord_getLast?_beforeLastWord hb, ?_⟩
    rintro rfl
    exact hdot hb

/-! ### The byte in front of a match, by its place -/

namespace Indexed

/-- The place of the byte in front of the last `n` bytes. If there are no more
than these, there is none. -/
def placeBefore? (n : Nat) (out : Bytes) : Option Nat :=
  if n + 1 ≤ out.length then some (out.length - (n + 1)) else none

/-- `endsInWord` for an output that is given in order; `none` if a place is
looked up that is not there. -/
def endsInWord (k out : Bytes) : Option Bool :=
  if k.isSuffixOf out then
    match placeBefore? k.length out with
    | none => some true
    | some i => out[i]?.map fun b => !isWord b && b != dot
  else some false

/-- Tries the keywords one after the other, up to the first that matches. -/
def endsInKeyword (out : Bytes) : Option Bool :=
  operandKeywords.anyM (endsInWord · out)

/-- `opensRegex` for an output that is given in order. -/
def opensRegex (afterKeywords : Bool) (out : Bytes) : Option Bool :=
  match out.getLast? with
  | none => some true
  | some b =>
    if expectsOperand b then some true else if afterKeywords then
      endsInKeyword out else some false

theorem placeBefore?_lt {n i : Nat} (h : placeBefore? n out = some i) :
    i < out.length := by
  unfold placeBefore? at h
  split at h
  · obtain rfl := Option.some.inj h
    omega
  · cases h

/-- The byte in the place before a match is the last one of what stands before
it. -/
theorem endsInWord_append (k before : Bytes) :
    endsInWord k (before ++ k) =
      some (Script.endsInWord [] before.reverse) := by
  have hsuffix : k.isSuffixOf (before ++ k) = true :=
    List.isSuffixOf_iff_suffix.mpr (List.suffix_append before k)
  rw [endsInWord, if_pos hsuffix]
  rcases List.eq_nil_or_concat before with rfl | ⟨u, b, rfl⟩
  · have hplace : placeBefore? k.length ([] ++ k) = none := if_neg (by simp)
    rw [hplace]
    rfl
  · have hplace : placeBefore? k.length (u.concat b ++ k) = some u.length := by
      rw [placeBefore?, if_pos (by simp)]
      simp only [List.length_append, List.length_concat, Option.some.injEq]
      omega
    have hbyte : (u.concat b ++ k)[u.length]? = some b := by simp
    rw [hplace]
    dsimp only
    rw [hbyte, List.concat_eq_append, List.reverse_concat]
    rfl

theorem endsInWord_eq (k out : Bytes) :
    endsInWord k out = some (Script.endsInWord k out.reverse) := by
  by_cases hsuffix : k <:+ out
  · obtain ⟨before, rfl⟩ := hsuffix
    rw [endsInWord_append, List.reverse_append, Script.endsInWord_append]
  · have hmatch : k.isSuffixOf out ≠ true :=
      fun h => hsuffix (List.isSuffixOf_iff_suffix.mp h)
    have hends : Script.endsInWord k out.reverse = false := by
      rw [Bool.eq_false_iff]
      intro h
      obtain ⟨before, rfl, -⟩ := (endsInWord_reverse_iff k out).mp h
      exact hsuffix (List.suffix_append before k)
    rw [endsInWord, if_neg hmatch, hends]

theorem endsInKeyword_eq (out : Bytes) :
    endsInKeyword out = some (Script.endsInKeyword out.reverse) := by
  have heach : (endsInWord · out) =
      fun k => some (Script.endsInWord k out.reverse) := by
    funext k
    exact endsInWord_eq k out
  rw [endsInKeyword, heach]
  exact List.anyM_pure

theorem opensRegex_eq (afterKeywords : Bool) (out : Bytes) :
    opensRegex afterKeywords out =
      some (Script.opensRegex afterKeywords out.reverse) := by
  rw [opensRegex, List.getLast?_eq_head?_reverse]
  cases hrev : out.reverse with
  | nil => rfl
  | cons b trail =>
    rw [List.head?_cons, opensRegex_cons, ← hrev]
    dsimp only
    cases expectsOperand b with
    | true => rfl
    | false =>
      cases afterKeywords with
      | true => exact endsInKeyword_eq out
      | false => rfl

end Indexed

/-- With keywords tracked, a slash opens a regular expression exactly if nothing
has been written, or an operand is expected after the last byte, or the last
word is a keyword and no dot stands in front of it. The byte in front of a match
is there whenever it is looked up: its place lies in the output, and with the
byte taken from there the rule answers always, and the same. -/
theorem opensRegex_iff_lastWord (out : Bytes) :
    (opensRegex true out.reverse = true ↔
      out = [] ∨ (∃ b, out.getLast? = some b ∧ expectsOperand b = true) ∨
        (lastWord out ∈ operandKeywords ∧
          (beforeLastWord out).getLast? ≠ some dot)) ∧
      (∀ n i, Indexed.placeBefore? n out = some i → i < out.length) ∧
      ∀ afterKeywords, Indexed.opensRegex afterKeywords out =
        some (opensRegex afterKeywords out.reverse) := by
  refine ⟨?_, fun n i => Indexed.placeBefore?_lt,
    fun afterKeywords => Indexed.opensRegex_eq afterKeywords out⟩
  rw [← endsInKeyword_reverse_iff_lastWord, List.getLast?_eq_head?_reverse,
    ← List.reverse_eq_nil_iff]
  cases out.reverse with
  | nil => simp
  | cons b trail => simp [opensRegex_cons]

/-- The same two bytes at the end of a longer keyword, at the end of a name, as
the name of a property, and alone. -/
theorem opensRegex_iff_lastWord_of :
    opensRegex true (Bytes.ofAscii "x=typeof").reverse = true ∧
      opensRegex true (Bytes.ofAscii "a;$of").reverse = false ∧
      opensRegex true (Bytes.ofAscii "p.of").reverse = false ∧
      Indexed.opensRegex true (Bytes.ofAscii "of") = some true := by
  refine ⟨(opensRegex_iff_lastWord _).1.mpr
    (.inr (.inr ⟨by decide, by decide⟩)), ?_, ?_, ?_⟩
  · rw [Bool.eq_false_iff, ne_eq, (opensRegex_iff_lastWord _).1]
    decide
  · rw [Bool.eq_false_iff, ne_eq, (opensRegex_iff_lastWord _).1]
    decide
  · rw [(opensRegex_iff_lastWord _).2.2]
    rfl

end Terse.Script
