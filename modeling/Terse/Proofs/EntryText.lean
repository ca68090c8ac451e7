import Terse.Store.EntryFormat
import Terse.Proofs.Utf8

/-!
# Reading back entries

An entry that was written is read as the same entry, whatever its key and its
time are (`Entry.parse?_render`). The lengths have to be machine words, since
larger numbers are not read. Along the way: each character has a spelling in a
string from which exactly its bytes are read, a number is read up to the comma
after it, and the members are read one by one.
-/

namespace Terse.Text.Json

/-! ### Strings -/

/-- A byte that stands for itself in a string. -/
def isBare (b : UInt8) : Bool := 0x20 ≤ b && b != 0x22 && b != 0x5c

theorem stringBytes?_cons_of_isBare {b : UInt8} (h : isBare b = true) (n : Nat)
    (s : Bytes) :
    stringBytes? (n + 1)
      (b :: s) = (stringBytes? n s).map fun r => (b :: r.1, r.2) := by
  obtain ⟨⟨hlow, hquote⟩, hescape⟩ : (0x20 ≤ b ∧ b ≠ 0x22) ∧ b ≠ 0x5c := by
    simpa [isBare] using h
  have hcond : (b < 0x20 || b == 0x5c) = false := by
    simp [hescape, UInt8.not_lt.mpr hlow]
  rw [stringBytes?.eq_def]
  dsimp only
  split
  · next heq => cases heq
  · next heq => cases heq; exact absurd rfl hquote
  · next heq => cases heq; exact absurd rfl hescape
  · next heq => cases heq; exact absurd rfl hescape
  · next heq =>
    cases heq
    rw [hcond]
    cases stringBytes? n s <;> rfl

theorem stringBytes?_append_of_isBare {bs : Bytes}
    (h : ∀ b ∈ bs, isBare b = true) (n : Nat) (s : Bytes) :
    stringBytes? (n + bs.length)
      (bs ++ s) = (stringBytes? n s).map fun r => (bs ++ r.1, r.2) := by
  induction bs with
  | nil => simp
  | cons b bs ih =>
    rw [List.length_cons, ← Nat.add_assoc, List.cons_append,
      stringBytes?_cons_of_isBare (h b List.mem_cons_self),
      ih fun b hb => h b (List.mem_cons_of_mem _ hb), Option.map_map]
    rfl

theorem isBare_iff_toNat {b : UInt8} :
    isBare b = true ↔ 0x20 ≤ b.toNat ∧ b.toNat ≠ 0x22 ∧ b.toNat ≠ 0x5c := by
  simp [isBare, UInt8.le_iff_toNat_le, ← UInt8.toNat_inj, and_assoc]

/-- A character above the control characters that is no quote and no backslash
is written bare. -/
theorem isBare_of_mem_encode {c : Char} (hlow : 0x20 ≤ c.toNat)
    (hquote : c ≠ '"') (hescape : c ≠ '\\') {b : UInt8}
    (hb : b ∈ String.utf8EncodeChar c) : isBare b = true := by
  have hquote' : c.val.toNat ≠ 0x22 := fun h => hquote (Char.toNat_inj.mp h)
  have hescape' : c.val.toNat ≠ 0x5c := fun h => hescape (Char.toNat_inj.mp h)
  have hlow' : 0x20 ≤ c.val.toNat := hlow
  rw [isBare_iff_toNat]
  rcases Utf8.encode_ascii_or c with ⟨hencode, hascii⟩ | hhigh
  · rw [hencode] at hb
    rw [List.mem_singleton.mp hb, UInt8.toNat_ofNat']
    omega
  · have := hhigh b hb
    omega

/-- The bytes `w` are a way to write the character `c` in a string. Reading them
takes some number of moves, at most one for each byte. -/
def Spells (w : Bytes) (c : Char) : Prop :=
  ∃ k ≤ w.length, ∀ n s, stringBytes? (n + k) (w ++ s) =
    (stringBytes? n s).map fun r => (String.utf8EncodeChar c ++ r.1, r.2)

theorem spells_bare {c : Char} (hlow : 0x20 ≤ c.toNat) (hquote : c ≠ '"')
    (hescape : c ≠ '\\') :
    Spells (String.utf8EncodeChar c) c :=
  ⟨_, Nat.le_refl _,
    stringBytes?_append_of_isBare fun _ => isBare_of_mem_encode hlow
    hquote hescape⟩

theorem spells_simple {e b : UInt8} {c : Char} (h : simpleEscape? e = some b)
    (hc : String.utf8EncodeChar c = [b]) : Spells [0x5c, e] c := by
  refine ⟨1, by simp, fun n s => ?_⟩
  rw [hc, List.cons_append, List.singleton_append, stringBytes?.eq_def]
  dsimp only
  split
  · next heq => cases heq
  · next heq => cases heq
  · next heq =>
    cases heq
    cases h
  · next heq =>
    cases heq
    rw [h]
    cases stringBytes? n s <;> rfl
  · next hne heq =>
    cases heq
    exact absurd rfl (hne _ _ rfl)

theorem exists_hexValue?_hexDigit {n : Nat} (hn : n < 16) :
    ∃ b, String.utf8EncodeChar (Bytes.hexDigit n) = [b] ∧
      hexValue? b = some n := by
  interval_cases n <;> exact ⟨_, rfl, rfl⟩

theorem spells_unicode {c : Char} (h : c.toNat < 0x20) :
    Spells (['\\', 'u', '0', '0', Bytes.hexDigit (c.toNat / 16),
      Bytes.hexDigit (c.toNat % 16)].flatMap
      String.utf8EncodeChar) c := by
  obtain ⟨high, hhigh, hhighValue⟩ :=
    exists_hexValue?_hexDigit (n := c.toNat / 16) (by omega)
  obtain ⟨low, hlow, hlowValue⟩ := exists_hexValue?_hexDigit (n := c.toNat % 16)
    (by omega)
  have hw : ['\\', 'u', '0', '0', Bytes.hexDigit (c.toNat / 16),
    Bytes.hexDigit (c.toNat % 16)].flatMap
      String.utf8EncodeChar = [0x5c, 0x75, 0x30, 0x30, high, low] := by
    simp only [List.flatMap_cons, List.flatMap_nil, hhigh, hlow]
    rfl
  have hunit : ∀ s, hexUnit? (0x30 :: 0x30 :: high :: low :: s) =
      some (c.toNat, s) := by
    intro s
    have hvalue : ((0 * 16 + 0) * 16 + c.toNat / 16) * 16 + c.toNat % 16 =
        c.toNat := by omega
    simp only [hexUnit?, hhighValue, hlowValue,
      show hexValue? 0x30 = some 0 from rfl, bind, Option.bind, pure, hvalue]
  have hlowSurrogate : isLowSurrogate c.toNat = false := by
    simp [isLowSurrogate]
    omega
  have hhighSurrogate : isHighSurrogate c.toNat = false := by
    simp [isHighSurrogate]
    omega
  rw [hw]
  refine ⟨1, by simp, fun n s => ?_⟩
  have hread : unicodeEscape? (0x30 :: 0x30 :: high :: low :: s) =
      some (c, s) := by
    simp only [unicodeEscape?, hunit, bind, Option.bind, hlowSurrogate,
      hhighSurrogate, Bool.false_eq_true, if_false,
      Char.ofNat_toNat]
  simp only [List.cons_append, List.nil_append, stringBytes?, hread,
    bind, Option.bind]
  cases stringBytes? n s <;> rfl

theorem spells_escape (c : Char) :
    Spells ((escape c).flatMap String.utf8EncodeChar) c := by
  rw [escape]
  split
  · next h => exact spells_simple (e := 0x22) rfl (by rw [h]; rfl)
  split
  · next h => exact spells_simple (e := 0x5c) rfl (by rw [h]; rfl)
  split
  · next h => exact spells_simple (e := 0x6e) rfl (by rw [h]; rfl)
  split
  · next h => exact spells_simple (e := 0x72) rfl (by rw [h]; rfl)
  split
  · next h => exact spells_simple (e := 0x74) rfl (by rw [h]; rfl)
  split
  · next h =>
      exact spells_simple (e := 0x62) rfl (by rw [← Char.ofNat_toNat c, h]; rfl)
  split
  · next h =>
      exact spells_simple (e := 0x66) rfl (by rw [← Char.ofNat_toNat c, h]; rfl)
  split
  · next h => exact spells_unicode h
  · next hquote hescape _ _ _ _ _ hlow =>
    rw [List.flatMap_singleton]
    exact spells_bare (Nat.not_lt.mp hlow) hquote hescape

theorem stringBytes?_escape (cs : List Char) {n : Nat} (rest : Bytes)
    (hn : ((cs.flatMap escape).flatMap String.utf8EncodeChar).length < n) :
    stringBytes? n ((cs.flatMap escape).flatMap String.utf8EncodeChar ++
      0x22 :: rest) =
      some (cs.flatMap String.utf8EncodeChar, rest) := by
  induction cs generalizing n with
  | nil =>
    obtain ⟨n, rfl⟩ := Nat.exists_eq_add_of_lt hn
    rfl
  | cons c cs ih =>
    obtain ⟨k, hk, hread⟩ := spells_escape c
    rw [List.flatMap_cons, List.flatMap_append, List.length_append] at hn
    obtain ⟨m, rfl⟩ : ∃ m, n = m + k := ⟨n - k, by omega⟩
    rw [List.flatMap_cons, List.flatMap_append, List.append_assoc, hread,
      ih (by omega)]
    rfl

theorem ofString_quote_append (s : String) (rest : Bytes) :
    Bytes.ofString (quote s) ++ rest =
      0x22 :: ((s.toList.flatMap escape).flatMap String.utf8EncodeChar ++
        0x22 :: rest) := by
  simp only [Bytes.ofString, quote, String.toList_ofList, List.cons_append,
    List.flatMap_cons,
    List.flatMap_append, List.flatMap_nil, List.append_nil, List.append_assoc]
  rfl

theorem string?_quote (s : String) (rest : Bytes) :
    string? (Bytes.ofString (quote s) ++ rest) = some (s, rest) := by
  have hlen : ((s.toList.flatMap escape).flatMap String.utf8EncodeChar).length <
      ((s.toList.flatMap escape).flatMap String.utf8EncodeChar ++ 0x22 ::
        rest).length + 1 := by
    rw [List.length_append, List.length_cons]
    omega
  rw [ofString_quote_append, string?, stringBytes?_escape _ _ hlen]
  simp only [bind, Option.bind]
  rw [show s.toList.flatMap String.utf8EncodeChar = Bytes.ofString s from rfl,
    Utf8.toString?_ofString]
  rfl

/-! ### Numbers -/

def decimal (n : Nat) : Bytes := Bytes.ofString (toString n)

def digitByte (n : Nat) : UInt8 := UInt8.ofNat (0x30 + n)

theorem toNat_digitByte {n : Nat} (h : n < 10) :
    (digitByte n).toNat = 0x30 + n := by
  rw [digitByte, UInt8.toNat_ofNat']
  omega

theorem isDigit_digitByte {n : Nat} (h : n < 10) :
    isDigit (digitByte n) = true := by
  interval_cases n <;> rfl

theorem utf8EncodeChar_digitChar {n : Nat} (h : n < 10) :
    String.utf8EncodeChar n.digitChar = [digitByte n] := by
  interval_cases n <;> rfl

theorem decimal_eq_flatMap (n : Nat) :
    decimal n = (Nat.toDigits 10 n).flatMap String.utf8EncodeChar := by
  rw [decimal, Bytes.ofString, Nat.toString_eq_repr, Nat.toList_repr]

theorem decimal_of_lt {n : Nat} (h : n < 10) : decimal n = [digitByte n] := by
  rw [decimal_eq_flatMap, Nat.toDigits_of_lt_base h, List.flatMap_singleton,
    utf8EncodeChar_digitChar h]

theorem decimal_of_le {n : Nat} (h : 10 ≤ n) :
    decimal n = decimal (n / 10) ++ [digitByte (n % 10)] := by
  rw [decimal_eq_flatMap, decimal_eq_flatMap,
    Nat.toDigits_of_base_le (by decide) h, List.flatMap_append,
    List.flatMap_singleton, utf8EncodeChar_digitChar (Nat.mod_lt n (by decide))]

theorem isDigit_of_mem_decimal {n : Nat} {b : UInt8} (hb : b ∈ decimal n) :
    isDigit b = true := by
  induction n using Nat.strongRecOn with
  | ind n ih =>
    rcases Nat.lt_or_ge n 10 with h | h
    · rw [decimal_of_lt h, List.mem_singleton] at hb
      exact hb ▸ isDigit_digitByte h
    · rw [decimal_of_le h, List.mem_append, List.mem_singleton] at hb
      rcases hb with hb | rfl
      · exact ih (n / 10) (by omega) hb
      · exact isDigit_digitByte (Nat.mod_lt n (by decide))

theorem foldl_decimal (n : Nat) :
    (decimal n).foldl (fun n b => n * 10 + (b.toNat - 0x30)) 0 = n := by
  induction n using Nat.strongRecOn with
  | ind n ih =>
    rcases Nat.lt_or_ge n 10 with h | h
    · rw [decimal_of_lt h, List.foldl_cons, List.foldl_nil, toNat_digitByte h]
      omega
    · have hlast := toNat_digitByte (Nat.mod_lt n (show 10 > 0 by decide))
      rw [decimal_of_le h, List.foldl_append, ih (n / 10) (by omega),
        List.foldl_cons, List.foldl_nil, hlast]
      omega

theorem exists_decimal_eq_cons (n : Nat) :
    ∃ b s, decimal n = b :: s ∧ (b = 0x30 → n = 0) := by
  induction n using Nat.strongRecOn with
  | ind n ih =>
    rcases Nat.lt_or_ge n 10 with h | h
    · refine ⟨digitByte n, [], decimal_of_lt h, fun hb => ?_⟩
      have hzero := congrArg UInt8.toNat hb
      rw [toNat_digitByte h] at hzero
      exact Nat.add_left_cancel hzero
    · obtain ⟨b, s, hs, hb⟩ := ih (n / 10) (by omega)
      refine ⟨b, s ++ [digitByte (n % 10)], by rw [decimal_of_le h, hs]; rfl,
        fun hzero => ?_⟩
      have := hb hzero
      omega

theorem natural?_decimal {bound n : Nat} (hn : n < bound) (rest : Bytes) :
    natural? bound (decimal n ++ 0x2c :: rest) = some (n, 0x2c :: rest) := by
  have htake : (decimal n ++ 0x2c :: rest).takeWhile isDigit = decimal n := by
    rw [List.takeWhile_append_of_pos fun b => isDigit_of_mem_decimal]
    exact List.append_nil _
  have hdrop : (decimal n ++ 0x2c :: rest).dropWhile isDigit =
      0x2c :: rest := by
    rw [List.dropWhile_append_of_pos fun b => isDigit_of_mem_decimal]
    rfl
  have hplain :
    ((decimal n).isEmpty ||
      ((decimal n).head? == some 0x30 && decide (1 < (decimal n).length)) ||
      decide (bound ≤ n)) = false := by
    obtain ⟨b, s, hs, hb⟩ := exists_decimal_eq_cons n
    have hbound : decide (bound ≤ n) = false :=
      decide_eq_false (Nat.not_le.mpr hn)
    rw [hbound, hs, List.isEmpty_cons, Bool.false_or, Bool.or_false,
      Bool.and_eq_false_iff]
    by_cases hzero : b = 0x30
    · rw [hb hzero, decimal_of_lt (by decide)] at hs
      exact .inr (by rw [← hs]; rfl)
    · exact .inl (by simpa using hzero)
  rw [natural?, htake, hdrop, foldl_decimal, hplain]
  rfl

/-! ### Space in front of a value -/

theorem isSpace_of_isDigit {b : UInt8} (h : isDigit b = true) :
    isSpace b = false := by
  have hrange : 0x30 ≤ b.toNat := by
    simp only [isDigit, Bool.and_eq_true, decide_eq_true_eq,
      UInt8.le_iff_toNat_le] at h
    exact h.1
  cases hb : isSpace b with
  | false => rfl
  | true =>
    simp only [isSpace, Bool.or_eq_true, beq_iff_eq] at hb
    rcases hb with ((rfl | rfl) | rfl) | rfl <;> exact absurd hrange (by decide)

theorem skipSpace_cons_of_isSpace {b : UInt8} (h : isSpace b = true)
    (s : Bytes) :
    skipSpace (b :: s) = skipSpace s := List.dropWhile_cons_of_pos h

theorem skipSpace_cons_of_not {b : UInt8} (h : isSpace b = false) (s : Bytes) :
    skipSpace (b :: s) = b :: s :=
  List.dropWhile_cons_of_neg (by rw [h]; exact Bool.false_ne_true)

theorem skipSpace_quote (s : String) (rest : Bytes) :
    skipSpace (0x20 :: (Bytes.ofString (quote s) ++ rest)) =
      Bytes.ofString (quote s) ++ rest := by
  rw [ofString_quote_append, skipSpace_cons_of_isSpace rfl,
    skipSpace_cons_of_not rfl]

theorem skipSpace_decimal (n : Nat) (rest : Bytes) :
    skipSpace (0x20 :: (decimal n ++ rest)) = decimal n ++ rest := by
  obtain ⟨b, s, hs, -⟩ := exists_decimal_eq_cons n
  have hb := isDigit_of_mem_decimal (n := n) (hs ▸ List.mem_cons_self)
  rw [skipSpace_cons_of_isSpace rfl, hs, List.cons_append,
    skipSpace_cons_of_not (isSpace_of_isDigit hb)]

end Terse.Text.Json

namespace Terse.Store.Entry

open Text.Json

/-! ### Records -/

def member (name : String) (value : Bytes) : Bytes :=
  0x0a :: 0x20 :: 0x20 :: (Bytes.ofString (quote name) ++ 0x3a :: 0x20 :: value)

theorem member_append (name : String) (value rest : Bytes) :
    member name value ++ rest = member name (value ++ rest) := by
  simp only [member, List.cons_append, List.append_assoc]

/-- What stands between the opening brace and the end. -/
def members (e : Entry) : Bytes :=
  member "key" (Bytes.ofString (quote e.key.text)) ++
    0x2c :: (member "source_len" (decimal e.sourceLength) ++
    0x2c :: (member "minified_len" (decimal e.outputLength) ++
    0x2c :: (member "created_at" (Bytes.ofString (quote e.createdAt)) ++
      [0x0a, 0x7d])))

theorem render_eq_members (e : Entry) : e.render = 0x7b :: e.members := by
  have happend : ∀ a b : String, Bytes.ofString (a ++ b) = Bytes.ofString a ++
      Bytes.ofString b := by
    intro a b
    rw [Bytes.ofString, String.toList_append, List.flatMap_append]
    rfl
  have hkey : Bytes.ofString "\x7b\n  \"key\": " = 0x7b :: member "key" [] := by
    decide +kernel
  have hsource : Bytes.ofString ",\n  \"source_len\": " = 0x2c ::
      member "source_len" [] := by decide +kernel
  have houtput : Bytes.ofString ",\n  \"minified_len\": " = 0x2c ::
      member "minified_len" [] := by decide +kernel
  have hcreated : Bytes.ofString ",\n  \"created_at\": " = 0x2c ::
      member "created_at" [] := by decide +kernel
  have hclose : Bytes.ofString "\n\x7d" = [0x0a, 0x7d] := by decide +kernel
  rw [render, members]
  simp only [happend, hkey, hsource, houtput, hcreated, hclose, member_append,
    List.append_assoc, List.cons_append,
    List.nil_append]
  rfl

theorem string?_member (name : String) (value rest : Bytes) :
    string? (skipSpace (member name value ++ rest)) =
      some (name, 0x3a :: 0x20 :: (value ++ rest)) := by
  rw [member_append, member, skipSpace_cons_of_isSpace rfl,
    skipSpace_cons_of_isSpace rfl, skipSpace_quote,
    string?_quote]

theorem readMembers?_comma {d : Draft} (d' : Draft) {name : String}
    {value s : Bytes}
    (hread : d.read? name (0x20 :: (value ++ 0x2c :: s)) = some (d', 0x2c :: s))
    (n : Nat) :
    readMembers? (n + 1) d (member name value ++ 0x2c :: s) =
      readMembers? n d' s := by
  rw [readMembers?, string?_member]
  simp only [bind, Option.bind, skipSpace_cons_of_not (b := 0x3a) rfl, hread,
    skipSpace_cons_of_not (b := 0x2c) rfl]

theorem readMembers?_close {d d' : Draft} {name : String} {value : Bytes}
    (hread : d.read? name (0x20 :: (value ++ [0x0a, 0x7d])) =
      some (d', [0x0a, 0x7d]))
    (n : Nat) :
    readMembers? (n + 1) d (member name value ++ [0x0a, 0x7d]) =
      some (d', []) := by
  rw [readMembers?, string?_member]
  simp only [bind, Option.bind, skipSpace_cons_of_not (b := 0x3a) rfl, hread,
    skipSpace_cons_of_isSpace (b := 0x0a) rfl,
      skipSpace_cons_of_not (b := 0x7d) rfl]

theorem readMembers?_members {e : Entry} (hs : e.sourceLength < lengthBound)
    (ho : e.outputLength < lengthBound) (n : Nat) :
    readMembers? (n + 4) {} e.members =
      some (⟨some e.key, some e.sourceLength, some e.outputLength,
        some e.createdAt⟩, []) := by
  rw [members, readMembers?_comma ⟨some e.key, none, none, none⟩ ?_,
    readMembers?_comma ⟨some e.key, some e.sourceLength, none, none⟩ ?_,
    readMembers?_comma ⟨some e.key, some e.sourceLength,
      some e.outputLength, none⟩ ?_,
    readMembers?_close ?_]
  · simp [Draft.read?, skipSpace_quote, string?_quote, fill?]
  · simp [Draft.read?, skipSpace_decimal, natural?_decimal ho, fill?]
  · simp [Draft.read?, skipSpace_decimal, natural?_decimal hs, fill?]
  · simp [Draft.read?, skipSpace_quote, string?_quote, fill?]

theorem parse?_render {e : Entry} (hs : e.sourceLength < lengthBound)
    (ho : e.outputLength < lengthBound) :
    parse? e.render = some e := by
  obtain ⟨n, hn⟩ : ∃ n, e.members.length + 1 = n + 4 := by
    refine ⟨e.members.length - 3, ?_⟩
    simp only [members, member, List.length_append, List.length_cons]
    omega
  rw [render_eq_members, parse?, skipSpace_cons_of_not rfl]
  simp only [hn, readMembers?_members hs ho]
  rfl

end Terse.Store.Entry
