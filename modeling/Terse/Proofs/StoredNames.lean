import Terse.Proofs.Writing

/-!
# The names a store gives

Keys that are derived are spelled with 64 hexadecimal digits (`Key.IsDigest`),
and that is all that matters about them here: the directory of a key and its two
files have proper names, no two of these names agree, within one key or between
keys, and the temporary name of a file is the proper name of none, since it has
another extension. That two derived keys agree only if the digests do is
`digest_eq_of_derive_eq`.
-/

namespace Terse

open Files Files.Path

/-! ### Hexadecimal digits -/

namespace Bytes

theorem ofString_injective {a b : String} (h : ofString a = ofString b) :
    a = b := by
  rw [← String.ofList_toList (s := a), ← String.ofList_toList (s := b),
    ← String.toByteArray_inj,
    String.toByteArray_ofList, String.toByteArray_ofList]
  exact congrArg List.toByteArray h

theorem hexDigit_injective {m n : Nat} (hm : m < 16) (hn : n < 16)
    (h : hexDigit m = hexDigit n) : m = n := by
  have hall : ∀ m n : Fin 16, hexDigit m.val = hexDigit n.val →
      m = n := by decide
  exact Fin.mk.inj (hall ⟨m, hm⟩ ⟨n, hn⟩ h)

theorem hex_injective {s t : Bytes} (h : hex s = hex t) : s = t := by
  induction s generalizing t with
  | nil =>
    cases t with
    | nil => rfl
    | cons b t => cases h
  | cons a s ih =>
    cases t with
    | nil => cases h
    | cons b t =>
      rw [hex_cons, hex_cons] at h
      obtain ⟨hhigh, hrest⟩ := List.cons.inj h
      obtain ⟨hlow, hrest⟩ := List.cons.inj hrest
      have ha := a.toNat_lt
      have hb := b.toNat_lt
      have hquot := hexDigit_injective (by omega) (by omega) hhigh
      have hrem := hexDigit_injective (by omega) (by omega) hlow
      have hab : a = b := UInt8.toNat_inj.mp (by omega)
      rw [hab, ih hrest]

theorem utf8EncodeChar_hexDigit {n : Nat} (hn : n < 16) :
    ∃ b, String.utf8EncodeChar (hexDigit n) = [b] ∧
      Store.isHexDigit b = true := by
  have hall : ∀ n :
    Fin 16, (String.utf8EncodeChar (hexDigit n.val)).length = 1 ∧
      (String.utf8EncodeChar (hexDigit n.val)).all Store.isHexDigit = true := by
        decide
  obtain ⟨hlen, hdigit⟩ := hall ⟨n, hn⟩
  obtain ⟨b, hb⟩ := List.length_eq_one_iff.mp hlen
  rw [hb] at hdigit
  exact ⟨b, hb, by simpa using hdigit⟩

theorem encode_hex (s : Bytes) :
    ((hex s).flatMap String.utf8EncodeChar).length = 2 * s.length ∧
      ∀ b ∈ (hex s).flatMap String.utf8EncodeChar,
        Store.isHexDigit b = true := by
  induction s with
  | nil => simp
  | cons a s ih =>
    have ha := a.toNat_lt
    obtain ⟨high, hhigh, hhighDigit⟩ :=
      utf8EncodeChar_hexDigit (n := a.toNat / 16) (by omega)
    obtain ⟨low, hlow, hlowDigit⟩ := utf8EncodeChar_hexDigit (n := a.toNat % 16)
      (by omega)
    rw [hex_cons, List.flatMap_cons, List.flatMap_cons, hhigh, hlow]
    refine ⟨?_, ?_⟩
    · simp only [List.singleton_append, List.length_cons, ih.1]
      omega
    · intro b hb
      rcases List.mem_cons.mp hb with rfl | hb
      · exact hhighDigit
      · rcases List.mem_cons.mp hb with rfl | hb
        · exact hlowDigit
        · exact ih.2 b hb

end Bytes

namespace Store

theorem toNat_of_isHexDigit {b : UInt8} (h : isHexDigit b = true) :
    48 ≤ b.toNat ∧ b.toNat < 128 := by
  have hrange : (48 ≤ b.toNat ∧ b.toNat ≤ 57 ∨ 97 ≤ b.toNat ∧ b.toNat ≤ 102) ∨
      65 ≤ b.toNat ∧ b.toNat ≤ 70 := by
    simpa [isHexDigit, UInt8.le_iff_toNat_le] using h
  omega

def isPlain (b : UInt8) : Bool := b != 0 && b != separator

theorem isPlain_of_toNat {b : UInt8} (h : 48 ≤ b.toNat) : isPlain b = true := by
  rw [isPlain, Bool.and_eq_true, bne_iff_ne, bne_iff_ne]
  constructor
  · rintro rfl
    exact absurd h (by decide)
  · rintro rfl
    exact absurd h (by decide)

namespace Key

/-- The key is spelled as a digest is. -/
structure IsDigest (k : Key) : Prop where
  length_bytes : k.bytes.length = 64
  isHexDigit : ∀ b ∈ k.bytes, Store.isHexDigit b = true

theorem bytes_injective {k k' : Key} (h : k.bytes = k'.bytes) : k = k' := by
  obtain ⟨text⟩ := k
  obtain ⟨text'⟩ := k'
  exact congrArg Key.mk (Bytes.ofString_injective h)

theorem isDigest_derive (o : Script.Options) (source : Bytes) :
    (derive o source).IsDigest := by
  have hbytes : (derive o source).bytes =
      (Bytes.hex (Digest.Sha256.digest (preimage o source))).flatMap
        String.utf8EncodeChar := by
    rw [bytes, derive, Bytes.ofString, String.toList_ofList]
  obtain ⟨hlen, hdigit⟩ :=
    Bytes.encode_hex (Digest.Sha256.digest (preimage o source))
  refine ⟨?_, ?_⟩
  · rw [hbytes, hlen, Digest.Sha256.length_digest]
  · rw [hbytes]
    exact hdigit

theorem digest_eq_of_derive_eq {o o' : Script.Options} {source source' : Bytes}
    (h : derive o source = derive o' source') :
    Digest.Sha256.digest (preimage o source) =
      Digest.Sha256.digest (preimage o' source') :=
  Bytes.hex_injective (String.ofList_injective (Key.mk.inj h))

/-- The directory that the files of a digest are in. -/
def shard (k : Key) : Bytes := k.bytes.take 2

theorem IsDigest.shard?_eq {k : Key} (h : k.IsDigest) :
    k.shard? = some k.shard := by
  have hboundary : Text.Utf8.isBoundary k.bytes 2 = true := by
    rw [Text.Utf8.isBoundary]
    split
    · next hdrop =>
      have hlen := congrArg List.length hdrop
      rw [List.length_drop, h.length_bytes] at hlen
      cases hlen
    · next b rest hdrop =>
      have hmem : b ∈ k.bytes :=
        List.mem_of_mem_drop (hdrop ▸ List.mem_cons_self)
      have hlow : b < 0x80 :=
        UInt8.lt_iff_toNat_lt.mpr (toNat_of_isHexDigit (h.isHexDigit b hmem)).2
      simp [hlow]
  rw [shard?, hboundary, h.length_bytes]
  rfl

theorem IsDigest.length_shard {k : Key} (h : k.IsDigest) :
    k.shard.length = 2 := by
  rw [shard, List.length_take, h.length_bytes]
  rfl

theorem IsDigest.isShardName_shard {k : Key} (h : k.IsDigest) :
    isShardName k.shard = true := by
  rw [isShardName, h.length_shard, Bool.and_eq_true_iff]
  refine ⟨rfl, List.all_eq_true.mpr fun b hb => ?_⟩
  exact h.isHexDigit b (List.mem_of_mem_take hb)

/-- The name of the file with the given extension. -/
def fileName (k : Key) (extension : Bytes) : Bytes :=
  k.bytes ++ 0x2e :: extension

theorem fileName_injective {k k' : Key} {extension : Bytes}
    (h : k.fileName extension = k'.fileName extension) : k = k' :=
  bytes_injective (List.append_cancel_right h)

theorem IsDigest.length_fileName {k : Key} (h : k.IsDigest)
    (extension : Bytes) :
    (k.fileName extension).length = 65 + extension.length := by
  rw [fileName, List.length_append, h.length_bytes, List.length_cons]
  omega

end Key

/-! ### Proper names -/

/-- Of the names made of plain bytes only the very short ones can be
improper. -/
theorem isName_of_length {name : Bytes} (hlen : 2 < name.length)
    (h : name.all isPlain = true) :
    IsName name where
  ne_nil := by
    rintro rfl
    cases hlen
  ne_here := by
    rintro rfl
    revert hlen
    decide
  ne_above := by
    rintro rfl
    revert hlen
    decide
  separator_notMem hb := absurd (List.all_eq_true.mp h _ hb) (by decide)
  zero_notMem hb := absurd (List.all_eq_true.mp h _ hb) (by decide)

theorem isName_of_isShardName {name : Bytes} (h : isShardName name = true) :
    IsName name := by
  obtain ⟨hlen, hall⟩ := Bool.and_eq_true_iff.mp h
  rw [beq_iff_eq] at hlen
  have hdigit : ∀ b ∈ name, 48 ≤ b.toNat :=
    fun b hb => (toNat_of_isHexDigit (List.all_eq_true.mp hall b hb)).1
  refine ⟨?_, ?_, ?_, ?_, ?_⟩
  · rintro rfl
    cases hlen
  · rintro rfl
    cases hlen
  · rintro rfl
    exact absurd (hdigit 0x2e List.mem_cons_self) (by decide)
  · exact fun hb => absurd (hdigit separator hb) (by decide)
  · exact fun hb => absurd (hdigit 0 hb) (by decide)

theorem isName_shard {k : Key} (h : k.IsDigest) : IsName k.shard :=
  isName_of_isShardName h.isShardName_shard

/-- The two extensions. -/
def IsExtension (extension : Bytes) : Prop :=
  extension = outputExtension ∨ extension = entryExtension

theorem all_isPlain_fileName {k : Key} (h : k.IsDigest) {extension : Bytes}
    (hext : IsExtension extension) :
    (k.fileName extension).all isPlain = true := by
  have hbytes : k.bytes.all isPlain = true :=
    List.all_eq_true.mpr fun b hb => isPlain_of_toNat
      (toNat_of_isHexDigit (h.isHexDigit b hb)).1
  have hextension : extension.all isPlain = true := by
    rcases hext with rfl | rfl
    · rfl
    · rfl
  rw [Key.fileName, List.all_append, List.all_cons, hbytes, hextension]
  rfl

theorem isName_fileName {k : Key} (h : k.IsDigest) {extension : Bytes}
    (hext : IsExtension extension) :
    IsName (k.fileName extension) := by
  refine isName_of_length ?_ (all_isPlain_fileName h hext)
  rw [h.length_fileName]
  omega

theorem all_isPlain_toString (n : Nat) :
    (Bytes.ofAscii (toString n)).all isPlain = true := by
  refine List.all_eq_true.mpr ?_
  intro b hb
  obtain ⟨c, hc, rfl⟩ := List.mem_map.mp hb
  rw [Nat.toString_eq_repr, Nat.toList_repr] at hc
  have hdigit := Nat.isDigit_of_mem_toDigits (by decide) (by decide) hc
  have hrange : 48 ≤ c.val.toNat ∧ c.val.toNat ≤ 57 := by
    simpa [Char.isDigit, UInt32.le_iff_toNat_le] using hdigit
  have hbyte : c.toUInt8.toNat = c.val.toNat := by
    rw [Char.toUInt8, UInt32.toNat_toUInt8]
    omega
  exact isPlain_of_toNat (hbyte ▸ hrange.1)

theorem isName_temporaryName (w : Writer) {k : Key} (h : k.IsDigest)
    {extension : Bytes} (hext : IsExtension extension) :
    IsName (temporaryName w (k.fileName extension)) := by
  refine isName_of_length ?_ ?_
  · simp only [temporaryName, List.length_append, h.length_fileName]
    omega
  · rw [temporaryName, List.all_append, List.all_append, List.all_cons,
      all_isPlain_fileName h hext,
      all_isPlain_toString]
    rfl

/-! ### Extensions -/

/-- What follows a dot is the extension, if it has no dot and something precedes
it. -/
theorem extension?_append {stem extension : Bytes} (hstem : stem ≠ [])
    (hne : extension ≠ []) (hdot : (0x2e : UInt8) ∉ extension) :
    extension? (stem ++ 0x2e :: extension) = some extension := by
  have hafter : (stem ++ 0x2e :: extension).reverse.takeWhile (· != 0x2e) =
      extension.reverse := by
    rw [List.reverse_append, List.reverse_cons, List.append_assoc,
      List.takeWhile_append_of_pos]
    · simp
    · intro b hb
      rw [bne_iff_ne]
      rintro rfl
      exact hdot (List.mem_reverse.mp hb)
  have habove : stem ++ 0x2e :: extension ≠ above := by
    intro h
    have hlen := congrArg List.length h
    have hstemLength := List.length_pos_iff.mpr hstem
    have hextLength := List.length_pos_iff.mpr hne
    simp only [List.length_append, List.length_cons, above,
      List.length_nil] at hlen
    omega
  rw [extension?, hafter]
  simp [hstem, habove]

theorem extension?_fileName {k : Key} (h : k.IsDigest) {extension : Bytes}
    (hext : IsExtension extension) :
    extension? (k.fileName extension) = some extension := by
  have hbytes : k.bytes ≠ [] := by
    intro hnil
    have hlen := h.length_bytes
    rw [hnil] at hlen
    cases hlen
  rcases hext with rfl | rfl
  · exact extension?_append hbytes (by decide) (by decide)
  · exact extension?_append hbytes (by decide) (by decide)

def temporaryExtension : Bytes := Bytes.ofAscii "tmp"

theorem extension?_temporaryName (w : Writer) (name : Bytes) :
    extension? (temporaryName w name) = some temporaryExtension := by
  have hsplit : temporaryName w name =
      (name ++ 0x2e :: Bytes.ofAscii (toString w.id)) ++ 0x2e ::
        temporaryExtension := by
    rw [temporaryName, show Bytes.ofAscii ".tmp" = 0x2e ::
      temporaryExtension by decide]
  rw [hsplit]
  exact extension?_append (by simp) (by decide) (by decide)

theorem temporaryName_ne_fileName (w : Writer) (name : Bytes) {k : Key}
    (h : k.IsDigest) {extension : Bytes} (hext : IsExtension extension) :
    temporaryName w name ≠ k.fileName extension := by
  intro heq
  have hboth := extension?_temporaryName w name
  rw [heq, extension?_fileName h hext] at hboth
  revert hboth
  rcases hext with rfl | rfl <;> decide

theorem fileName_output_ne_entry {k k' : Key} (h : k.IsDigest)
    (h' : k'.IsDigest) :
    k.fileName outputExtension ≠ k'.fileName entryExtension := by
  intro heq
  have hboth := extension?_fileName h (.inl rfl)
  rw [heq, extension?_fileName h' (.inr rfl)] at hboth
  revert hboth
  decide

end Store

end Terse
