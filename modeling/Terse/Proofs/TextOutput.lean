import Terse.Engine
import Terse.Proofs.Segmentation
import Terse.Proofs.Utf8

/-!
# Text stays text

The scan knows bytes only. It copies the bytes of a character one by one, lets a
backslash take along the first byte of a character, and leaves out whatever
stands in a comment. Still no character is ever cut: all that is left out is
runs, a run starts and ends with an ASCII byte unless the end of the source ends
it, and an ASCII byte is a character of its own. So a text falls apart into
texts at every run (`IsText.of_run`), and what is written in place of the run is
a text as well.

The conclusion is about the entry points that take text: they agree with those
that take bytes, and neither the replacement characters of the one nor the
failure of the other ever occurs.
-/

namespace Terse

/-- The bytes are those of a text. -/
def Bytes.IsText (s : Bytes) : Prop := ∃ t : String, Bytes.ofString t = s

namespace Bytes

/-! ### Parting a text -/

theorem ofString_ofList (cs : List Char) :
    ofString (String.ofList cs) = cs.flatMap String.utf8EncodeChar := by
  rw [ofString, String.toList_ofList]

theorem exists_encode_of_append {cs : List Char} {u v : Bytes} {a : UInt8}
    (ha : a.toNat < 0x80) (h : cs.flatMap String.utf8EncodeChar = u ++ a :: v) :
    ∃ cs₁ cs₂ : List Char, cs₁.flatMap String.utf8EncodeChar = u ∧
      cs₂.flatMap String.utf8EncodeChar = v := by
  induction cs generalizing u with
  | nil => exact absurd h (by simp)
  | cons c cs ih =>
    rw [List.flatMap_cons] at h
    rcases List.append_eq_append_iff.mp h with ⟨u', rfl, hrest⟩ | ⟨w, hc, hrest⟩
    · obtain ⟨cs₁, cs₂, rfl, hv⟩ := ih hrest
      exact ⟨c :: cs₁, cs₂, List.flatMap_cons, hv⟩
    · cases w with
      | nil =>
        obtain ⟨cs₁, cs₂, hu, hv⟩ := ih (u := []) hrest.symm
        refine ⟨c :: cs₁, cs₂, ?_, hv⟩
        rw [List.flatMap_cons, hu, hc, List.append_nil, List.append_nil]
      | cons b w =>
        -- the ASCII byte belongs to `c`, which then is nothing else
        obtain ⟨rfl, rfl⟩ := List.cons.inj hrest
        rcases Text.Utf8.encode_ascii_or c with ⟨hencode, -⟩ | hhigh
        · have hlength := congrArg List.length (hencode.symm.trans hc)
          have hu : u = [] :=
            List.length_eq_zero_iff.mp (by simp at hlength; omega)
          have hw : w = [] :=
            List.length_eq_zero_iff.mp (by simp at hlength; omega)
          exact ⟨[], cs, hu.symm, by rw [hw]; rfl⟩
        · have hlow := hhigh a (hc ▸ List.mem_append_right u List.mem_cons_self)
          omega

namespace IsText

variable {u v : Bytes}

theorem append (hu : u.IsText) (hv : v.IsText) : IsText (u ++ v) := by
  obtain ⟨s, rfl⟩ := hu
  obtain ⟨t, rfl⟩ := hv
  refine ⟨s ++ t, ?_⟩
  rw [ofString, String.toList_append, List.flatMap_append]
  rfl

theorem of_append_cons {a : UInt8} (ha : a.toNat < 0x80)
    (h : IsText (u ++ a :: v)) : u.IsText ∧ v.IsText := by
  obtain ⟨t, ht⟩ := h
  obtain ⟨cs₁, cs₂, hu, hv⟩ := exists_encode_of_append ha ht
  exact ⟨⟨.ofList cs₁, (ofString_ofList cs₁).trans hu⟩,
    ⟨.ofList cs₂, (ofString_ofList cs₂).trans hv⟩⟩

end IsText

end Bytes

namespace Script

/-! ### Both ends of a run -/

theorem toNat_lt_of_isBlank {b : UInt8} (h : isBlank b = true) :
    b.toNat < 0x80 := by
  rcases (isBlank_iff b).mp h with hb | rfl
  · exact Nat.lt_of_le_of_lt (UInt8.le_iff_toNat_le.mp hb) (by decide)
  · decide

theorem Filler.Fits.exists_source_eq_cons {f : Filler} {rest : Bytes}
    (h : f.Fits rest) :
    ∃ a w, f.source = a :: w ∧ a.toNat < 0x80 := by
  cases f with
  | blank b => exact ⟨b, [], rfl, toNat_lt_of_isBlank h⟩
  | lineComment body ended => exact ⟨slash, _, rfl, by decide⟩
  | blockComment body => exact ⟨slash, _, rfl, by decide⟩
  | openComment body => exact ⟨slash, _, rfl, by decide⟩

theorem Filler.Fits.exists_source_eq_concat {f : Filler} {rest : Bytes}
    (h : f.Fits rest) (hne : rest ≠ []) :
    ∃ w a, f.source = w ++ [a] ∧ a.toNat < 0x80 := by
  cases f with
  | blank b => exact ⟨[], b, rfl, toNat_lt_of_isBlank h⟩
  | lineComment body ended =>
    cases ended with
    | false => exact absurd (h.2 rfl) hne
    | true => exact ⟨slash :: slash :: body, lineFeed, rfl, by decide⟩
  | blockComment body =>
    exact ⟨slash :: star :: body ++ [star], slash, by simp [source], by decide⟩
  | openComment body => exact absurd h.2 hne

theorem Run.Fits.exists_source_eq_concat {fs : List Filler} {rest : Bytes}
    (h : Run.Fits fs rest) (hfs : fs ≠ []) (hne : rest ≠ []) :
    ∃ w a, Run.source fs = w ++ [a] ∧ a.toNat < 0x80 := by
  induction fs with
  | nil => exact absurd rfl hfs
  | cons f fs ih =>
    obtain ⟨hf, htail⟩ := h
    by_cases hnil : fs = []
    · subst hnil
      have hlast : f.Fits rest := hf
      obtain ⟨w, a, hw, ha⟩ := hlast.exists_source_eq_concat hne
      exact ⟨w, a,
        by rw [Run.source_cons, Run.source_nil, List.append_nil, hw], ha⟩
    · obtain ⟨w, a, hw, ha⟩ := ih htail hnil
      exact ⟨f.source ++ w, a,
        by rw [Run.source_cons, hw, List.append_assoc], ha⟩

open Bytes

theorem isText_gap_byte (g : Gap) : IsText [g.byte] := by
  cases g with
  | space => exact ⟨" ", by decide⟩
  | line => exact ⟨"\n", by decide⟩

theorem IsText.of_run {fs : List Filler} {u rest : Bytes}
    (h : IsText (u ++ (Run.source fs ++ rest))) (hne : fs ≠ [])
    (hfs : Run.Fits fs rest) : IsText u ∧ IsText rest := by
  have hu : IsText u := by
    obtain ⟨f, fs, rfl⟩ := List.exists_cons_of_ne_nil hne
    obtain ⟨a, w, hw, ha⟩ := hfs.1.exists_source_eq_cons
    rw [Run.source_cons, hw] at h
    exact (IsText.of_append_cons ha h).1
  refine ⟨hu, ?_⟩
  by_cases hrest : rest = []
  · exact ⟨"", by rw [hrest]; rfl⟩
  · obtain ⟨w, a, hw, ha⟩ := hfs.exists_source_eq_concat hne hrest
    rw [hw, List.append_assoc, List.singleton_append, ← List.append_assoc] at h
    exact (IsText.of_append_cons ha h).2

/-! ### The output -/

/-- The text `u` is what has been copied since the last run. It may end within a
character, as long as the source goes on with the rest of it. -/
theorem isText_append_written {o : Options} {out : Bytes} {ss : List Segment}
    (h : IsCut o out ss) (u : Bytes)
    (htext : IsText (u ++ Segments.source ss)) :
    IsText (u ++ Segments.written out ss) := by
  induction ss generalizing out u with
  | nil => exact htext
  | cons g ss ih =>
    obtain ⟨hg, hss⟩ := h
    rw [Segments.source_cons] at htext
    rw [Segments.written_cons]
    cases hrun : g.isRun with
    | false =>
      rw [← List.append_assoc] at htext ⊢
      rw [Segment.written_eq_source hrun] at hss ⊢
      exact ih hss (u ++ g.source) htext
    | true =>
      obtain ⟨fs, rfl⟩ := Segment.exists_eq_run hrun
      obtain ⟨hu, hrest⟩ := IsText.of_run htext hg.1 hg.2.1
      have hgap :
          IsText ((Segment.run fs).written out (Segments.source ss)) := by
        rw [Segment.written]
        split
        · exact isText_gap_byte _
        · exact ⟨"", rfl⟩
      exact hu.append (hgap.append (ih hss [] hrest))

/-- What is made of a text is a text, and it is this text that is given for
it. -/
theorem exists_minifyText_eq_ok {o : Options} {source : String} {y : Bytes}
    (h : minify o (ofString source) = .ok y) :
    ∃ text, ofString text = y ∧ Text.Utf8.toString? y = some text ∧
      minifyText o source = .ok text := by
  obtain ⟨text, rfl⟩ : IsText y := by
    obtain ⟨-, rfl⟩ := (minify_eq_ok_iff o _ y).mp h
    refine isText_append_written (isCut_segments o [] _) [] ?_
    rw [source_segments]
    exact ⟨source, rfl⟩
  have hread := Text.Utf8.toString?_ofString text
  refine ⟨text, rfl, hread, ?_⟩
  rw [minifyText, h, Except.map, hread, Option.getD_some]

end Script

namespace Settings

variable {s : Settings} {source : String}

theorem transformText_eq_error {f : Failure}
    (h : s.transform (Bytes.ofString source) = .error f) :
    s.transformText source = .error f := by
  rw [transformText, h]

theorem exists_transformText_eq_ok {y : Bytes}
    (h : s.transform (Bytes.ofString source) = .ok y) :
    ∃ text, Bytes.ofString text = y ∧ s.transformText source = .ok text := by
  obtain ⟨text, rfl⟩ : y.IsText := by
    rw [transform, Engine.ofSettings] at h
    split at h
    · exact ⟨source, Except.ok.inj h⟩
    · rw [Engine.apply_minifier] at h
      split at h
      · next hminify =>
        cases h
        obtain ⟨text, htext, -⟩ := Script.exists_minifyText_eq_ok hminify
        exact ⟨text, htext⟩
      · cases h
  refine ⟨text, rfl, ?_⟩
  simp only [transformText, h, Text.Utf8.toString?_ofString]

end Settings

/-! ### Entry points for text -/

/-- What is made of a text is a text, and the entry points for text give that
text: they agree byte for byte with those for bytes, faults included, under all
options and settings. Text is never refused for its output. -/
theorem minifyText_transformText_eq (o : Script.Options) (s : Settings)
    (source : String) :
    (∀ y, Script.minify o (Bytes.ofString source) = .ok y →
      ∃ text, Bytes.ofString text = y ∧ Text.Utf8.toString? y = some text ∧
        Script.minifyText o source = .ok text) ∧
    (Script.minifyText o source).map Bytes.ofString =
      Script.minify o (Bytes.ofString source) ∧
    (s.transformText source).map Bytes.ofString =
      s.transform (Bytes.ofString source) ∧
    ∀ reason, s.transformText source ≠ .error (.system reason) := by
  refine ⟨fun y => Script.exists_minifyText_eq_ok, ?_, ?_, ?_⟩
  · cases hy : Script.minify o (Bytes.ofString source) with
    | error e =>
      rw [Script.minifyText, hy]
      rfl
    | ok y =>
      obtain ⟨text, rfl, -, htext⟩ := Script.exists_minifyText_eq_ok hy
      rw [htext]
      rfl
  · cases hy : s.transform (Bytes.ofString source) with
    | error f =>
      rw [Settings.transformText_eq_error hy]
      rfl
    | ok y =>
      obtain ⟨text, rfl, htext⟩ := Settings.exists_transformText_eq_ok hy
      rw [htext]
      rfl
  · intro reason h
    cases hy : s.transform (Bytes.ofString source) with
    | error f =>
      obtain ⟨fault, rfl⟩ := Engine.exists_rejected_of_apply hy
      rw [Settings.transformText_eq_error hy] at h
      cases h
    | ok y =>
      obtain ⟨text, -, htext⟩ := Settings.exists_transformText_eq_ok hy
      rw [htext] at h
      cases h

end Terse
