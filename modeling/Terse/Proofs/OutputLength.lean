import Mathlib.Data.List.Forall2
import Terse.Proofs.Idempotence
import Terse.Proofs.Words

/-!
# Length of an output

No segment writes more than it is made of (`Segment.length_written_le`), so an
output is at most as long as its source. If it is as long, no segment may have
written less: there is no comment, and a run can only be one blank, written as
the byte that the blank reads as. Source and output then agree byte by byte, up
to such blanks (`forall₂_leaves_of_length_eq`).
-/

namespace Terse.Script

/-- What becomes of a byte of the source that leaves a byte of the output: it
stays, or it is a blank outside literals and is written as what it reads as. -/
def Leaves (e : Origin × UInt8) (c : UInt8) : Prop :=
  c = e.2 ∨ (e.1 ≠ .literal ∧ isBlank e.2 = true ∧ c = normalize e.2)

variable {o : Options} {out rest : Bytes}

theorem Run.byte_gap_blank {b : UInt8} (h : isBlank b = true) :
    (Run.gap [.blank b]).byte = normalize b := by
  revert h
  exact forall_byte (p := fun b => isBlank b = true →
    (Run.gap [.blank b]).byte = normalize b)
    (by decide +kernel) b

theorem Run.exists_blank_of_length_le_one {fs : List Filler} (hne : fs ≠ [])
    (hfits : Run.Fits fs rest) (hlength : (Run.source fs).length ≤ 1) :
    ∃ b, fs = [.blank b] ∧ isBlank b = true := by
  have hle := Run.length_le_length_source fs
  have hpos := List.length_pos_iff.mpr hne
  have hcomment : fs.any Filler.isComment = false := by
    rw [Bool.eq_false_iff]
    intro hany
    rw [if_pos hany] at hle
    omega
  obtain ⟨f, rfl⟩ : ∃ f, fs = [f] := List.length_eq_one_iff.mp (by omega)
  cases f with
  | blank b => exact ⟨b, rfl, hfits.1⟩
  | lineComment body ended => simp [Filler.isComment] at hcomment
  | blockComment body => simp [Filler.isComment] at hcomment
  | openComment body => simp [Filler.isComment] at hcomment

theorem forall₂_leaves_self (m : Origin) (s : Bytes) :
    List.Forall₂ Leaves (s.map (Prod.mk m)) s :=
  List.forall₂_map_left_iff.mpr (List.forall₂_same.mpr fun _ _ => .inl rfl)

/-- A segment that writes as much as it is made of writes it byte by byte. -/
theorem Segment.forall₂_leaves_of_length_eq {g : Segment}
    (h : g.Fits o out rest)
    (hlength : (g.written out rest).length = g.source.length) :
    List.Forall₂ Leaves (g.source.map (Prod.mk g.origin))
      (g.written out rest) := by
  cases hrun : g.isRun with
  | false =>
    rw [written_eq_source hrun]
    exact forall₂_leaves_self g.origin g.source
  | true =>
    obtain ⟨fs, rfl⟩ := exists_eq_run hrun
    have hpos : 0 < (Run.source fs).length :=
      List.length_pos_iff.mpr (source_ne_nil h)
    rw [written, source] at hlength
    rw [written]
    split at hlength
    · next hkept =>
      obtain ⟨b, rfl, hb⟩ :=
        Run.exists_blank_of_length_le_one h.1 h.2.1 (Nat.le_of_eq hlength.symm)
      rw [if_pos hkept, Run.byte_gap_blank hb]
      exact .cons (.inr ⟨by simp [origin], hb, rfl⟩) .nil
    · rw [List.length_nil] at hlength
      omega

/-- Segments that write as much as they are made of write it byte by byte. -/
theorem forall₂_leaves_of_length_eq {ss : List Segment} (h : IsCut o out ss)
    (hlength : (Segments.written out ss).length = (Segments.source ss).length) :
    List.Forall₂ Leaves (Segments.markedSource ss)
      (Segments.written out ss) := by
  induction ss generalizing out with
  | nil => exact .nil
  | cons g ss ih =>
    obtain ⟨hg, hss⟩ := h
    have hlengthg := Segment.length_written_le hg
    have hlengthss := length_written_add_count_le hss
    rw [Segments.written_cons, Segments.source_cons, List.length_append,
      List.length_append] at hlength
    rw [Segments.markedSource_cons, Segments.written_cons]
    -- neither the segment nor the later ones make up for what the others leave
    -- out
    apply List.rel_append
    · exact Segment.forall₂_leaves_of_length_eq hg (by omega)
    · exact ih hss (by omega)

/-- An output is at most as long as its source. If it is as long, no comment
stands in the source, and every byte is left as it is, except that blanks
outside literals are written as the space or line feed they read as. -/
theorem length_le_of_minify_eq_ok {o : Options} {x y : Bytes}
    (h : minify o x = .ok y) :
    (markedSource o x).map Prod.snd = x ∧ y.length ≤ x.length ∧
      (y.length = x.length →
        (∀ g ∈ segments o [] x, g.hasComment = false) ∧
          ∀ (i : Nat) (e : Origin × UInt8), (markedSource o x)[i]? = some e →
            y[i]? = some e.2 ∨
              (e.1 ≠ .literal ∧ isBlank e.2 = true ∧
                y[i]? = some (normalize e.2))) := by
  obtain ⟨-, rfl⟩ := (minify_eq_ok_iff o x y).mp h
  have hcut := isCut_segments o [] x
  have hlength := length_written_add_count_le hcut
  rw [source_segments] at hlength
  refine ⟨?_, by omega, ?_⟩
  · rw [markedSource, Segments.map_snd_markedSource, source_segments]
  · intro hsame
    constructor
    · intro g hg
      rw [Bool.eq_false_iff]
      intro hcomment
      have hcount : 0 < (segments o [] x).countP Segment.hasComment :=
        List.countP_pos_iff.mpr ⟨g, hg, hcomment⟩
      omega
    · intro i e he
      have hleaves :=
        forall₂_leaves_of_length_eq hcut (by rw [hsame, source_segments])
      rw [← markedSource] at hleaves
      obtain ⟨hi, rfl⟩ := List.getElem?_eq_some_iff.mp he
      have hiy : i < (Segments.written [] (segments o [] x)).length := by
        rwa [← hleaves.length_eq]
      rw [List.getElem?_eq_getElem hiy]
      rcases hleaves.get hi hiy with hc | ⟨hm, hb, hc⟩
      · exact .inl (congrArg some hc)
      · exact .inr ⟨hm, hb, congrArg some hc⟩

/-- A tab between two words and a carriage return between two statements are
written as what they read as, the tab in the string stays. A blank more, or a
comment, and the output is shorter. -/
theorem length_le_of_minify_blanks :
    minify {} (Bytes.ofAscii "in\ta\rb='\t'") =
      .ok (Bytes.ofAscii "in a\nb='\t'") ∧
      (Bytes.ofAscii "in a\nb='\t'").length =
        (Bytes.ofAscii "in\ta\rb='\t'").length ∧
      (∀ g ∈ segments {} [] (Bytes.ofAscii "in\ta\rb='\t'"),
        g.hasComment = false) ∧
      minify {} (Bytes.ofAscii "in\ta\r/**/") = .ok (Bytes.ofAscii "in a") ∧
      (Bytes.ofAscii "in a").length ≤ (Bytes.ofAscii "in\ta\r/**/").length := by
  have hsame : minify {} (Bytes.ofAscii "in\ta\rb='\t'") =
      .ok (Bytes.ofAscii "in a\nb='\t'") := by
    have hcut : segments {} [] (Bytes.ofAscii "in\ta\rb='\t'") =
        [.single 0x69, .single 0x6e, .run [.blank 0x09], .single 0x61,
          .run [.blank 0x0d],
          .single 0x62, .single 0x3d,
            .literal singleQuote [0x09]] := by decide +kernel
    rw [minify_eq_ok_iff, hcut]
    decide
  have hshort : minify {} (Bytes.ofAscii "in\ta\r/**/") =
      .ok (Bytes.ofAscii "in a") := by
    have hcut : segments {} [] (Bytes.ofAscii "in\ta\r/**/") =
        [.single 0x69, .single 0x6e, .run [.blank 0x09], .single 0x61,
          .run [.blank 0x0d, .blockComment []]] := by decide +kernel
    rw [minify_eq_ok_iff, hcut]
    decide
  have hlength : (Bytes.ofAscii "in a\nb='\t'").length =
      (Bytes.ofAscii "in\ta\rb='\t'").length := by decide
  exact ⟨hsame, hlength, ((length_le_of_minify_eq_ok hsame).2.2 hlength).1,
    hshort,
    (length_le_of_minify_eq_ok hshort).2.1⟩

end Terse.Script
