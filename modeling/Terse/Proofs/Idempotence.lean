import Terse.Proofs.Provenance

/-!
# Minifying twice

The output of a source is cut again. The second cut follows the first: what was
copied is a segment again, a gap that was kept is a run of one blank, and a gap
that was dropped leaves nothing (`segments_written_cons`). The one thing that
can go wrong is a copied slash that now stands in front of a slash or a star,
since there the second cut finds a comment. A comment is longer than the gap it
leaves, so the second output is then shorter (`length_written_add_count_le`), if
there is one at all.
-/

namespace Terse.Script

/-! ### Lengths -/

/-- Whether a comment stands in the segment. -/
def Segment.hasComment : Segment → Bool
  | .run fs => fs.any Filler.isComment
  | _ => false

theorem Filler.two_le_length_source {f : Filler} (h : f.isComment = true) :
    2 ≤ f.source.length := by
  cases f with
  | blank b => simp [isComment] at h
  | lineComment body ended => simp [source]
  | blockComment body => simp [source]
  | openComment body => simp [source]

theorem Run.length_le_length_source (fs : List Filler) :
    fs.length + (if fs.any Filler.isComment then 1 else 0) ≤
      (Run.source fs).length := by
  induction fs with
  | nil => simp
  | cons f fs ih =>
    rw [Run.source_cons, List.length_append, List.length_cons, List.any_cons]
    cases hf : f.isComment with
    | false =>
      have := f.length_source_pos
      simp only [Bool.false_or]
      omega
    | true =>
      have := Filler.two_le_length_source hf
      simp only [Bool.true_or, if_true]
      omega

/-- A segment writes no more than it has, and less if a comment stands in it. -/
theorem Segment.length_written_le {o : Options} {out rest : Bytes} {g : Segment}
    (h : g.Fits o out rest) :
    (g.written out rest).length + (if g.hasComment then 1 else 0) ≤
      g.source.length := by
  cases hrun : g.isRun with
  | false =>
    have hcomment : g.hasComment = false := by
      cases g with
      | run fs => simp [isRun] at hrun
      | literal d body => rfl
      | openLiteral d body => rfl
      | single b => rfl
    simp [written_eq_source hrun, hcomment]
  | true =>
    obtain ⟨fs, rfl⟩ := exists_eq_run hrun
    have hlength := Run.length_le_length_source fs
    have hpos := List.length_pos_iff.mpr h.1
    have hcomment : (Segment.run fs).hasComment = fs.any Filler.isComment := rfl
    have hone : ((Segment.run fs).written out rest).length ≤ 1 := by
      rw [written]
      split <;> simp
    rw [hcomment, source]
    omega

theorem length_written_add_count_le {o : Options} {out : Bytes}
    {ss : List Segment} (h : IsCut o out ss) :
    (Segments.written out ss).length + ss.countP Segment.hasComment ≤
      (Segments.source ss).length := by
  induction ss generalizing out with
  | nil => simp
  | cons g ss ih =>
    have hg := Segment.length_written_le h.1
    have hss := ih h.2
    rw [Segments.written_cons, Segments.source_cons, List.countP_cons,
      List.length_append, List.length_append]
    omega

theorem length_minify_le {o : Options} {x y : Bytes} (h : minify o x = .ok y) :
    y.length ≤ x.length := by
  obtain ⟨-, rfl⟩ := (minify_eq_ok_iff o x y).mp h
  have hlength := length_written_add_count_le (isCut_segments o [] x)
  rw [source_segments] at hlength
  omega

/-! ### The second cut follows the first -/

/-- What stands behind a gap that is kept is neither a blank nor a slash nor a
quote, and so is copied. -/
theorem Gap.right_of_separates {g : Gap} {p n : UInt8}
    (h : g.separates p n = true) :
    isBlank n = false ∧ n ≠ slash ∧ isQuote n = false := by
  have hclass : ∀ b : UInt8, beginsStatement b = true → isBlank b = false ∧
      b ≠ slash ∧ isQuote b = false :=
    forall_byte (by decide +kernel)
  apply hclass
  cases g with
  | space =>
    have hword : isWord n = true := (Bool.and_eq_true_iff.mp h).2
    simp [beginsStatement, hword]
  | line => exact (Bool.and_eq_true_iff.mp h).2

theorem Gap.exists_of_kept {g : Gap} {p n : Option UInt8}
    (h : g.kept p n = true) :
    ∃ a b, p = some a ∧ n = some b ∧ g.separates a b = true := by
  cases p with
  | none => simp at h
  | some a =>
    cases n with
    | none => simp at h
    | some b => exact ⟨a, b, rfl, rfl, h⟩

theorem Gap.isBlank_byte (g : Gap) : isBlank g.byte = true := by
  cases g <;> decide

/-- The run of one blank that a gap is written as stands for the same gap. -/
theorem Run.gap_blank_byte (g : Gap) : Run.gap [.blank g.byte] = g := by
  cases g <;> decide

theorem startsComment_eq_false_of_ne_slash {b : UInt8} (h : b ≠ slash)
    (s : Bytes) :
    startsComment (b :: s) = false := by
  cases s with
  | nil => rfl
  | cons c t => simp [startsComment, h]

/-- A byte that is neither a blank nor a slash nor a quote is a segment of its
own. -/
theorem Segment.single_fits {b : UInt8}
    (h : isBlank b = false ∧ b ≠ slash ∧ isQuote b = false) (o : Options)
    (out rest : Bytes) : (Segment.single b).Fits o out rest := by
  obtain ⟨hblank, hslash, hquote⟩ := h
  refine ⟨hblank, startsComment_eq_false_of_ne_slash hslash rest, ?_⟩
  rintro (hq | ⟨hs, -, -⟩)
  · simp [hquote] at hq
  · exact hslash hs

theorem again_of_kept {o : Options} {out : Bytes} {fs : List Filler}
    {ss : List Segment} (h : IsCut o out (.run fs :: ss))
    (hkept : (Run.gap fs).kept out.getLast? (Segments.source ss).head? = true) :
    (Segment.run [.blank (Run.gap fs).byte]).Fits o out
        (Segments.written (out ++ [(Run.gap fs).byte]) ss) ∧
      (Segment.run [.blank (Run.gap fs).byte]).written out
        (Segments.written (out ++ [(Run.gap fs).byte]) ss) =
          [(Run.gap fs).byte] := by
  have hwritten : (Segment.run fs).written out (Segments.source ss) =
      [(Run.gap fs).byte] := by
    rw [Segment.written, if_pos hkept]
  have hss := h.2
  rw [hwritten] at hss
  obtain ⟨p, n, hp, hn, hseparates⟩ := Gap.exists_of_kept hkept
  have hclass := Gap.right_of_separates hseparates
  -- the byte behind the gap is copied, so it stands behind the gap in the
  -- output too
  obtain ⟨t, ht⟩ := List.head?_eq_some_iff.mp hn
  obtain ⟨post, rfl, -, -⟩ :=
    eq_cons_of_fits hss (Segment.single_fits hclass o _ t) ht
  have hhead :
      (Segments.written (out ++ [(Run.gap fs).byte])
        (.single n :: post)).head? = some n := rfl
  constructor
  · refine ⟨by simp, ⟨Gap.isBlank_byte _, trivial⟩, ?_, ?_⟩
    · intro b hb
      obtain rfl : n = b := Option.some.inj (hhead.symm.trans hb)
      exact hclass.1
    · exact startsComment_eq_false_of_ne_slash hclass.2.1 _
  · rw [Segment.written, Run.gap_blank_byte, hhead, ← hn, if_pos hkept]

/-- A segment that closes and is no run is the same segment again, unless it is
a slash that meets the start of a comment. -/
theorem fits_again {o : Options} {out rest : Bytes} {g : Segment}
    (h : g.Fits o out rest) (hrun : g.isRun = false) (hclose : g.closes = true)
    {rest' : Bytes}
    (hmeets : g = .single slash → startsComment (slash :: rest') = false) :
    g.Fits o out rest' := by
  cases g with
  | run fs => simp [Segment.isRun] at hrun
  | literal d body =>
    obtain ⟨hd, hbody⟩ := h
    refine ⟨?_, hbody⟩
    rcases hd with hq | ⟨hslash, hcomment, hp⟩
    · exact .inl hq
    · refine .inr ⟨hslash, ?_, hp⟩
      -- the byte after the delimiter belongs to the literal
      cases body with
      | nil => exact hcomment
      | cons b s => exact hcomment
  | openLiteral d body => simp [Segment.closes] at hclose
  | single b =>
    obtain ⟨hblank, hcomment, hnot⟩ := h
    refine ⟨hblank, ?_, ?_⟩
    · by_cases hslash : b = slash
      · subst hslash
        exact hmeets rfl
      · exact startsComment_eq_false_of_ne_slash hslash rest'
    · rintro (hq | ⟨hslash, -, hp⟩)
      · exact hnot (.inl hq)
      · exact hnot (.inr ⟨hslash, hcomment, hp⟩)

theorem startsComment_slash_cons_eq_false {s : Bytes}
    (h : ∀ c, s.head? = some c → ¬ (c = slash ∨ c = star)) :
    startsComment (slash :: s) = false := by
  cases s with
  | nil => rfl
  | cons c t => simpa [startsComment] using h c rfl

/-- What one segment of the first cut writes, `w`, is one segment of the second
cut, if it is anything. -/
theorem exists_again {o : Options} {out : Bytes} {g : Segment}
    {ss : List Segment} (h : IsCut o out (g :: ss)) (hclose : g.closes = true)
    (hmeets : g = .single slash → ∀ c,
      (Segments.written (out ++ [slash]) ss).head? = some c →
      ¬ (c = slash ∨ c = star))
    {w : Bytes} (hw : g.written out (Segments.source ss) = w) :
    w = [] ∨ ∃ g' : Segment, g'.source = w ∧
      g'.Fits o out (Segments.written (out ++ w) ss) ∧
      g'.written out (Segments.written (out ++ w) ss) = w ∧
        g'.closes = true := by
  cases hrun : g.isRun with
  | true =>
    obtain ⟨fs, rfl⟩ := Segment.exists_eq_run hrun
    by_cases hkept :
      (Run.gap fs).kept out.getLast? (Segments.source ss).head? = true
    · rw [Segment.written, if_pos hkept] at hw
      subst hw
      obtain ⟨hfits, hwritten⟩ := again_of_kept h hkept
      exact .inr ⟨_, rfl, hfits, hwritten, rfl⟩
    · rw [Segment.written, if_neg hkept] at hw
      exact .inl hw.symm
  | false =>
    rw [Segment.written_eq_source hrun] at hw
    subst hw
    refine .inr ⟨g, rfl, fits_again h.1 hrun hclose ?_,
      Segment.written_eq_source hrun _ _, hclose⟩
    rintro rfl
    exact startsComment_slash_cons_eq_false (hmeets rfl)

/-- If no copied slash meets the start of a comment, the second pass writes what
the first one wrote. -/
theorem written_segments_written {o : Options} {out : Bytes} {ss : List Segment}
    (h : IsCut o out ss) (hclose : ∀ g ∈ ss, g.closes = true)
    (hmeets : ¬ MeetsOpener (Segments.marked out ss)) :
    (∀ g ∈ segments o out (Segments.written out ss), g.closes = true) ∧
      Segments.written out (segments o out (Segments.written out ss)) =
        Segments.written out ss := by
  induction ss generalizing out with
  | nil => simp [segments]
  | cons g ss ih =>
    obtain ⟨hg, hss⟩ := List.forall_mem_cons.mp hclose
    rw [meetsOpener_marked_cons, not_or] at hmeets
    obtain ⟨hhead, htail⟩ := hmeets
    have hnot : g = .single slash →
        ∀ c, (Segments.written (out ++ [slash]) ss).head? = some c →
          ¬ (c = slash ∨ c = star) :=
      fun hs c hc hor => hhead ⟨hs, c, hc, hor⟩
    obtain ⟨hcloses, hwritten⟩ := ih h.2 hss htail
    have hagain := exists_again h hg hnot rfl
    rw [Segments.written_cons]
    generalize g.written out (Segments.source ss) = w at *
    rcases hagain with rfl | ⟨g', rfl, hfits, hw, hg'⟩
    · rw [List.append_nil] at hcloses hwritten ⊢
      exact ⟨hcloses, hwritten⟩
    · rw [segments_of_fits hfits, hw]
      refine ⟨List.forall_mem_cons.mpr ⟨hg', hcloses⟩, ?_⟩
      rw [Segments.written_cons, source_segments, hw, hwritten]

theorem Segment.hasComment_of_startsComment {o : Options} {out rest : Bytes}
    {g : Segment} (hg : g.Fits o out rest)
    (h : startsComment (g.source ++ rest) = true) : g.hasComment = true := by
  cases g with
  | run fs =>
    obtain ⟨f, fs, rfl⟩ := List.exists_cons_of_ne_nil hg.1
    cases f with
    | blank b =>
      have hb : isBlank b = true := hg.2.1.1
      by_cases hslash : b = slash
      · subst hslash
        exact absurd hb (by decide)
      · rw [source, Run.source_cons] at h
        simp only [Filler.source, List.cons_append,
          startsComment_eq_false_of_ne_slash hslash] at h
        exact absurd h Bool.false_ne_true
    | lineComment body ended => rfl
    | blockComment body => rfl
    | openComment body => rfl
  | literal d body =>
    have := hg.1.not_blank.2
    simp_all [source]
  | openLiteral d body =>
    obtain ⟨hd, -, rfl⟩ := hg
    have := hd.not_blank.2
    simp_all [source]
  | single b =>
    have := hg.2.1
    simp_all [source]

/-- If a copied slash meets the start of a comment, the second cut has a
comment. -/
theorem exists_hasComment_of_meetsOpener {o : Options} {out : Bytes}
    {ss : List Segment} (h : IsCut o out ss)
    (hclose : ∀ g ∈ ss, g.closes = true)
    (hmeets : MeetsOpener (Segments.marked out ss)) :
    ∃ g ∈ segments o out (Segments.written out ss), g.hasComment = true := by
  induction ss generalizing out with
  | nil => simp [MeetsOpener, Segments.marked] at hmeets
  | cons g ss ih =>
    obtain ⟨hg, hss⟩ := List.forall_mem_cons.mp hclose
    rw [meetsOpener_marked_cons] at hmeets
    by_cases hhead : g = .single slash ∧
        ∃ c, (Segments.written (out ++ [slash]) ss).head? = some c ∧
          (c = slash ∨ c = star)
    · obtain ⟨rfl, c, hc, hor⟩ := hhead
      obtain ⟨t, ht⟩ := List.head?_eq_some_iff.mp hc
      have htext : Segments.written out (.single slash :: ss) = slash :: c ::
          t := congrArg (slash :: ·) ht
      have hstarts : startsComment (slash :: c :: t) = true := by
        rcases hor with rfl | rfl <;> rfl
      obtain ⟨g', rest, hcut, hfits⟩ :=
        Segment.exists_fits o out (List.cons_ne_nil slash (c :: t))
      rw [htext, hcut, segments_of_fits hfits]
      exact ⟨g', List.mem_cons_self,
        Segment.hasComment_of_startsComment hfits (hcut ▸ hstarts)⟩
    · have hnot : g = .single slash →
          ∀ c, (Segments.written (out ++ [slash]) ss).head? = some c →
            ¬ (c = slash ∨ c = star) :=
        fun hs c hc hor => hhead ⟨hs, c, hc, hor⟩
      obtain ⟨g₁, hmem, hcomment⟩ := ih h.2 hss (hmeets.resolve_left hhead)
      have hagain := exists_again h hg hnot rfl
      rw [Segments.written_cons]
      generalize g.written out (Segments.source ss) = w at *
      rcases hagain with rfl | ⟨g', rfl, hfits, hw, -⟩
      · rw [List.append_nil] at hmem ⊢
        exact ⟨g₁, hmem, hcomment⟩
      · rw [segments_of_fits hfits, hw]
        exact ⟨g₁, List.mem_cons_of_mem _ hmem, hcomment⟩

/-- Minifying the output of a source leaves it as it is exactly if no copied
slash stands in it directly before a slash or a star. Where one does, the second
pass fails or makes the output shorter. -/
theorem minify_idempotent_iff {o : Options} {x y : Bytes}
    (h : minify o x = .ok y) :
    (marked o x).map Prod.snd = y ∧
      (minify o y = .ok y ↔ ¬ MeetsOpener (marked o x)) ∧
      (MeetsOpener (marked o x) → ∀ z, minify o y = .ok z →
        z.length < y.length) := by
  have hcut := isCut_segments o [] x
  obtain ⟨hclose, rfl⟩ := (minify_eq_ok_iff o x y).mp h
  have hshorter : MeetsOpener (marked o x) →
      ∀ z, minify o (Segments.written [] (segments o [] x)) = .ok z →
        z.length < (Segments.written [] (segments o [] x)).length := by
    intro hmeets z hz
    obtain ⟨-, rfl⟩ := (minify_eq_ok_iff o _ z).mp hz
    have hlength := length_written_add_count_le
      (isCut_segments o [] (Segments.written [] (segments o [] x)))
    have hcount :=
      List.countP_pos_iff.mpr
        (exists_hasComment_of_meetsOpener hcut hclose hmeets)
    rw [source_segments] at hlength
    omega
  refine ⟨map_snd_marked_of_minify_eq_ok h, ⟨?_, ?_⟩, hshorter⟩
  · intro hsame hmeets
    exact Nat.lt_irrefl _ (hshorter hmeets _ hsame)
  · intro hmeets
    obtain ⟨hcloses, hwritten⟩ := written_segments_written hcut hclose hmeets
    exact (minify_eq_ok_iff o _ _).mpr ⟨hcloses, hwritten.symm⟩

/-- A quotient over two lines is left as it is by a second pass, a division by a
regular expression is not. -/
theorem minify_idempotent_quotients :
    (minify {} (Bytes.ofAscii "a / b \n c") = .ok (Bytes.ofAscii "a/b\nc") ∧
      minify {} (Bytes.ofAscii "a/b\nc") = .ok (Bytes.ofAscii "a/b\nc")) ∧
    minify {} (Bytes.ofAscii "a / /b/") = .ok (Bytes.ofAscii "a//b/") ∧
      minify {} (Bytes.ofAscii "a//b/") ≠ .ok (Bytes.ofAscii "a//b/") := by
  have hsegments : segments {} [] (Bytes.ofAscii "a / b \n c") =
      [.single 0x61, .run [.blank 0x20], .single slash, .run [.blank 0x20],
        .single 0x62,
        .run [.blank 0x20, .blank 0x0a, .blank 0x20],
          .single 0x63] := by decide +kernel
  have hquotient : minify {} (Bytes.ofAscii "a / b \n c") =
      .ok (Bytes.ofAscii "a/b\nc") := by
    rw [minify_eq_ok_iff, hsegments]
    decide
  have hmarked : marked {} (Bytes.ofAscii "a / b \n c") =
      [(.copied, 0x61), (.copied, slash), (.copied, 0x62), (.gap, 0x0a),
        (.copied, 0x63)] := by
    rw [marked, hsegments]
    decide
  have hfree : ¬ MeetsOpener (marked {} (Bytes.ofAscii "a / b \n c")) := by
    rw [hmarked]
    decide
  refine ⟨⟨hquotient, (minify_idempotent_iff hquotient).2.1.mpr hfree⟩,
    minify_division_by_regex, ?_⟩
  intro hsame
  apply (minify_idempotent_iff minify_division_by_regex).2.1.mp hsame
  exact (meetsOpener_marked_iff (isCut_segments {} [] _)).mpr
    ⟨_, slash, infix_segments_division_by_regex, .inl rfl⟩

end Terse.Script
