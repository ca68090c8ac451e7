import Terse.Proofs.Segmentation

/-!
# Bundles of sources

Sources are bundled by writing them one after the other with a line feed and a
semicolon between them. At the seam nothing of the first source reaches into the
second: the line feed ends a line comment that the first source may leave
without an end, becomes part of a run or is one of its own, and separates
nothing from the semicolon (`run_append_seam`). After the semicolon everything
is as at the start of the output: an operand is expected, no gap is kept, and no
keyword can reach back over it (`isCut_append_semicolon_iff`). So the outputs
are bundled as the sources are, and a fault in the second source is the same
fault further on.
-/

namespace Terse.Script

abbrev semicolon : UInt8 := 0x3b

/-! ### The first source -/

theorem startsComment_append_lineFeed (b : UInt8) (rest s : Bytes) :
    startsComment (b :: (rest ++ lineFeed :: s)) =
      startsComment (b :: rest) := by
  cases rest with
  | nil => exact Bool.and_false _
  | cons c rest => rfl

theorem Stops.append_lineFeed {rest : Bytes} (hne : rest ≠ []) (h : Stops rest)
    (s : Bytes) :
    Stops (rest ++ lineFeed :: s) := by
  obtain ⟨b, rest, rfl⟩ := List.exists_cons_of_ne_nil hne
  exact ⟨h.1, (startsComment_append_lineFeed b rest s).trans h.2⟩

theorem OpensLiteral.append_lineFeed_iff {o : Options} {out rest : Bytes}
    {d : UInt8} (s : Bytes) :
    OpensLiteral o out d (rest ++ lineFeed :: s) ↔
      OpensLiteral o out d rest := by
  rw [OpensLiteral, OpensLiteral, startsComment_append_lineFeed]

/-- Closed pieces in front of something fit in front of anything that is
longer. -/
theorem Filler.Fits.append {f : Filler} {rest : Bytes} (h : f.Fits rest)
    (hne : rest ≠ []) (s : Bytes) :
    f.Fits (rest ++ s) := by
  cases f with
  | blank b => exact h
  | lineComment body ended => exact ⟨h.1, fun he => absurd (h.2 he) hne⟩
  | blockComment body => exact h
  | openComment body => exact absurd h.2 hne

theorem Run.Fits.append {fs : List Filler} {rest : Bytes} (h : Run.Fits fs rest)
    (hne : rest ≠ []) (s : Bytes) :
    Run.Fits fs (rest ++ s) := by
  induction fs with
  | nil => trivial
  | cons f fs ih =>
    refine ⟨?_, ih h.2⟩
    rw [← List.append_assoc]
    exact h.1.append (List.append_ne_nil_of_right_ne_nil _ hne) s

/-- A closed segment also fits if a line feed comes behind the rest, unless it
is a run at the end. -/
theorem Segment.Fits.append_lineFeed {o : Options} {out rest : Bytes}
    {g : Segment} (h : g.Fits o out rest) (hclose : g.closes = true)
    (hend : g.isRun = true → rest ≠ []) (s : Bytes) :
    g.Fits o out (rest ++ lineFeed :: s) := by
  cases g with
  | run fs =>
    have hne := hend rfl
    exact ⟨h.1, h.2.1.append hne _, h.2.2.append_lineFeed hne s⟩
  | literal d body =>
    obtain ⟨hd, hbody⟩ := h
    have hsplit : body ++ d :: (rest ++ lineFeed :: s) = (body ++ d :: rest) ++
        lineFeed :: s := by simp
    refine ⟨?_, hbody⟩
    rw [hsplit]
    exact (OpensLiteral.append_lineFeed_iff s).mpr hd
  | openLiteral d body => cases hclose
  | single b =>
    obtain ⟨hblank, hcomment, hnot⟩ := h
    refine ⟨hblank, (startsComment_append_lineFeed b rest s).trans hcomment, ?_⟩
    exact fun hopen => hnot ((OpensLiteral.append_lineFeed_iff s).mp hopen)

/-- A run at the end of a source goes on with a line feed. If its last piece is
a line comment, the line feed ends it; otherwise it is a piece of its own. -/
theorem Run.exists_append_lineFeed {fs : List Filler} (h : Run.Fits fs [])
    (hclose : fs.all Filler.closes = true) (s : Bytes) :
    ∃ fs', fs' ≠ [] ∧ Run.source fs' = Run.source fs ++ [lineFeed] ∧
      Run.Fits fs' s ∧
      fs'.all Filler.closes = true := by
  induction fs with
  | nil => exact ⟨[.blank lineFeed], by simp, rfl, ⟨rfl, trivial⟩, rfl⟩
  | cons f fs ih =>
    obtain ⟨hf, hfs⟩ := h
    rw [List.all_cons, Bool.and_eq_true] at hclose
    obtain ⟨fs', -, hsource, hfits, hall⟩ := ih hfs hclose.2
    have hgo : f.Fits (Run.source fs' ++ s) → ∃ fs', fs' ≠ [] ∧
        Run.source fs' = Run.source (f :: fs) ++ [lineFeed] ∧ Run.Fits fs' s ∧
          fs'.all Filler.closes = true := by
      intro hf'
      refine ⟨f :: fs', by simp, ?_, ⟨hf', hfits⟩, ?_⟩
      · rw [Run.source_cons, hsource, Run.source_cons, List.append_assoc]
      · rw [List.all_cons, hclose.1, hall]
        rfl
    cases f with
    | blank b => exact hgo hf
    | blockComment body => exact hgo hf
    | openComment body => cases hclose.1
    | lineComment body ended =>
      cases ended with
      | true => exact hgo ⟨hf.1, by simp⟩
      | false =>
        -- nothing comes behind a line comment without an end
        have hnil : Run.source fs = [] :=
          (List.append_eq_nil_iff.mp (hf.2 rfl)).1
        refine ⟨[.lineComment body true], by simp, ?_,
          ⟨⟨hf.1, by simp⟩, trivial⟩, rfl⟩
        simp [Filler.source, hnil]

theorem Segment.single_semicolon_fits (o : Options) (out rest : Bytes) :
    (Segment.single semicolon).Fits o out rest := by
  refine ⟨by decide, ?_, ?_⟩
  · cases rest <;> rfl
  · rintro (hq | ⟨hs, -, -⟩)
    · exact absurd hq (by decide)
    · exact absurd hs (by decide)

/-- The seam after the pieces of a run, of which there may be none: all of it
but the semicolon is dropped. -/
theorem run_of_seam (o : Options) {fs : List Filler} (h : Run.Fits fs [])
    (hclose : fs.all Filler.closes = true) (out s : Bytes) (n : Nat) :
    run o ⟨⟨n, none, Run.source fs ++ lineFeed :: semicolon :: s⟩,
      out.reverse⟩ =
      run o ⟨⟨n + (Run.source fs).length + 2, none, s⟩,
        (out ++ [semicolon]).reverse⟩ := by
  obtain ⟨fs', hne, hsource, hfits, hall⟩ :=
    Run.exists_append_lineFeed h hclose (semicolon :: s)
  have hstops : Stops (semicolon :: s) := by
    refine ⟨?_, ?_⟩
    · intro b hb
      obtain rfl : semicolon = b := Option.some.inj hb
      rfl
    · cases s <;> rfl
  have hrun : (Segment.run fs').Fits o out (semicolon :: s) :=
    ⟨hne, hfits, hstops⟩
  have hfault : (Segment.run fs').fault? n = none :=
    (Segment.fault?_eq_none_iff n _).mpr hall
  have hdropped : (Segment.run fs').written out (semicolon :: s) = [] := by
    have hkept :=
      Gap.kept_eq_false (b := semicolon) rfl (Run.gap fs') out.getLast?
    simp [Segment.written, hkept]
  have hsplit : Run.source fs ++ lineFeed :: semicolon :: s =
      (Segment.run fs').source ++ semicolon :: s := by
    simp [Segment.source, hsource]
  have hcopied := run_of_fits (Segment.single_semicolon_fits o out s)
    (n + (Segment.run fs').source.length)
  rw [hsplit, run_of_fits hrun, hfault, hdropped]
  dsimp only
  rw [List.append_nil]
  refine hcopied.trans ?_
  simp [Segment.fault?, Segment.written, Segment.source, hsource, Nat.add_assoc]

/-- What the machine does with a source that is accepted on its own and has a
seam behind it. -/
theorem run_append_seam {o : Options} {out : Bytes} {ss : List Segment}
    (h : IsCut o out ss) (hclose : ∀ g ∈ ss, g.closes = true) (n : Nat)
    (s : Bytes) :
    run o ⟨⟨n, none, Segments.source ss ++ lineFeed :: semicolon :: s⟩,
      out.reverse⟩ =
      run o ⟨⟨n + (Segments.source ss).length + 2, none, s⟩,
        (out ++ Segments.written out ss ++ [semicolon]).reverse⟩ := by
  induction ss generalizing out n with
  | nil =>
    have hnone : Run.Fits [] [] := trivial
    simpa using run_of_seam o hnone rfl out s n
  | cons g ss ih =>
    obtain ⟨hg, hss⟩ := h
    obtain ⟨hgclose, hssclose⟩ := List.forall_mem_cons.mp hclose
    by_cases hlast : g.isRun = true ∧ Segments.source ss = []
    · obtain ⟨hrun, hnil⟩ := hlast
      obtain ⟨fs, rfl⟩ := Segment.exists_eq_run hrun
      obtain rfl := hss.eq_nil hnil
      simpa [Segment.source, Segments.written_cons, Segment.written] using
        run_of_seam o hg.2.1 hgclose out s n
    · have hend : g.isRun = true → Segments.source ss ≠ [] :=
        fun hrun hnil => hlast ⟨hrun, hnil⟩
      have hfault : g.fault? n = none :=
        (Segment.fault?_eq_none_iff n g).mpr hgclose
      -- the gap of a run sees the first byte of the rest, which is the same
      -- with the seam
      have hwritten :
        g.written out (Segments.source ss ++ lineFeed :: semicolon :: s) =
          g.written out (Segments.source ss) := by
        cases hrun : g.isRun with
        | false =>
          rw [Segment.written_eq_source hrun, Segment.written_eq_source hrun]
        | true =>
          obtain ⟨fs, rfl⟩ := Segment.exists_eq_run hrun
          obtain ⟨b, t, hb⟩ := List.exists_cons_of_ne_nil (hend hrun)
          rw [hb]
          rfl
      rw [Segments.source_cons, List.append_assoc,
        run_of_fits (hg.append_lineFeed hgclose hend (semicolon :: s)),
          hfault, hwritten]
      dsimp only
      rw [ih hss hssclose, Segments.written_cons, List.length_append]
      simp only [List.append_assoc, Nat.add_assoc]

/-! ### The second source -/

/-- Nothing before a semicolon matters for whether a regular expression
opens. -/
theorem regexPosition_append_semicolon_iff (o : Options) (pre out : Bytes) :
    RegexPosition o (pre ++ semicolon :: out) ↔ RegexPosition o out := by
  have hkeywords : ∀ k ∈ operandKeywords, semicolon ∉ k := by decide
  have hlast : ∀ s : Bytes, (pre ++ semicolon :: s).getLast? =
      some (s.getLast?.getD semicolon) := by
    intro s
    rw [List.getLast?_append, List.getLast?_cons]
    rfl
  cases hout : out.getLast? with
  | none =>
    obtain rfl := List.getLast?_eq_none_iff.mp hout
    exact iff_of_true (.inr (.inl ⟨semicolon, hlast [], rfl⟩)) (.inl rfl)
  | some c =>
    have hsame : (pre ++ semicolon :: out).getLast? = out.getLast? := by
      rw [hlast, hout]; rfl
    have hne : out ≠ [] := by
      rintro rfl
      cases hout
    rw [RegexPosition, RegexPosition, hsame]
    refine or_congr (iff_of_false (by simp) hne)
      (or_congr Iff.rfl (and_congr Iff.rfl ?_))
    constructor
    · rintro ⟨k, hk, before, heq, hbefore⟩
      refine ⟨k, hk, ?_⟩
      rcases List.append_eq_append_iff.mp heq with ⟨t, rfl, ht⟩ | ⟨t, -, ht⟩
      · rcases t with _ | ⟨c, t⟩
        · rw [List.nil_append] at ht
          exact absurd (ht ▸ List.mem_cons_self) (hkeywords k hk)
        · obtain ⟨rfl, rfl⟩ := List.cons.inj ht
          refine ⟨t, rfl, fun b hb => hbefore b ?_⟩
          rw [hlast, hb]
          rfl
      · exact absurd (ht ▸ List.mem_append_right t List.mem_cons_self)
          (hkeywords k hk)
    · rintro ⟨k, hk, before, rfl, hbefore⟩
      refine ⟨k, hk, pre ++ semicolon :: before, by simp, fun b hb => ?_⟩
      rw [hlast] at hb
      cases hb' : before.getLast? with
      | none =>
        rw [hb'] at hb
        obtain rfl : semicolon = b := Option.some.inj hb
        exact ⟨rfl, by decide⟩
      | some c =>
        rw [hb'] at hb
        exact hbefore b (hb'.trans hb)

theorem opensLiteral_append_semicolon_iff (o : Options) (pre out : Bytes)
    (d : UInt8) (rest : Bytes) :
    OpensLiteral o (pre ++ semicolon :: out) d rest ↔
      OpensLiteral o out d rest := by
  rw [OpensLiteral, OpensLiteral, regexPosition_append_semicolon_iff]

theorem Segment.fits_append_semicolon_iff (o : Options) (pre out rest : Bytes)
    (g : Segment) :
    g.Fits o (pre ++ semicolon :: out) rest ↔ g.Fits o out rest := by
  cases g with
  | run fs => exact Iff.rfl
  | literal d body =>
    exact and_congr (opensLiteral_append_semicolon_iff ..) Iff.rfl
  | openLiteral d body =>
    exact and_congr (opensLiteral_append_semicolon_iff ..) Iff.rfl
  | single b =>
    exact and_congr Iff.rfl
      (and_congr Iff.rfl (not_congr (opensLiteral_append_semicolon_iff ..)))

theorem Segment.written_append_semicolon (pre out rest : Bytes) (g : Segment) :
    g.written (pre ++ semicolon :: out) rest = g.written out rest := by
  cases g with
  | run fs =>
    have hlast : (pre ++ semicolon :: out).getLast? =
        some (out.getLast?.getD semicolon) := by
      rw [List.getLast?_append, List.getLast?_cons]
      rfl
    have hkept :
      (Run.gap fs).kept (pre ++ semicolon :: out).getLast? rest.head? =
        (Run.gap fs).kept out.getLast? rest.head? := by
      rw [hlast]
      cases out.getLast? with
      | some p => rfl
      | none =>
        cases rest.head? with
        | none => rfl
        | some b => cases Run.gap fs <;> rfl
    rw [Segment.written, Segment.written, hkept]
  | literal d body => rfl
  | openLiteral d body => rfl
  | single b => rfl

theorem isCut_append_semicolon_iff (o : Options) (pre out : Bytes)
    (ss : List Segment) :
    IsCut o (pre ++ semicolon :: out) ss ↔ IsCut o out ss := by
  induction ss generalizing out with
  | nil => exact Iff.rfl
  | cons g ss ih =>
    rw [IsCut, IsCut, Segment.fits_append_semicolon_iff,
      Segment.written_append_semicolon, List.append_assoc,
      List.cons_append, ih]

theorem Segments.written_append_semicolon (pre out : Bytes)
    (ss : List Segment) :
    Segments.written (pre ++ semicolon :: out) ss =
      Segments.written out ss := by
  induction ss generalizing out with
  | nil => rfl
  | cons g ss ih =>
    rw [written_cons, written_cons, Segment.written_append_semicolon,
      List.append_assoc, List.cons_append, ih]

/-! ### Faults -/

def Fault.shift (k : Nat) : Fault → Fault
  | .openComment n => .openComment (n + k)
  | .openLiteral n d => .openLiteral (n + k) d

theorem Filler.fault?_add (n k : Nat) (f : Filler) :
    f.fault? (n + k) = (f.fault? n).map (Fault.shift k) := by
  cases f <;> rfl

theorem Run.fault?_add (n k : Nat) (fs : List Filler) :
    Run.fault? (n + k) fs = (Run.fault? n fs).map (Fault.shift k) := by
  induction fs generalizing n with
  | nil => rfl
  | cons f fs ih =>
    rw [Run.fault?_cons, Run.fault?_cons, Filler.fault?_add,
      Nat.add_right_comm, ih]
    cases f.fault? n <;> rfl

theorem Segment.fault?_add (n k : Nat) (g : Segment) :
    g.fault? (n + k) = (g.fault? n).map (Fault.shift k) := by
  cases g with
  | run fs => exact Run.fault?_add n k fs
  | literal d body => rfl
  | openLiteral d body => rfl
  | single b => rfl

theorem Segments.fault?_add (n k : Nat) (ss : List Segment) :
    Segments.fault? (n + k) ss =
      (Segments.fault? n ss).map (Fault.shift k) := by
  induction ss generalizing n with
  | nil => rfl
  | cons g ss ih =>
    rw [fault?_cons, fault?_cons, Segment.fault?_add, Nat.add_right_comm, ih]
    cases g.fault? n <;> rfl

/-! ### The bundle -/

/-- The output of a bundle is the bundle of the outputs, without the line feed.
If the second source is rejected, so is the bundle, for the same fault, as far
on as the second source stands. -/
theorem minify_append_seam {o : Options} {a x : Bytes} (h : minify o a = .ok x)
    (b : Bytes) :
    minify o (a ++ lineFeed :: semicolon :: b) =
      match minify o b with
      | .ok y => .ok (x ++ semicolon :: y)
      | .error e => .error (e.shift (a.length + 2)) := by
  obtain ⟨hclose, rfl⟩ := (minify_eq_ok_iff o a x).mp h
  have hfirst := run_append_seam (isCut_segments o [] a) hclose 0 b
  have hcut := isCut_segments o [] b
  rw [← isCut_append_semicolon_iff o (Segments.written []
    (segments o [] a))] at hcut
  have hsecond := run_of_isCut hcut (0 + a.length + 2)
  rw [source_segments] at hfirst hsecond
  rw [Segments.written_append_semicolon, Nat.add_assoc,
    Segments.fault?_add] at hsecond
  rw [minify_of_isCutOf (isCutOf_segments o b), minify_eq, State.start,
    Reader.ofBytes]
  simp only [List.reverse_nil, List.nil_append, Nat.add_assoc] at hfirst hsecond
  rw [hfirst, hsecond]
  cases Segments.fault? 0 (segments o [] b) with
  | some e => rfl
  | none => simp [Except.map, State.output]

/-- A line comment without an end, and behind the seam a literal without an
end. -/
theorem minify_append_seam_open_string :
    minify {} (Bytes.ofAscii "a / b // c") = .ok (Bytes.ofAscii "a/b") ∧
      minify {} (Bytes.ofAscii " 'd") = .error (.openLiteral 1 singleQuote) ∧
      minify {} (Bytes.ofAscii "a / b // c\n; 'd") =
        .error (.openLiteral 13 singleQuote) := by
  have hsegments : segments {} [] (Bytes.ofAscii "a / b // c") =
      [.single 0x61, .run [.blank 0x20], .single slash, .run [.blank 0x20],
        .single 0x62,
        .run [.blank 0x20,
          .lineComment [0x20, 0x63] false]] := by decide +kernel
  have hfirst : minify {} (Bytes.ofAscii "a / b // c") =
      .ok (Bytes.ofAscii "a/b") := by
    rw [minify_eq_ok_iff, hsegments]
    decide
  have hopen : segments {} [] (Bytes.ofAscii " 'd") =
      [.run [.blank 0x20], .openLiteral singleQuote [0x64]] := by
    decide +kernel
  have hsecond : minify {} (Bytes.ofAscii " 'd") =
      .error (.openLiteral 1 singleQuote) := by
    rw [minify_eq_error_iff, hopen]
    decide
  refine ⟨hfirst, hsecond, ?_⟩
  have hbundle := minify_append_seam hfirst (Bytes.ofAscii " 'd")
  rw [hsecond] at hbundle
  exact hbundle

end Terse.Script
