import Terse.Proofs.Layout

/-!
# Where gaps stay

A gap is decided upon before the byte behind it is written: the machine asks
what was written last and what is read next, and the byte that is read next is
written by another step, as a copied byte or as the start of a literal. Here the
decision is read off the output. Every blank that is not in a literal has
neighbours in the output that need it (`Needed`), so an output neither starts
nor ends with a blank, and no blank stands beside another.

`needed_of_marked_eq` goes through the segments with the output before them,
since the left neighbour of a gap may have been written any number of segments
ago.
-/

namespace Terse.Script

/-- The blank `b` keeps its neighbours apart: a space two words, a line feed two
statements. -/
def Needed (b : UInt8) (left? right? : Option UInt8) : Prop :=
  ∃ p n, left? = some p ∧ right? = some n ∧
    ((b = space ∧ isWord p = true ∧ isWord n = true) ∨
      (b = lineFeed ∧ endsStatement p = true ∧ beginsStatement n = true))

variable {o : Options} {out : Bytes} {ss : List Segment} {b : UInt8}
  {left? right? : Option UInt8}

theorem Gap.kept_iff_needed (g : Gap) :
    g.kept left? right? = true ↔ Needed g.byte left? right? := by
  have hbytes : Script.space ≠ lineFeed := by decide
  constructor
  · intro hkept
    obtain ⟨p, n, hp, hn, hseparates⟩ := Gap.exists_of_kept hkept
    refine ⟨p, n, hp, hn, ?_⟩
    cases g with
    | space => exact .inl ⟨rfl, Bool.and_eq_true_iff.mp hseparates⟩
    | line => exact .inr ⟨rfl, Bool.and_eq_true_iff.mp hseparates⟩
  · rintro ⟨p, n, rfl, rfl, hneeded⟩
    rw [Gap.kept_some]
    cases g with
    | space =>
      have hwords := hneeded.resolve_right fun h => hbytes h.1
      exact Bool.and_eq_true_iff.mpr hwords.2
    | line =>
      have hstatements := hneeded.resolve_left fun h => hbytes h.1.symm
      exact Bool.and_eq_true_iff.mpr hstatements.2

namespace Needed

theorem eq_space_or (h : Needed b left? right?) : b = space ∨ b = lineFeed := by
  obtain ⟨p, n, hp, hn, hneeded⟩ := h
  exact Or.imp And.left And.left hneeded

theorem isBlank_neighbours (h : Needed b left? right?) :
    ∃ p n, left? = some p ∧ right? = some n ∧ isBlank p = false ∧
      isBlank n = false := by
  have hends : ∀ c : UInt8, endsStatement c = true → isBlank c = false :=
    forall_byte (by decide +kernel)
  have hbegins : ∀ c : UInt8, beginsStatement c = true → isBlank c = false :=
    forall_byte (by decide +kernel)
  obtain ⟨p, n, hp, hn, hneeded⟩ := h
  refine ⟨p, n, hp, hn, ?_⟩
  rcases hneeded with ⟨-, hwordp, hwordn⟩ | ⟨-, hp, hn⟩
  · refine ⟨hends p ?_, hbegins n ?_⟩
    · simp [endsStatement, hwordp]
    · simp [beginsStatement, hwordn]
  · exact ⟨hends p hp, hbegins n hn⟩

end Needed

/-! ### Every blank is needed -/

theorem append_eq_append_cons {α : Type} {s t u v : List α} {e : α}
    (h : s ++ t = u ++ e :: v) :
    (∃ u', u = s ++ u' ∧ t = u' ++ e :: v) ∨ ∃ v', s = u ++ e :: v' ∧
      v = v' ++ t := by
  rcases List.append_eq_append_iff.mp h with ⟨u', hu, ht⟩ | ⟨w, hs, hw⟩
  · exact .inl ⟨u', hu, ht⟩
  · cases w with
    | nil => exact .inl ⟨[], by simpa using hs.symm, hw.symm⟩
    | cons c w =>
      obtain ⟨rfl, hv⟩ := List.cons.inj hw
      exact .inr ⟨w, hs, hv⟩

theorem map_snd_map_mk (m : Origin) (s : Bytes) :
    (s.map (Prod.mk m)).map Prod.snd = s := by
  rw [List.map_map]
  exact List.map_id s

theorem Segment.origin_eq_literal {g : Segment} {rest : Bytes}
    (hg : g.Fits o out rest) (hrun : g.isRun = false) (hmem : b ∈ g.source)
    (hb : isBlank b = true) : g.origin = .literal := by
  cases g with
  | run fs => cases hrun
  | literal d body => rfl
  | openLiteral d body => rfl
  | single c =>
    have hblank : isBlank c = false := hg.1
    obtain rfl : b = c := by simpa [source] using hmem
    rw [hb] at hblank
    cases hblank

/-- A gap that is kept is needed: the byte that was asked for is the one written
next. -/
theorem needed_of_kept {fs : List Filler} (h : IsCut o out (.run fs :: ss))
    (hkept : (Run.gap fs).kept out.getLast? (Segments.source ss).head? = true) :
    Needed (Run.gap fs).byte out.getLast?
      (Segments.written (out ++ [(Run.gap fs).byte]) ss).head? := by
  obtain ⟨⟨-, -, hstop⟩, hss⟩ := h
  rw [Segment.written, if_pos hkept] at hss
  rw [Segments.head?_written_of_stops hss hstop]
  exact (Gap.kept_iff_needed _).mp hkept

/-- A blank that is not in a literal is needed between its neighbours. The left
one may be the last byte of the output before the segments. -/
theorem needed_of_marked_eq (h : IsCut o out ss) {e : Origin × UInt8}
    {u v : List (Origin × UInt8)}
    (hsplit : Segments.marked out ss = u ++ e :: v) (hm : e.1 ≠ .literal)
    (hb : isBlank e.2 = true) :
    Needed e.2 (out ++ u.map Prod.snd).getLast? (v.map Prod.snd).head? := by
  induction ss generalizing out u with
  | nil => simp [Segments.marked] at hsplit
  | cons g ss ih =>
    rw [Segments.marked_cons] at hsplit
    rcases append_eq_append_cons hsplit with
      ⟨u', rfl, hlater⟩ | ⟨v', hhere, rfl⟩
    · have hneeded := ih h.2 hlater
      rwa [List.append_assoc,
        ← map_snd_map_mk g.origin (g.written out (Segments.source ss)),
        ← List.map_append]
        at hneeded
    · have hmem :
          e ∈ (g.written out (Segments.source ss)).map (Prod.mk g.origin) := by
        rw [hhere]
        exact List.mem_append_right u List.mem_cons_self
      obtain ⟨c, hc, rfl⟩ := List.mem_map.mp hmem
      cases hrun : g.isRun with
      | false =>
        rw [Segment.written_eq_source hrun] at hc
        exact absurd (Segment.origin_eq_literal h.1 hrun hc hb) hm
      | true =>
        obtain ⟨fs, rfl⟩ := Segment.exists_eq_run hrun
        by_cases hkept :
          (Run.gap fs).kept out.getLast? (Segments.source ss).head? = true
        · have hwritten : (Segment.run fs).written out (Segments.source ss) =
              [(Run.gap fs).byte] := by
            rw [Segment.written, if_pos hkept]
          -- the gap is all that the run writes
          rw [hwritten] at hhere ⊢
          cases u with
          | cons e' u => simp at hhere
          | nil =>
            obtain ⟨hgap, rfl⟩ := List.cons.inj hhere
            obtain rfl : (Run.gap fs).byte = c := (Prod.mk.inj hgap).2
            rw [List.map_nil, List.map_nil, List.append_nil, List.nil_append,
              Segments.map_snd_marked]
            exact needed_of_kept h hkept
        · rw [Segment.written, if_neg hkept] at hc
          cases hc

/-! ### Both ends -/

/-- At the start nothing is kept, so what is written first is the first byte
that is no part of a run. -/
theorem isBlank_head?_written (h : IsCut o [] ss)
    (hb : (Segments.written [] ss).head? = some b) :
    isBlank b = false := by
  cases ss with
  | nil => cases hb
  | cons g ss =>
    cases hrun : g.isRun with
    | false =>
      have hstop := h.1.stops hrun
      rw [Segments.head?_written_of_stops h hstop] at hb
      exact hstop.1 b hb
    | true =>
      obtain ⟨fs, rfl⟩ := Segment.exists_eq_run hrun
      obtain ⟨⟨-, -, hstop⟩, hss⟩ := h
      replace hss : IsCut o [] ss := hss
      replace hb : (Segments.written [] ss).head? = some b := hb
      rw [Segments.head?_written_of_stops hss hstop] at hb
      exact hstop.1 b hb

theorem Segment.isBlank_getLast?_source {g : Segment} {rest : Bytes}
    (hg : g.Fits o out rest) (hrun : g.isRun = false) (hclose : g.closes = true)
    (hb : g.source.getLast? = some b) : isBlank b = false := by
  cases g with
  | run fs => cases hrun
  | literal d body =>
    rw [source, List.getLast?_concat] at hb
    obtain rfl := Option.some.inj hb
    exact hg.1.not_blank.1
  | openLiteral d body => cases hclose
  | single c =>
    obtain rfl : c = b := Option.some.inj hb
    exact hg.1

/-- If what was written last is a blank, it is a gap, and more is to be written.
That holds again behind every segment, so in the end no blank was written
last. -/
theorem isBlank_getLast?_written (h : IsCut o out ss)
    (hclose : ∀ g ∈ ss, g.closes = true)
    (hout : ∀ b, out.getLast? = some b → isBlank b = true → ss ≠ [] ∧
      Stops (Segments.source ss))
    (hb : (out ++ Segments.written out ss).getLast? = some b) :
    isBlank b = false := by
  induction ss generalizing out with
  | nil =>
    rw [Segments.written_nil, List.append_nil] at hb
    rw [Bool.eq_false_iff]
    intro hblank
    exact (hout b hb hblank).1 rfl
  | cons g ss ih =>
    obtain ⟨hg, hss⟩ := h
    obtain ⟨hcloses, hclose⟩ := List.forall_mem_cons.mp hclose
    rw [Segments.written_cons, ← List.append_assoc] at hb
    refine ih hss hclose ?_ hb
    intro c hc hblank
    cases hrun : g.isRun with
    | false =>
      rw [Segment.written_eq_source hrun,
        List.getLast?_append_of_ne_nil _ (Segment.source_ne_nil hg)] at hc
      rw [Segment.isBlank_getLast?_source hg hrun hcloses hc] at hblank
      cases hblank
    | true =>
      obtain ⟨fs, rfl⟩ := Segment.exists_eq_run hrun
      by_cases hkept :
        (Run.gap fs).kept out.getLast? (Segments.source ss).head? = true
      · obtain ⟨-, n, -, hn, -⟩ := Gap.exists_of_kept hkept
        refine ⟨?_, hg.2.2⟩
        rintro rfl
        cases hn
      · -- nothing is written for the run, and it does not stand behind a gap
        rw [Segment.written, if_neg hkept, List.append_nil] at hc
        exact absurd hg (not_fits_run_of_stops (hout c hc hblank).2)

/-! ### Outputs -/

/-- Marked bytes without a blank that could be left out. -/
structure Tidy (es : List (Origin × UInt8)) : Prop where
  isBlank_head : ∀ b, (es.map Prod.snd).head? = some b → isBlank b = false
  isBlank_last : ∀ b, (es.map Prod.snd).getLast? = some b → isBlank b = false
  needed : ∀ u e v, es = u ++ e :: v → e.1 ≠ .literal → isBlank e.2 = true →
    Needed e.2 (u.map Prod.snd).getLast? (v.map Prod.snd).head?

namespace Tidy

variable {es : List (Origin × UInt8)}

theorem eq_lineFeed (h : Tidy es) {e : Origin × UInt8} (he : e ∈ es)
    (hm : e.1 ≠ .literal) (hcontrol : e.2 < space ∨ e.2 = 0x7f) :
    e.2 = lineFeed := by
  have hblank : isBlank e.2 = true :=
    (isBlank_iff e.2).mpr (hcontrol.imp_left UInt8.le_of_lt)
  obtain ⟨u, v, hsplit⟩ := List.append_of_mem he
  rcases (h.needed u e v hsplit hm hblank).eq_space_or with hspace | hline
  · rw [hspace] at hcontrol
    exact absurd hcontrol (by decide)
  · exact hline

theorem eq_literal_of_infix (h : Tidy es) {e e' : Origin × UInt8}
    (hi : [e, e'] <:+: es) (hb : isBlank e.2 = true)
    (hb' : isBlank e'.2 = true) : e.1 = .literal ∧ e'.1 = .literal := by
  obtain ⟨u, v, rfl⟩ := hi
  constructor
  · by_contra hm
    have hneeded := h.needed u e (e' :: v) (by simp) hm hb
    obtain ⟨p, n, -, hn, -, hblank⟩ := hneeded.isBlank_neighbours
    obtain rfl : e'.2 = n := Option.some.inj hn
    rw [hb'] at hblank
    cases hblank
  · by_contra hm
    have hneeded := h.needed (u ++ [e]) e' v (by simp) hm hb'
    obtain ⟨p, n, hp, -, hblank, -⟩ := hneeded.isBlank_neighbours
    rw [List.map_append, List.map_singleton, List.getLast?_concat] at hp
    obtain rfl : e.2 = p := Option.some.inj hp
    rw [hb] at hblank
    cases hblank

end Tidy

theorem tidy_marked (h : IsCut o [] ss) (hclose : ∀ g ∈ ss, g.closes = true) :
    Tidy (Segments.marked [] ss) where
  isBlank_head b hb := by
    rw [Segments.map_snd_marked] at hb
    exact isBlank_head?_written h hb
  isBlank_last b hb := by
    rw [Segments.map_snd_marked] at hb
    exact isBlank_getLast?_written h hclose (by simp) hb
  needed u e v hsplit hm hb := needed_of_marked_eq h hsplit hm hb

/-- An output neither begins nor ends with a blank, and outside its literals
every blank is a space between two words or a line feed between two statements.
So there it has no other control byte, and no blank beside another. -/
theorem tidy_of_minify_eq_ok {x y : Bytes} (h : minify o x = .ok y) :
    (marked o x).map Prod.snd = y ∧ Tidy (marked o x) ∧
      (∀ e ∈ marked o x, e.1 ≠ .literal → e.2 < space ∨ e.2 = 0x7f →
        e.2 = lineFeed) ∧
      ∀ e e', [e, e'] <:+: marked o x →
        isBlank e.2 = true → isBlank e'.2 = true →
          e.1 = .literal ∧ e'.1 = .literal := by
  have htidy := tidy_marked (isCut_segments o [] x)
    ((minify_eq_ok_iff o x y).mp h).1
  refine ⟨map_snd_marked_of_minify_eq_ok h, htidy, ?_, ?_⟩
  · intro e he hm hcontrol
    exact htidy.eq_lineFeed he hm hcontrol
  · intro e e' hi hb hb'
    exact htidy.eq_literal_of_infix hi hb hb'

/-- Tabs stay in a string, and outside it one space and two line feeds stay. -/
theorem tidy_of_minify_call :
    minify {} (Bytes.ofAscii "\tin \t x='a\t\t' \r// b\n(c)\r+\x0bd ") =
      .ok (Bytes.ofAscii "in x='a\t\t'\n(c)\n+d") ∧
      Tidy (marked {}
        (Bytes.ofAscii "\tin \t x='a\t\t' \r// b\n(c)\r+\x0bd ")) := by
  have hcut : segments {} []
    (Bytes.ofAscii "\tin \t x='a\t\t' \r// b\n(c)\r+\x0bd ") =
      [.run [.blank 0x09], .single 0x69, .single 0x6e,
        .run [.blank 0x20, .blank 0x09, .blank 0x20], .single 0x78,
        .single 0x3d, .literal singleQuote [0x61, 0x09, 0x09],
        .run [.blank 0x20, .blank 0x0d, .lineComment [0x20, 0x62] true],
          .single 0x28, .single 0x63, .single 0x29,
        .run [.blank 0x0d], .single 0x2b, .run [.blank 0x0b], .single 0x64,
          .run [.blank 0x20]] := by
    decide +kernel
  have hminify : minify {}
    (Bytes.ofAscii "\tin \t x='a\t\t' \r// b\n(c)\r+\x0bd ") =
      .ok (Bytes.ofAscii "in x='a\t\t'\n(c)\n+d") := by
    rw [minify_eq_ok_iff, hcut]
    decide
  exact ⟨hminify, (tidy_of_minify_eq_ok hminify).2.1⟩

end Terse.Script
