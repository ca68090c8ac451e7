import Terse.Proofs.Cut

/-!
# The machine follows the cut

The machine knows nothing of segments: it meets comments both between and within
runs, replaces each by a byte that it puts back, and decides about every slash
by the output it holds newest byte first. This file follows it through one
segment at a time. Between two segments nothing is put back, so the states to
compare are those of the form `⟨⟨n, none, x⟩, out.reverse⟩`; `run_of_fits` says
what the machine makes of the segment in front of such a state, and
`run_of_isCut` goes through a whole cut.

The main statement is `minify_iff_of_unique_cut`: a source has exactly one cut,
it is accepted exactly if all segments of the cut close, and the output is what
the segments write.
-/

namespace Terse.Script

open Reader

/-! ### Blanks -/

theorem normalize_beq_lineFeed (b : UInt8) :
    (normalize b == lineFeed) = (b == lineFeed || b == carriageReturn) := by
  by_cases hf : b = lineFeed
  · rw [hf]
    rfl
  · by_cases hr : b = carriageReturn
    · rw [hr]
      rfl
    · have hf' : (b == lineFeed) = false := beq_eq_false_iff_ne.mpr hf
      have hr' : (b == carriageReturn) = false := beq_eq_false_iff_ne.mpr hr
      rw [normalize, hf', hr', if_neg (by decide)]
      split
      · rfl
      · exact hf'

theorem Gap.widen_eq (g : Gap) (b : UInt8) :
    g.widen b = if (Filler.blank b).breaksLine then .line else g := by
  rw [Gap.widen, normalize_beq_lineFeed]
  rfl

theorem Gap.kept_eq_false {b : UInt8} (hb : beginsStatement b = false) (g : Gap)
    (p : Option UInt8) :
    g.kept p (some b) = false := by
  have hword : isWord b = false :=
    (Bool.or_eq_false_iff.mp (Bool.or_eq_false_iff.mp hb).1).1
  cases p with
  | none => rfl
  | some a =>
    cases g with
    | space => simp [Gap.separates, hword]
    | line => simp [Gap.separates, hb]

/-! ### Comments -/

theorem skip_append (n : Nat) (slot : Option UInt8) (x rest : Bytes) :
    skip ⟨n, slot, x ++ rest⟩ x.length = ⟨n + x.length, slot, rest⟩ := by
  simp [skip]

theorem skipComment?_eq_none {n : Nat} {x : Bytes}
    (h : startsComment x = false) :
    skipComment? ⟨n, none, x⟩ = .ok none := by
  rcases x with _ | ⟨a, _ | ⟨b, s⟩⟩
  · rfl
  · simp [skipComment?, second]
  · have hpeek : peek ⟨n, none, a :: b :: s⟩ = some a := rfl
    have hsecond : second ⟨n, none, a :: b :: s⟩ = some b := rfl
    rw [skipComment?, hpeek, hsecond]
    by_cases ha : a = slash
    · simp_all [startsComment]
    · simp [ha]

/-- A comment is left out and the gap it stands for put back, or the comment is
never closed. -/
theorem skipComment?_of_fits {f : Filler} {rest : Bytes}
    (hc : f.isComment = true) (h : f.Fits rest) (n : Nat) :
    skipComment? ⟨n, none, f.source ++ rest⟩ =
      match f.fault? n with
      | some e => .error e
      | none =>
        .ok (some ⟨n + f.source.length, some (Run.gap [f]).byte, rest⟩) := by
  cases f with
  | blank b => simp [Filler.isComment] at hc
  | lineComment body ended =>
    obtain ⟨hbody, hended⟩ := h
    have hspan :
      lineSpan (body ++ ((if ended then [lineFeed] else []) ++ rest)) =
        (body ++ (if ended then [lineFeed] else [])).length := by
      cases ended with
      | false =>
        obtain rfl : rest = [] := hended rfl
        simpa using lineSpan_eq_length hbody
      | true => simpa using lineSpan_append hbody rest
    have hlength :
      2 + lineSpan (((Filler.lineComment body ended).source ++ rest).drop 2) =
        (Filler.lineComment body ended).source.length := by
      simp only [Filler.source, List.cons_append, List.append_assoc,
        List.drop_succ_cons, List.drop_zero,
        hspan, List.length_cons]
      omega
    rw [skipComment?, if_pos ⟨rfl, rfl⟩, skipLineComment, hlength, skip_append]
    rfl
  | blockComment body =>
    have hbody : ¬ [star, slash] <:+: body := h
    have hspan :
        blockSpan? (((Filler.blockComment body).source ++ rest).drop 2) =
          some (body.length + 2) := by
      simpa [Filler.source] using blockSpan?_append hbody rest
    have hlength : 2 + (body.length + 2) =
        (Filler.blockComment body).source.length := by
      simp [Filler.source]
      omega
    rw [skipComment?, if_neg, if_pos ⟨rfl, rfl⟩, skipBlockComment, hspan]
    · dsimp only
      rw [hlength, skip_append]
      rfl
    · rintro ⟨-, h⟩
      exact absurd h (by simp [second, Filler.source]; decide)
  | openComment body =>
    obtain ⟨hbody, rfl⟩ := h
    have hspan : blockSpan? (((Filler.openComment body).source ++ []).drop 2) =
        none := by
      simpa [Filler.source] using blockSpan?_eq_none hbody
    rw [skipComment?, if_neg, if_pos ⟨rfl, rfl⟩, skipBlockComment, hspan]
    · rfl
    · rintro ⟨-, h⟩
      exact absurd h (by simp [second, Filler.source]; decide)

/-! ### Runs -/

/-- What a run does at a byte, as an equation without the proofs that make it
end. -/
theorem collapse_eq {r r' : Reader} {b : UInt8} (h : r.next? = some (b, r'))
    (g : Gap) :
    r.collapse g =
      if isBlank b then r'.collapse (g.widen b)
      else match r.skipComment? with
        | .error e => (.error e, r)
        | .ok none => (.ok g, r)
        | .ok (some r'') => r''.collapse g := by
  rw [collapse]
  split
  · next hn => simp [h] at hn
  · next hn =>
    obtain ⟨rfl, rfl⟩ : b = _ ∧ r' = _ := by simpa [h] using hn
    split
    · rfl
    · split <;> simp_all

theorem collapse_of_stops {n : Nat} {x : Bytes} (h : Stops x) (g : Gap) :
    collapse ⟨n, none, x⟩ g = (.ok g, ⟨n, none, x⟩) := by
  obtain ⟨hblank, hcomment⟩ := h
  cases x with
  | nil =>
    rw [collapse]
    split
    · rfl
    · next hn => simp [next?] at hn
  | cons b s =>
    have hb : isBlank b = false := hblank b rfl
    rw [collapse_eq rfl, hb, skipComment?_eq_none hcomment]
    rfl

theorem Filler.exists_source_eq_slash_cons {f : Filler}
    (h : f.isComment = true) :
    ∃ t, f.source = slash :: t := by
  cases f with
  | blank b => simp [Filler.isComment] at h
  | lineComment body ended => exact ⟨_, rfl⟩
  | blockComment body => exact ⟨_, rfl⟩
  | openComment body => exact ⟨_, rfl⟩

theorem collapse_putBack (n : Nat) (x : Bytes) (f : Filler) (g : Gap) :
    collapse ⟨n, some (Run.gap [f]).byte, x⟩ g =
      collapse ⟨n, none, x⟩ (if f.breaksLine then .line else g) := by
  rw [collapse_eq rfl]
  cases hf : f.breaksLine <;> simp [Run.gap, hf, Gap.byte, Gap.widen_eq] <;> rfl

theorem collapse_of_filler_fits {f : Filler} {rest : Bytes} (h : f.Fits rest)
    (n : Nat) (g : Gap) :
    collapse ⟨n, none, f.source ++ rest⟩ g =
      match f.fault? n with
      | some e => (.error e, ⟨n, none, f.source ++ rest⟩)
      | none =>
        collapse ⟨n + f.source.length, none, rest⟩ (if f.breaksLine then
          .line else g) := by
  by_cases hc : f.isComment = true
  · obtain ⟨t, ht⟩ := Filler.exists_source_eq_slash_cons hc
    have hnext : next? ⟨n, none, f.source ++ rest⟩ =
        some (slash, ⟨n + 1, none, t ++ rest⟩) := by
      rw [ht]
      rfl
    have hslash : isBlank slash = false := by decide
    rw [collapse_eq hnext, hslash, skipComment?_of_fits hc h]
    cases f.fault? n with
    | some e => rfl
    | none => exact collapse_putBack _ rest f g
  · cases f with
    | blank b =>
      have hb : isBlank b = true := h
      rw [Filler.source, List.singleton_append, collapse_eq rfl, if_pos hb,
        Gap.widen_eq]
      rfl
    | lineComment body ended => exact absurd rfl hc
    | blockComment body => exact absurd rfl hc
    | openComment body => exact absurd rfl hc

theorem collapse_of_fits {fs : List Filler} {rest : Bytes}
    (h : Run.Fits fs rest) (hs : Stops rest) (n : Nat) (g : Gap) :
    match Run.fault? n fs with
    | some e => (collapse ⟨n, none, Run.source fs ++ rest⟩ g).1 = .error e
    | none => collapse ⟨n, none, Run.source fs ++ rest⟩ g =
        (.ok (if fs.any Filler.breaksLine then .line else g),
          ⟨n + (Run.source fs).length, none, rest⟩) := by
  induction fs generalizing n g with
  | nil => exact collapse_of_stops hs g
  | cons f fs ih =>
    obtain ⟨hf, hfs⟩ := h
    have hhead := collapse_of_filler_fits hf n g
    have htail := ih hfs (n + f.source.length)
      (if f.breaksLine then .line else g)
    rw [← List.append_assoc, ← Run.source_cons] at hhead
    rw [Run.fault?_cons, hhead]
    cases f.fault? n with
    | some e => rfl
    | none =>
      cases he : Run.fault? (n + f.source.length) fs with
      | some e =>
        rw [he] at htail
        exact htail
      | none =>
        rw [he] at htail
        have hgap :
          (if fs.any Filler.breaksLine then Gap.line else if f.breaksLine then
            .line else g) =
            if (f :: fs).any Filler.breaksLine then .line else g := by
          rw [List.any_cons]
          cases f.breaksLine <;> cases fs.any Filler.breaksLine <;> rfl
        simp only [htail, hgap]
        simp [Nat.add_assoc]

/-! ### Steps of the machine -/

theorem run_eq (o : Options) (s : State) :
    run o s =
      match step o s with
      | none => .ok s
      | some (.error e) => .error e
      | some (.ok s') => run o s' :=
  runBy_eq _ s

theorem step_of_blank (o : Options) {s : State} {b : UInt8} {r' : Reader}
    (h : s.reader.next? = some (b, r')) (hb : isBlank b = true) :
    step o s = some (State.settle s.writeGap) := by
  have hslash : (b == slash) = false := by
    rw [beq_eq_false_iff_ne]
    rintro rfl
    exact absurd hb (by decide)
  have hquote : isQuote b = false := by
    rw [Bool.eq_false_iff]
    intro hq
    simp only [isQuote, Bool.or_eq_true, beq_iff_eq] at hq
    rcases hq with (rfl | rfl) | rfl <;> exact absurd hb (by decide)
  simp [step, stepBy, h, hslash, hquote, hb]

theorem run_of_blank (o : Options) {s : State} {b : UInt8} {r' : Reader}
    (h : s.reader.next? = some (b, r')) (hb : isBlank b = true) :
    run o s =
      match s.reader.collapse .space with
      | (.error e, _) => .error e
      | (.ok g, r) =>
        run o ⟨r, if g.kept s.trail.head? r.peek then g.byte :: s.trail
          else s.trail⟩ := by
  rw [run_eq, step_of_blank o h hb, State.writeGap]
  rcases s.reader.collapse .space with ⟨_ | g, r⟩
  · rfl
  · rfl

/-- In front of a comment the machine leaves it out, and the gap it stands for
is put back. -/
theorem step_of_comment_fits (o : Options) {f : Filler} {rest : Bytes}
    (hc : f.isComment = true) (h : f.Fits rest) (n : Nat) (trail : Bytes) :
    step o ⟨⟨n, none, f.source ++ rest⟩, trail⟩ = some
      (match f.fault? n with
      | some e => .error e
      | none =>
        .ok ⟨⟨n + f.source.length, some (Run.gap [f]).byte, rest⟩, trail⟩) := by
  obtain ⟨t, ht⟩ := Filler.exists_source_eq_slash_cons hc
  have hnext : next? ⟨n, none, f.source ++ rest⟩ =
      some (slash, ⟨n + 1, none, t ++ rest⟩) := by
    rw [ht]
    rfl
  rw [step, stepBy, hnext]
  dsimp only
  rw [if_pos (by rfl), skipComment?_of_fits hc h]
  cases f.fault? n with
  | some e => rfl
  | none => rfl

/-- In front of a run, be it a blank or a comment that comes first, the machine
reads the whole run. -/
theorem run_of_run_fits (o : Options) {fs : List Filler} {rest : Bytes}
    (hne : fs ≠ []) (h : Run.Fits fs rest) (n : Nat) (trail : Bytes) :
    run o ⟨⟨n, none, Run.source fs ++ rest⟩, trail⟩ =
      match collapse ⟨n, none, Run.source fs ++ rest⟩ .space with
      | (.error e, _) => .error e
      | (.ok g, r) =>
        run o ⟨r, if g.kept trail.head? r.peek then g.byte :: trail
          else trail⟩ := by
  obtain ⟨f, fs, rfl⟩ := List.exists_cons_of_ne_nil hne
  have hf := h.1
  rw [Run.source_cons, List.append_assoc]
  by_cases hc : f.isComment = true
  · rw [run_eq, step_of_comment_fits o hc hf, collapse_of_filler_fits hf]
    cases f.fault? n with
    | some e => rfl
    | none =>
      -- the byte put back is a blank, so the next step reads the run
      dsimp only
      rw [← collapse_putBack]
      exact run_of_blank o rfl (by cases hg : Run.gap [f] <;> decide)
  · cases f with
    | blank b => exact run_of_blank o rfl hf
    | lineComment body ended => exact absurd rfl hc
    | blockComment body => exact absurd rfl hc
    | openComment body => exact absurd rfl hc

/-- In front of a byte that opens a literal the machine copies the literal. -/
theorem step_of_opensLiteral {o : Options} {out rest : Bytes} {d : UInt8}
    (h : OpensLiteral o out d rest) (n : Nat) :
    step o ⟨⟨n, none, d :: rest⟩, out.reverse⟩ = some
      (match literalSpan? d rest with
      | some k => .ok ⟨⟨n + 1 + (rest.take k).length, none, rest.drop k⟩,
          (d :: rest.take k).reverse ++ out.reverse⟩
      | none => .error (.openLiteral n d)) := by
  have ⟨hblank, hcomment⟩ := h.not_blank
  have hstep : step o ⟨⟨n, none, d :: rest⟩, out.reverse⟩ =
      some (State.settle
        (State.copyLiteral ⟨⟨n, none, d :: rest⟩, out.reverse⟩)) := by
    have hskip : skipComment? ⟨n, none, d :: rest⟩ = .ok none :=
      skipComment?_eq_none hcomment
    rcases h with hq | ⟨rfl, -, hp⟩
    · have hslash : (d == slash) = false := by
        rw [beq_eq_false_iff_ne]
        rintro rfl
        exact absurd hq (by decide)
      simp [step, stepBy, next?, hslash, hq]
    · simp [step, stepBy, next?, hskip, (opensRegex_reverse_iff o out).mpr hp]
  rw [hstep]
  simp only [State.copyLiteral, literal, next?]
  cases literalSpan? d rest with
  | some k => rfl
  | none => rfl

theorem step_of_literal_fits {o : Options} {out rest : Bytes} {d : UInt8}
    {body : Bytes} (h : (Segment.literal d body).Fits o out rest) (n : Nat) :
    step o ⟨⟨n, none, d :: (body ++ d :: rest)⟩, out.reverse⟩ =
      some (.ok ⟨⟨n + (Segment.literal d body).source.length, none, rest⟩,
        (out ++ (Segment.literal d body).source).reverse⟩) := by
  obtain ⟨hd, hbody⟩ := h
  rw [step_of_opensLiteral hd, literalSpan?_append hd.ne_backslash hbody]
  simp only [List.take_length_add_append, List.drop_length_add_append,
    Segment.source]
  simp [Nat.add_assoc, Nat.add_comm 1]

theorem step_of_openBody {o : Options} {out rest : Bytes} {d : UInt8}
    (h : OpensLiteral o out d rest) (hbody : OpenBody d rest) (n : Nat) :
    step o ⟨⟨n, none, d :: rest⟩, out.reverse⟩ =
      some (.error (.openLiteral n d)) := by
  rw [step_of_opensLiteral h, literalSpan?_eq_none hbody]

theorem step_of_single_fits {o : Options} {out rest : Bytes} {b : UInt8}
    (h : (Segment.single b).Fits o out rest) (n : Nat) :
    step o ⟨⟨n, none, b :: rest⟩, out.reverse⟩ =
      some (.ok ⟨⟨n + 1, none, rest⟩, b :: out.reverse⟩) := by
  obtain ⟨hblank, hcomment, hnot⟩ := h
  have hquote : isQuote b = false :=
    Bool.eq_false_iff.mpr fun hq => hnot (.inl hq)
  by_cases hslash : b = slash
  · subst hslash
    have hskip : skipComment? ⟨n, none, slash :: rest⟩ = .ok none :=
      skipComment?_eq_none hcomment
    have hregex : opensRegex o.regexAfterKeywords out.reverse = false := by
      rw [Bool.eq_false_iff]
      intro hp
      exact hnot (.inr ⟨rfl, hcomment, (opensRegex_reverse_iff o out).mp hp⟩)
    simp [step, stepBy, next?, hskip, hregex]
  · simp [step, stepBy, next?, hslash, hquote, hblank]

/-- The trail after a run, newest byte first, is the output with what the run
adds. -/
theorem reverse_append_written_run (fs : List Filler) (out rest : Bytes) :
    (out ++ (Segment.run fs).written out rest).reverse =
      if (Run.gap fs).kept out.reverse.head? rest.head? then
        (Run.gap fs).byte :: out.reverse
      else out.reverse := by
  rw [List.head?_reverse, Segment.written]
  split
  · rw [List.reverse_append]
    rfl
  · rw [List.append_nil]

theorem run_of_fits {o : Options} {out rest : Bytes} {g : Segment}
    (h : g.Fits o out rest) (n : Nat) :
    run o ⟨⟨n, none, g.source ++ rest⟩, out.reverse⟩ =
      match g.fault? n with
      | some e => .error e
      | none =>
        run o ⟨⟨n + g.source.length, none, rest⟩,
          (out ++ g.written out rest).reverse⟩ := by
  cases g with
  | run fs =>
    obtain ⟨hne, hfs, hstop⟩ := h
    have hread := collapse_of_fits hfs hstop n .space
    rw [Segment.source, run_of_run_fits o hne hfs, reverse_append_written_run,
      Segment.fault?]
    cases he : Run.fault? n fs with
    | some e =>
      rw [he] at hread
      rcases hr : collapse ⟨n, none, Run.source fs ++ rest⟩ .space with
        ⟨_ | _, _⟩
      · rw [hr] at hread
        cases hread
        rfl
      · rw [hr] at hread
        cases hread
    | none =>
      rw [he] at hread
      rw [hread]
      rfl
  | literal d body =>
    have hsource : (Segment.literal d body).source ++ rest = d ::
        (body ++ d :: rest) := by
      simp [Segment.source]
    rw [hsource, run_eq, step_of_literal_fits h]
    rfl
  | openLiteral d body =>
    obtain ⟨hd, hbody, rfl⟩ := h
    rw [Segment.source, List.append_nil, run_eq, step_of_openBody hd hbody]
    rfl
  | single b =>
    rw [Segment.source, List.singleton_append, run_eq, step_of_single_fits h]
    simp [Segment.fault?, Segment.written]

/-! ### The whole source -/

theorem run_of_isCut {o : Options} {out : Bytes} {ss : List Segment}
    (h : IsCut o out ss) (n : Nat) :
    run o ⟨⟨n, none, Segments.source ss⟩, out.reverse⟩ =
      match Segments.fault? n ss with
      | some e => .error e
      | none => .ok ⟨⟨n + (Segments.source ss).length, none, []⟩,
          (out ++ Segments.written out ss).reverse⟩ := by
  induction ss generalizing out n with
  | nil =>
    rw [run_eq]
    simp [step, stepBy, next?]
  | cons g ss ih =>
    obtain ⟨hg, hss⟩ := h
    rw [Segments.source_cons, run_of_fits hg, Segments.fault?_cons]
    cases g.fault? n with
    | some e => rfl
    | none =>
      dsimp only
      rw [ih hss]
      simp [Segments.written_cons, Nat.add_assoc]

theorem minify_of_isCutOf {o : Options} {x : Bytes} {ss : List Segment}
    (h : IsCutOf o x ss) :
    minify o x =
      match Segments.fault? 0 ss with
      | some e => .error e
      | none => .ok (Segments.written [] ss) := by
  obtain ⟨rfl, hss⟩ := h
  have hrun := run_of_isCut hss 0
  rw [minify_eq, State.start, Reader.ofBytes]
  simp only [List.reverse_nil] at hrun
  rw [hrun]
  cases Segments.fault? 0 ss with
  | some e => rfl
  | none => simp [Except.map, State.output]

/-! ### Which sources are accepted -/

theorem Filler.fault?_eq_none_iff (n : Nat) (f : Filler) :
    f.fault? n = none ↔ f.closes = true := by
  cases f <;> simp [Filler.fault?, Filler.closes]

theorem Run.fault?_eq_none_iff (n : Nat) (fs : List Filler) :
    Run.fault? n fs = none ↔ fs.all Filler.closes = true := by
  induction fs generalizing n with
  | nil => simp
  | cons f fs ih =>
    rw [Run.fault?_cons, List.all_cons, Bool.and_eq_true,
      ← Filler.fault?_eq_none_iff n, ← ih (n + f.source.length)]
    cases f.fault? n <;> simp

theorem Segment.fault?_eq_none_iff (n : Nat) (g : Segment) :
    g.fault? n = none ↔ g.closes = true := by
  cases g with
  | run fs => exact Run.fault?_eq_none_iff n fs
  | literal d body => simp [Segment.fault?, Segment.closes]
  | openLiteral d body => simp [Segment.fault?, Segment.closes]
  | single b => simp [Segment.fault?, Segment.closes]

theorem Segments.fault?_eq_none_iff (n : Nat) (ss : List Segment) :
    Segments.fault? n ss = none ↔ ∀ g ∈ ss, g.closes = true := by
  induction ss generalizing n with
  | nil => simp
  | cons g ss ih =>
    rw [Segments.fault?_cons, List.forall_mem_cons,
      ← Segment.fault?_eq_none_iff n g,
      ← ih (n + g.source.length)]
    cases g.fault? n <;> simp

theorem minify_eq_ok_of_isCut {o : Options} {ss : List Segment}
    (h : IsCut o [] ss) (hclose : ∀ g ∈ ss, g.closes = true) :
    minify o (Segments.source ss) = .ok (Segments.written [] ss) := by
  rw [minify_of_isCutOf ⟨rfl, h⟩, (Segments.fault?_eq_none_iff 0 ss).mpr hclose]

theorem isCutOf_segments (o : Options) (x : Bytes) :
    IsCutOf o x (segments o [] x) :=
  ⟨source_segments o [] x, isCut_segments o [] x⟩

theorem minify_eq_ok_iff (o : Options) (x y : Bytes) :
    minify o x = .ok y ↔
      (∀ g ∈ segments o [] x, g.closes = true) ∧ y = Segments.written []
        (segments o [] x) := by
  rw [minify_of_isCutOf (isCutOf_segments o x), ← Segments.fault?_eq_none_iff 0]
  cases Segments.fault? 0 (segments o [] x) with
  | some e => simp
  | none => simp [eq_comm]

theorem minify_eq_error_iff (o : Options) (x : Bytes) (e : Fault) :
    minify o x = .error e ↔ Segments.fault? 0 (segments o [] x) = some e := by
  rw [minify_of_isCutOf (isCutOf_segments o x)]
  cases Segments.fault? 0 (segments o [] x) with
  | some e' => simp
  | none => simp

/-- A source has exactly one cut into segments. It is accepted exactly if every
segment closes, and the output is then what the segments write, one after the
other; otherwise the fault is that of the segment that does not close. -/
theorem minify_iff_of_unique_cut (o : Options) (x : Bytes) :
    ∃ ss, (∀ ss', IsCutOf o x ss' ↔ ss' = ss) ∧
      (∀ y, minify o x = .ok y ↔ (∀ g ∈ ss, g.closes = true) ∧
        y = Segments.written [] ss) ∧
      ∀ e, minify o x = .error e ↔ Segments.fault? 0 ss = some e := by
  refine ⟨segments o [] x, ?_, ?_, ?_⟩
  · intro ss'
    exact isCut_iff_eq_segments o [] x ss'
  · exact minify_eq_ok_iff o x
  · exact minify_eq_error_iff o x

end Terse.Script
