import Terse.Proofs.Span

/-!
# Every source has exactly one cut

`segments o out x` cuts the source `x` after the output `out`. At each layer (a
piece of a run, a run, a segment, the whole source) there are two facts:
whatever fits in front of a text is what the function finds there, and something
always fits. The first gives uniqueness, the second existence, and together they
say that `segments o out x` is the cut (`isCut_iff_eq_segments`).
-/

namespace Terse.Script

open Reader

/-! ### Pieces of a run -/

namespace Filler

/-- The line comment whose text after the two slashes starts `s`. -/
def ofLine (s : Bytes) : Filler :=
  .lineComment (s.takeWhile (· != lineFeed)) (s.contains lineFeed)

/-- The block comment whose text after `/*` starts `s`. -/
def ofBlock (s : Bytes) : Filler :=
  match blockSpan? s with
  | some n => .blockComment (s.take (n - 2))
  | none => .openComment s

def first? : Bytes → Option Filler
  | [] => none
  | b :: s =>
    if isBlank b then some (.blank b)
    else if b == slash && s.head? == some slash then some (ofLine s.tail)
    else if b == slash && s.head? == some star then some (ofBlock s.tail)
    else none

theorem first?_source_append {f : Filler} {rest : Bytes} (h : f.Fits rest) :
    first? (f.source ++ rest) = some f := by
  cases f with
  | blank b =>
    have hb : isBlank b = true := h
    simp [source, first?, hb]
  | lineComment body ended =>
    obtain ⟨hbody, hended⟩ := h
    have hne : ∀ b ∈ body, (b != lineFeed) = true := by
      intro b hb
      exact bne_iff_ne.mpr fun e => hbody (e ▸ hb)
    have hslash : isBlank slash = false := by decide
    have htake : ∀ t, List.takeWhile (· != lineFeed) (body ++ t) = body ++
        t.takeWhile (· != lineFeed) :=
      fun t => List.takeWhile_append_of_pos hne
    have hline : ofLine (body ++ ((if ended then [lineFeed] else []) ++ rest)) =
        .lineComment body ended := by
      rw [ofLine, htake]
      cases ended with
      | false =>
        obtain rfl : rest = [] := hended rfl
        simp [hbody]
      | true => simp
    simpa [source, first?, hslash] using hline
  | blockComment body =>
    have hbody : ¬ [star, slash] <:+: body := h
    have hslash : isBlank slash = false := by decide
    have hstar : ¬ star = slash := by decide
    have hblock : ofBlock (body ++ star :: slash :: rest) =
        .blockComment body := by
      simp [ofBlock, blockSpan?_append hbody]
    simpa [source, first?, hslash, hstar] using hblock
  | openComment body =>
    obtain ⟨hbody, rfl⟩ := h
    have hslash : isBlank slash = false := by decide
    have hstar : ¬ star = slash := by decide
    have hblock : ofBlock body = .openComment body := by
      simp [ofBlock, blockSpan?_eq_none hbody]
    simpa [source, first?, hslash, hstar] using hblock

theorem first?_eq_none {x : Bytes} (h : Stops x) : first? x = none := by
  obtain ⟨hblank, hcomment⟩ := h
  cases x with
  | nil => rfl
  | cons b s =>
    have hb : isBlank b = false := hblank b rfl
    rcases s with _ | ⟨c, t⟩
    · simp [first?, hb]
    · by_cases hslash : b = slash
      · simp_all [startsComment, first?]
      · simp [first?, hb, hslash]

theorem stops_or_exists_fits (x : Bytes) :
    Stops x ∨ ∃ f rest, x = source f ++ rest ∧ Fits rest f := by
  rcases x with _ | ⟨b, s⟩
  · exact .inl ⟨by simp, rfl⟩
  · by_cases hb : isBlank b = true
    · exact .inr ⟨.blank b, s, rfl, hb⟩
    · by_cases hc : startsComment (b :: s) = true
      · rcases s with _ | ⟨c, t⟩
        · simp [startsComment] at hc
        · simp only [startsComment, Bool.and_eq_true, Bool.or_eq_true,
            beq_iff_eq] at hc
          obtain ⟨rfl, rfl | rfl⟩ := hc
          · right
            rcases exists_line t with ht | ⟨body, rest, rfl, hbody⟩
            · exact ⟨.lineComment t false, [], by simp [source],
                ht, fun _ => rfl⟩
            · exact ⟨.lineComment body true, rest, by simp [source],
                hbody, by simp⟩
          · right
            rcases exists_block t with ht | ⟨body, rest, rfl, hbody⟩
            · exact ⟨.openComment t, [], by simp [source], ht, rfl⟩
            · exact ⟨.blockComment body, rest, by simp [source], hbody⟩
      · left
        refine ⟨?_, Bool.eq_false_iff.mpr hc⟩
        intro b' hb'
        obtain rfl := Option.some.inj hb'
        exact Bool.eq_false_iff.mpr hb

theorem length_source_pos (f : Filler) : 0 < f.source.length :=
  List.length_pos_iff.mpr f.source_ne_nil

end Filler

theorem length_drop_lt {x : Bytes} {n : Nat} (hx : x ≠ []) (hn : 0 < n) :
    (x.drop n).length < x.length := by
  have := List.length_pos_iff.mpr hx
  rw [List.length_drop]
  omega

/-! ### Runs -/

namespace Run

theorem ne_nil_of_first? {x : Bytes} {f : Filler}
    (h : Filler.first? x = some f) : x ≠ [] := by
  rintro rfl
  simp [Filler.first?] at h

/-- The pieces of the run at the front, none if there is no run. -/
def pieces (x : Bytes) : List Filler :=
  match h : Filler.first? x with
  | none => []
  | some f =>
    have := length_drop_lt (ne_nil_of_first? h) f.length_source_pos
    f :: pieces (x.drop f.source.length)
termination_by x.length
decreasing_by exact this

theorem pieces_eq_nil {x : Bytes} (h : Filler.first? x = none) :
    pieces x = [] := by
  rw [pieces]
  split
  · rfl
  · next f hf => simp [h] at hf

theorem pieces_eq_cons {x : Bytes} {f : Filler} (h : Filler.first? x = some f) :
    pieces x = f :: pieces (x.drop f.source.length) := by
  rw [pieces]
  split
  · next hn => simp [h] at hn
  · next f' hf =>
    obtain rfl : f = f' := by simpa [h] using hf
    rfl

theorem pieces_source_append {fs : List Filler} {rest : Bytes}
    (h : Fits fs rest) (hs : Stops rest) :
    pieces (source fs ++ rest) = fs := by
  induction fs with
  | nil => exact pieces_eq_nil (Filler.first?_eq_none hs)
  | cons f fs ih =>
    obtain ⟨hf, hfs⟩ := h
    have hfirst : Filler.first? (source (f :: fs) ++ rest) = some f := by
      rw [source_cons, List.append_assoc]
      exact Filler.first?_source_append hf
    rw [pieces_eq_cons hfirst, source_cons, List.append_assoc,
      List.drop_left, ih hfs]

theorem exists_fits (x : Bytes) :
    ∃ fs rest, x = source fs ++ rest ∧ Fits fs rest ∧ Stops rest := by
  induction hn : x.length using Nat.strongRecOn generalizing x with
  | ind n ih =>
    rcases Filler.stops_or_exists_fits x with hs | ⟨f, rest, rfl, hf⟩
    · exact ⟨[], x, rfl, trivial, hs⟩
    · have hlt : rest.length < n := by
        have := f.length_source_pos
        rw [← hn, List.length_append]
        omega
      obtain ⟨fs, rest', rfl, hfs, hs⟩ := ih _ hlt rest rfl
      exact ⟨f :: fs, rest', by rw [source_cons, List.append_assoc],
        ⟨hf, hfs⟩, hs⟩

end Run

/-! ### Where a literal opens -/

/-- Behind the word, read backwards, stands the end of what was before it. -/
theorem endsInWord_nil_reverse_iff (before : Bytes) :
    endsInWord [] before.reverse = true ↔
      ∀ b, before.getLast? = some b → isWord b = false ∧ b ≠ dot := by
  rw [List.getLast?_eq_head?_reverse, endsInWord]
  cases before.reverse with
  | nil => simp
  | cons c t => simp

theorem endsInWord_append (k trail : Bytes) :
    endsInWord k (k.reverse ++ trail) = endsInWord [] trail := by
  have hpre : k.reverse.isPrefixOf (k.reverse ++ trail) = true :=
    List.isPrefixOf_iff_prefix.mpr (List.prefix_append k.reverse trail)
  rw [endsInWord, endsInWord, hpre, List.drop_left' List.length_reverse]
  simp

theorem endsInWord_reverse_iff (k out : Bytes) :
    endsInWord k out.reverse = true ↔
      ∃ before, out = before ++ k ∧ ∀ b, before.getLast? = some b →
        isWord b = false ∧ b ≠ dot := by
  constructor
  · intro h
    have hpre := (Bool.and_eq_true_iff.mp h).1
    rw [List.isPrefixOf_iff_prefix, List.reverse_prefix] at hpre
    obtain ⟨before, rfl⟩ := hpre
    rw [List.reverse_append, endsInWord_append] at h
    exact ⟨before, rfl, (endsInWord_nil_reverse_iff before).mp h⟩
  · rintro ⟨before, rfl, h⟩
    rw [List.reverse_append, endsInWord_append]
    exact (endsInWord_nil_reverse_iff before).mpr h

theorem endsInKeyword_reverse_iff (out : Bytes) :
    endsInKeyword out.reverse = true ↔
      ∃ k ∈ operandKeywords, ∃ before, out = before ++ k ∧
        ∀ b, before.getLast? = some b → isWord b = false ∧ b ≠ dot := by
  simp only [endsInKeyword, List.any_eq_true, endsInWord_reverse_iff]

theorem opensRegex_reverse_iff (o : Options) (out : Bytes) :
    opensRegex o.regexAfterKeywords out.reverse = true ↔
      RegexPosition o out := by
  rw [RegexPosition, ← endsInKeyword_reverse_iff,
    List.getLast?_eq_head?_reverse, ← List.reverse_eq_nil_iff]
  cases out.reverse with
  | nil => simp
  | cons b trail => simp [opensRegex_cons]

theorem OpensLiteral.ne_backslash {o : Options} {out : Bytes} {d : UInt8}
    {rest : Bytes} (h : OpensLiteral o out d rest) : d ≠ backslash := by
  rintro rfl
  rcases h with h | ⟨h, -, -⟩
  · exact absurd h (by decide)
  · exact absurd h (by decide)

/-- Whatever opens a literal is neither a blank nor the start of a comment. -/
theorem OpensLiteral.not_blank {o : Options} {out : Bytes} {d : UInt8}
    {rest : Bytes} (h : OpensLiteral o out d rest) :
    isBlank d = false ∧ startsComment (d :: rest) = false := by
  rcases h with h | ⟨rfl, hc, -⟩
  · have hd : d = singleQuote ∨ d = doubleQuote ∨ d = backtick := by
      simpa [isQuote, or_assoc] using h
    have hne : d ≠ slash := by rcases hd with rfl | rfl | rfl <;> decide
    refine ⟨by rcases hd with rfl | rfl | rfl <;> decide, ?_⟩
    cases rest with
    | nil => rfl
    | cons c t => simp [startsComment, hne]
  · exact ⟨by decide, hc⟩

/-! ### Segments -/

namespace Segment

def first (o : Options) (out : Bytes) (b : UInt8) (s : Bytes) : Segment :=
  if isBlank b || startsComment (b :: s) then .run (Run.pieces (b :: s))
  else if isQuote b ||
    (b == slash && opensRegex o.regexAfterKeywords out.reverse) then
    match literalSpan? b s with
    | some n => .literal b (s.take (n - 1))
    | none => .openLiteral b s
  else .single b

theorem source_ne_nil {o : Options} {out rest : Bytes} {s : Segment}
    (h : s.Fits o out rest) :
    s.source ≠ [] := by
  cases s with
  | run fs =>
    cases fs with
    | nil => exact absurd rfl h.1
    | cons f fs => simp [source, f.source_ne_nil]
  | literal d body => simp [source]
  | openLiteral d body => simp [source]
  | single b => simp [source]

theorem starts_of_run_fits {fs : List Filler} {rest s : Bytes} {b : UInt8}
    (hne : fs ≠ []) (h : Run.Fits fs rest)
    (hs : Run.source fs ++ rest = b :: s) :
    (isBlank b || startsComment (b :: s)) = true := by
  cases fs with
  | nil => exact absurd rfl hne
  | cons f fs =>
    rw [← hs]
    cases f with
    | blank c =>
      obtain rfl : c = b := by
        simpa [Filler.source] using congrArg List.head? hs
      simp [show isBlank c = true from h.1]
    | lineComment body ended => simp [Filler.source, startsComment]
    | blockComment body => simp [Filler.source, startsComment]
    | openComment body => simp [Filler.source, startsComment]

theorem first_eq_of_fits {o : Options} {out rest s : Bytes} {b : UInt8}
    {g : Segment} (h : g.Fits o out rest) (hs : g.source ++ rest = b :: s) :
    first o out b s = g := by
  have hopen : ∀ {t}, OpensLiteral o out b t →
      (isQuote b ||
        (b == slash && opensRegex o.regexAfterKeywords out.reverse)) =
          true := by
    rintro t (hq | ⟨rfl, -, hp⟩)
    · simp [hq]
    · simp [(opensRegex_reverse_iff o out).mpr hp]
  cases g with
  | run fs =>
    obtain ⟨hne, hfs, hstop⟩ := h
    have hstart := starts_of_run_fits hne hfs hs
    rw [first, hstart, if_pos rfl, ← hs]
    exact congrArg Segment.run (Run.pieces_source_append hfs hstop)
  | literal d body =>
    obtain ⟨hd, hbody⟩ := h
    obtain ⟨rfl, rfl⟩ : d = b ∧ body ++ d :: rest = s := by
      simpa [source] using hs
    have ⟨hblank, hcomment⟩ := hd.not_blank
    rw [first, hblank, hcomment, hopen hd,
      literalSpan?_append hd.ne_backslash hbody]
    simp
  | openLiteral d body =>
    obtain ⟨hd, hbody, rfl⟩ := h
    obtain ⟨rfl, rfl⟩ : d = b ∧ body = s := by simpa [source] using hs
    have ⟨hblank, hcomment⟩ := hd.not_blank
    rw [first, hblank, hcomment, hopen hd, literalSpan?_eq_none hbody]
    simp
  | single c =>
    obtain ⟨hblank, hcomment, hnot⟩ := h
    obtain ⟨rfl, rfl⟩ : c = b ∧ rest = s := by simpa [source] using hs
    have hclosed :
        (isQuote c ||
          (c == slash && opensRegex o.regexAfterKeywords out.reverse)) =
          false := by
      rw [Bool.eq_false_iff]
      intro hc
      rcases Bool.or_eq_true_iff.mp hc with hq | hp
      · exact hnot (.inl hq)
      · obtain ⟨hslash, hp⟩ := Bool.and_eq_true_iff.mp hp
        exact hnot
          (.inr ⟨beq_iff_eq.mp hslash, hcomment,
            (opensRegex_reverse_iff o out).mp hp⟩)
    rw [first, hblank, hcomment, hclosed]
    simp

theorem exists_fits (o : Options) (out : Bytes) {x : Bytes} (hx : x ≠ []) :
    ∃ g rest, x = source g ++ rest ∧ Fits o out rest g := by
  obtain ⟨fs, rest, rfl, hfs, hstop⟩ := Run.exists_fits x
  by_cases hne : fs = []
  · subst hne
    -- no run starts here, so the first byte is a literal's delimiter or stands
    -- for itself
    rcases rest with _ | ⟨b, s⟩
    · exact absurd rfl hx
    · have hblank : isBlank b = false := hstop.1 b rfl
      by_cases hopen : OpensLiteral o out b s
      · rcases exists_literal b s with hbody | ⟨body, rest, rfl, hbody⟩
        · exact ⟨.openLiteral b s, [], by simp [source], hopen, hbody, rfl⟩
        · exact ⟨.literal b body, rest, by simp [source], hopen, hbody⟩
      · exact ⟨.single b, s, rfl, hblank, hstop.2, hopen⟩
  · exact ⟨.run fs, rest, rfl, hne, hfs, hstop⟩

end Segment

/-! ### The whole source -/

theorem IsCut.eq_nil {o : Options} {out : Bytes} {ss : List Segment}
    (h : IsCut o out ss) (hs : Segments.source ss = []) : ss = [] := by
  cases ss with
  | nil => rfl
  | cons g ss =>
    exact absurd (List.append_eq_nil_iff.mp hs).1 (Segment.source_ne_nil h.1)

theorem Segment.length_source_first_pos (o : Options) (out : Bytes) (b : UInt8)
    (s : Bytes) :
    0 < (Segment.first o out b s).source.length := by
  obtain ⟨g, rest, hx, hg⟩ := Segment.exists_fits o out (List.cons_ne_nil b s)
  rw [Segment.first_eq_of_fits hg hx.symm]
  exact List.length_pos_iff.mpr (Segment.source_ne_nil hg)

def segments (o : Options) (out : Bytes) : Bytes → List Segment
  | [] => []
  | b :: s =>
    let g := Segment.first o out b s
    let rest := (b :: s).drop g.source.length
    have := length_drop_lt (List.cons_ne_nil b s)
      (Segment.length_source_first_pos o out b s)
    g :: segments o (out ++ g.written out rest) rest
termination_by x => x.length
decreasing_by exact this

theorem segments_of_fits {o : Options} {out rest : Bytes} {g : Segment}
    (h : g.Fits o out rest) :
    segments o out (g.source ++ rest) = g ::
      segments o (out ++ g.written out rest) rest := by
  obtain ⟨b, s, hs⟩ := List.exists_cons_of_ne_nil
    (List.append_ne_nil_of_left_ne_nil (Segment.source_ne_nil h) rest)
  have hfirst := Segment.first_eq_of_fits h hs
  have hrest : (b :: s).drop g.source.length = rest := by
    rw [← hs, List.drop_left]
  rw [hs, segments, hfirst, hrest]

theorem segments_source {o : Options} {out : Bytes} {ss : List Segment}
    (h : IsCut o out ss) :
    segments o out (Segments.source ss) = ss := by
  induction ss generalizing out with
  | nil => simp [segments]
  | cons g ss ih =>
    obtain ⟨hg, hss⟩ := h
    rw [Segments.source_cons, segments_of_fits hg, ih hss]

theorem exists_isCut (o : Options) (out x : Bytes) :
    ∃ ss, Segments.source ss = x ∧ IsCut o out ss := by
  induction hn : x.length using Nat.strongRecOn generalizing out x with
  | ind n ih =>
    by_cases hx : x = []
    · exact ⟨[], hx.symm, trivial⟩
    · obtain ⟨g, rest, rfl, hg⟩ := Segment.exists_fits o out hx
      have hlt : rest.length < n := by
        have := List.length_pos_iff.mpr (Segment.source_ne_nil hg)
        rw [← hn, List.length_append]
        omega
      obtain ⟨ss, rfl, hss⟩ := ih _ hlt (out ++ g.written out rest) rest rfl
      exact ⟨g :: ss, rfl, hg, hss⟩

/-- The segments that fit one after the other are those that the function
finds. -/
theorem isCut_iff_eq_segments (o : Options) (out x : Bytes)
    (ss : List Segment) :
    Segments.source ss = x ∧ IsCut o out ss ↔ ss = segments o out x := by
  constructor
  · rintro ⟨rfl, h⟩
    exact (segments_source h).symm
  · rintro rfl
    obtain ⟨ss, rfl, h⟩ := exists_isCut o out x
    rw [segments_source h]
    exact ⟨rfl, h⟩

@[simp] theorem source_segments (o : Options) (out x : Bytes) :
    Segments.source (segments o out x) = x :=
  ((isCut_iff_eq_segments o out x _).mpr rfl).1

theorem isCut_segments (o : Options) (out x : Bytes) :
    IsCut o out (segments o out x) :=
  ((isCut_iff_eq_segments o out x _).mpr rfl).2

theorem eq_cons_of_fits {o : Options} {out rest : Bytes} {g : Segment}
    {ss : List Segment} (h : IsCut o out ss) (hg : g.Fits o out rest)
    (hs : Segments.source ss = g.source ++ rest) :
    ∃ post, ss = g :: post ∧ Segments.source post = rest ∧
      IsCut o (out ++ g.written out rest) post := by
  refine ⟨segments o (out ++ g.written out rest) rest, ?_, source_segments ..,
    isCut_segments ..⟩
  rw [← segments_of_fits hg, ← hs, segments_source h]

end Terse.Script
