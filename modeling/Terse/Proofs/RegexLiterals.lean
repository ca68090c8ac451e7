import Terse.Proofs.Bundling
import Terse.Proofs.Layout
import Terse.Proofs.Openers

/-!
# Regular expressions as they are written

In a regular expression a slash may stand in brackets without a backslash before
it. The machine reads all literals alike and knows pairs of a backslash and a
byte only, so to it the first slash outside of such a pair is the end of the
expression, in brackets or not. `RegexBody` says what stands between the slashes
of an expression. The machine reads it whole exactly if it has no slash outside
of pairs (`exists_first_unpaired`), and otherwise takes its end for a part of
the program that follows.

To speak of an expression somewhere in a source, what comes before it is given
as a source of its own, which is accepted and leaves no line comment without an
end. The cut of the two together is the one cut followed by the other
(`isCut_append_literal`).
-/

namespace Terse.Script

/-! ### The syntax of regular expressions -/

abbrev openBracket : UInt8 := 0x5b
abbrev closeBracket : UInt8 := 0x5d

/-- The bytes that end a line. -/
def EndsLine (b : UInt8) : Prop := b = lineFeed ∨ b = carriageReturn

instance : DecidablePred EndsLine :=
  fun b => inferInstanceAs (Decidable (b = lineFeed ∨ b = carriageReturn))

/-- What may stand between brackets. A slash is a byte like any other there. -/
inductive ClassBody : Bytes → Prop
  | nil : ClassBody []
  | plain {b : UInt8} {s : Bytes} : b ≠ closeBracket → b ≠ backslash →
    ¬ EndsLine b → ClassBody s → ClassBody (b :: s)
  | escape (b : UInt8) {s : Bytes} : ClassBody s →
    ClassBody (backslash :: b :: s)

/-- What may stand between the slashes of a regular expression. -/
inductive RegexBody : Bytes → Prop
  | nil : RegexBody []
  | plain {b : UInt8} {s : Bytes} : b ≠ slash → b ≠ backslash →
    b ≠ openBracket → ¬ EndsLine b → RegexBody s →
      RegexBody (b :: s)
  | escape (b : UInt8) {s : Bytes} : RegexBody s →
    RegexBody (backslash :: b :: s)
  | bracketed {c s : Bytes} : ClassBody c → RegexBody s →
    RegexBody (openBracket :: (c ++ closeBracket :: s))

/-- A slash, `body` and a slash are a regular expression. With nothing between
them, or a star in front, they would be a comment. -/
structure IsRegex (body : Bytes) : Prop where
  regexBody : RegexBody body
  ne_nil : body ≠ []
  head_ne_star : body.head? ≠ some star

theorem ClassBody.append_paired {c s : Bytes} (h : ClassBody c)
    (hs : LiteralBody backslash s) :
    LiteralBody backslash (c ++ s) := by
  induction h with
  | nil => exact hs
  | plain _ hb _ _ ih => exact .plain hb hb ih
  | escape b _ ih => exact .escape b ih

theorem RegexBody.paired {body : Bytes} (h : RegexBody body) :
    LiteralBody backslash body := by
  induction h with
  | nil => exact .nil
  | plain _ hb _ _ _ ih => exact .plain hb hb ih
  | escape b _ ih => exact .escape b ih
  | bracketed hc _ ih =>
    exact .plain (by decide) (by decide)
      (hc.append_paired (.plain (by decide) (by decide) ih))

theorem RegexBody.head?_ne_slash {body : Bytes} (h : RegexBody body) :
    body.head? ≠ some slash := by
  cases h with
  | nil => simp
  | plain hb => simpa using hb
  | escape b => exact fun h => absurd (Option.some.inj h) (by decide)
  | bracketed hc => exact fun h => absurd (Option.some.inj h) (by decide)

theorem IsRegex.startsComment_eq_false {body : Bytes} (h : IsRegex body)
    (s : Bytes) :
    startsComment (slash :: (body ++ s)) = false := by
  obtain ⟨b, t, rfl⟩ := List.exists_cons_of_ne_nil h.ne_nil
  refine startsComment_slash_cons_eq_false fun c hc hor => ?_
  obtain rfl : b = c := Option.some.inj hc
  rcases hor with rfl | rfl
  · exact h.regexBody.head?_ne_slash rfl
  · exact h.head_ne_star rfl

/-- The first delimiter outside of pairs is the one behind the body exactly if
there is none in the body. -/
theorem exists_first_unpaired {d : UInt8} {body : Bytes}
    (h : LiteralBody backslash body) :
    ∃ u v, body ++ [d] = u ++ d :: v ∧ LiteralBody d u ∧
      (v = [] ↔ d ∉ unpaired body) := by
  induction h with
  | nil => exact ⟨[], [], rfl, .nil, by simp [unpaired]⟩
  | @plain b s hb _ _ ih =>
    rw [unpaired_plain hb]
    by_cases hd : b = d
    · subst hd
      exact ⟨[], s ++ [b], rfl, .nil, by simp⟩
    · obtain ⟨u, v, hsplit, hu, hv⟩ := ih
      refine ⟨b :: u, v, congrArg (b :: ·) hsplit, .plain hd hb hu, ?_⟩
      rw [hv, List.mem_cons, not_or]
      exact ⟨fun hmem => ⟨fun e => hd e.symm, hmem⟩, And.right⟩
  | escape b _ ih =>
    obtain ⟨u, v, hsplit, hu, hv⟩ := ih
    exact ⟨backslash :: b :: u, v, congrArg (backslash :: b :: ·) hsplit,
      .escape b hu, hv⟩

/-! ### A literal behind a source -/

/-- Whether the pieces end in a line comment that no line feed has ended. -/
def Run.leavesLineOpen (fs : List Filler) : Bool :=
  match fs.getLast? with
  | some (.lineComment _ ended) => !ended
  | _ => false

def Segments.leavesLineOpen (ss : List Segment) : Bool :=
  match ss.getLast? with
  | some (.run fs) => Run.leavesLineOpen fs
  | _ => false

/-- Whether a source ends in a line comment. -/
def endsInLineComment (o : Options) (x : Bytes) : Bool :=
  Segments.leavesLineOpen (segments o [] x)

/-- Closed pieces at the end fit in front of anything, unless what follows would
go on with a line comment. -/
theorem Run.Fits.of_nil {fs : List Filler} (h : Run.Fits fs [])
    (hclose : fs.all Filler.closes = true)
    (hline : Run.leavesLineOpen fs = false) (rest : Bytes) :
    Run.Fits fs rest := by
  induction fs with
  | nil => trivial
  | cons f fs ih =>
    obtain ⟨hf, hfs⟩ := h
    rw [List.all_cons, Bool.and_eq_true] at hclose
    cases fs with
    | nil =>
      refine ⟨?_, trivial⟩
      cases f with
      | blank b => exact hf
      | lineComment body ended =>
        obtain rfl : ended = true := Bool.not_eq_eq_eq_not.mp hline
        exact ⟨hf.1, by simp⟩
      | blockComment body => exact hf
      | openComment body => cases hclose.1
    | cons f' fs =>
      have hne : Run.source (f' :: fs) ++ [] ≠ [] := by simp [f'.source_ne_nil]
      refine ⟨?_,
        ih hfs hclose.2
        (by rwa [Run.leavesLineOpen, List.getLast?_cons_cons] at hline)⟩
      have hlonger := hf.append hne rest
      rwa [List.append_nil] at hlonger

theorem Segments.source_append (ss ts : List Segment) :
    source (ss ++ ts) = source ss ++ source ts :=
  List.flatMap_append

/-- Where a run has to stop in front of the one cut, it has to stop in front of
both. -/
theorem IsCut.stops_append {o : Options} {out : Bytes} {ss ts : List Segment}
    (h : IsCut o out ss) (hcut : IsCut o out (ss ++ ts))
    (hstop : Stops (Segments.source ss)) (hts : Stops (Segments.source ts)) :
    Stops (Segments.source (ss ++ ts)) := by
  cases ss with
  | nil => exact hts
  | cons g ss => exact hcut.1.stops (h.1.isRun_eq_false hstop)

/-- Whether a slash starts a comment is seen from the first segment behind
it. -/
theorem IsCut.startsComment_append {o : Options} {out : Bytes}
    {ss ts : List Segment} (h : IsCut o out ss)
    (hslash : startsComment (slash :: Segments.source ss) = false)
    (hts : ss = [] → startsComment (slash :: Segments.source ts) = false) :
    startsComment (slash :: Segments.source (ss ++ ts)) = false := by
  cases ss with
  | nil => exact hts rfl
  | cons g ss =>
    obtain ⟨b, t, hb⟩ := List.exists_cons_of_ne_nil (Segment.source_ne_nil h.1)
    rw [Segments.source_cons, hb] at hslash
    rw [List.cons_append, Segments.source_cons, hb]
    exact hslash

theorem OpensLiteral.beginsStatement_eq_false {o : Options} {out rest : Bytes}
    {d : UInt8} (h : OpensLiteral o out d rest) :
    beginsStatement d = false := by
  rcases h.eq_or with rfl | rfl | rfl | rfl <;> rfl

/-- The segments of a source that closes fit in front of a literal as they do at
the end, if they do not end in a line comment. -/
theorem isCut_append_literal {o : Options} {out : Bytes} {ss : List Segment}
    (h : IsCut o out ss) (hclose : ∀ g ∈ ss, g.closes = true)
    (hline : Segments.leavesLineOpen ss = false) {d : UInt8} {body : Bytes}
    {ts : List Segment}
    (hts : IsCut o (out ++ Segments.written out ss) (.literal d body :: ts)) :
    IsCut o out (ss ++ .literal d body :: ts) ∧
      Segments.written out (ss ++ .literal d body :: ts) =
        Segments.written out ss ++
        Segments.written (out ++ Segments.written out ss)
          (.literal d body :: ts) := by
  induction ss generalizing out with
  | nil =>
    rw [Segments.written_nil, List.append_nil] at hts ⊢
    exact ⟨hts, rfl⟩
  | cons g ss ih =>
    obtain ⟨hg, hss⟩ := h
    obtain ⟨hgclose, hssclose⟩ := List.forall_mem_cons.mp hclose
    have hopens := hts.1.1
    have hstops := hts.1.stops rfl
    have hwritten :
      g.written out (Segments.source (ss ++ .literal d body :: ts)) =
        g.written out (Segments.source ss) := by
      rw [Segments.source_append]
      refine Segment.written_append (fun b hb => ?_) g out _
      obtain rfl : d = b := Option.some.inj hb
      exact hopens.beginsStatement_eq_false
    rw [Segments.written_cons, ← List.append_assoc] at hts ⊢
    obtain ⟨hcut, hsame⟩ : IsCut o (out ++ g.written out (Segments.source ss))
        (ss ++ .literal d body :: ts) ∧ _ := by
      refine ih hss hssclose ?_ hts
      cases ss with
      | nil => rfl
      | cons g' ss =>
        rwa [Segments.leavesLineOpen, List.getLast?_cons_cons] at hline
    have hfits :
        g.Fits o out (Segments.source (ss ++ .literal d body :: ts)) := by
      cases hrun : g.isRun with
      | true =>
        obtain ⟨fs, rfl⟩ := Segment.exists_eq_run hrun
        obtain ⟨hne, hfs, hstop⟩ := hg
        refine ⟨hne, ?_, hss.stops_append hcut hstop hstops⟩
        cases ss with
        | nil => exact hfs.of_nil hgclose hline _
        | cons g' ss =>
          rw [Segments.source_append]
          exact hfs.append
            (List.append_ne_nil_of_left_ne_nil (Segment.source_ne_nil hss.1) _)
            _
      | false =>
        refine fits_again hg hrun hgclose ?_
        rintro rfl
        refine hss.startsComment_append hg.2.1 ?_
        rintro rfl
        -- no regular expression opens after the slash, so the literal is a
        -- string
        refine startsComment_slash_cons_eq_false fun c hc hor => ?_
        obtain rfl : d = c := Option.some.inj hc
        exact not_opensLiteral_append_slash hor o out _ hopens
    rw [List.cons_append, IsCut, Segments.written_cons, hwritten, hsame,
      List.append_assoc]
    exact ⟨⟨hfits, hcut⟩, (List.append_assoc ..).symm⟩

/-- A literal behind an accepted source is cut and written behind what the
source gives. -/
theorem segments_append_literal {o : Options} {x out w rest : Bytes} {d : UInt8}
    {u : Bytes} (hx : minify o x = .ok out)
    (hline : endsInLineComment o x = false)
    (hfits : (Segment.literal d u).Fits o out rest)
    (hw : w = out ++ (d :: u ++ [d])) :
    segments o [] (x ++ (d :: u ++ [d]) ++ rest) = segments o [] x ++
      .literal d u :: segments o w rest ∧
      Segments.written []
        (segments o [] x ++ .literal d u :: segments o w rest) =
        w ++ Segments.written w (segments o w rest) := by
  subst hw
  obtain ⟨hclose, hout⟩ := (minify_eq_ok_iff o x out).mp hx
  have hts :
      IsCut o out
        (.literal d u :: segments o (out ++ (d :: u ++ [d])) rest) := by
    refine ⟨?_, isCut_segments o _ rest⟩
    rwa [source_segments]
  rw [hout, ← List.nil_append (Segments.written [] _)] at hts
  obtain ⟨hcut, hwritten⟩ :=
    isCut_append_literal (isCut_segments o [] x) hclose hline hts
  rw [List.nil_append, ← hout] at hcut hwritten
  have hsource :
    Segments.source (segments o [] x ++ .literal d u ::
      segments o (out ++ (d :: u ++ [d])) rest) =
      x ++ (d :: u ++ [d]) ++ rest := by
    rw [Segments.source_append, source_segments, Segments.source_cons,
      source_segments, ← List.append_assoc]
    rfl
  refine ⟨?_, ?_⟩
  · rw [← hsource, segments_source hcut]
  · rw [hwritten, Segments.written_cons, ← List.append_assoc]
    rfl

/-! ### Regular expressions in the output -/

/-- Where a regular expression may open, the machine reads one through its first
slash outside of pairs. -/
theorem IsRegex.fits {o : Options} {out body : Bytes} (h : IsRegex body)
    (hopens : opensRegex o.regexAfterKeywords out.reverse = true) {u v : Bytes}
    (hsplit : body ++ [slash] = u ++ slash :: v) (hu : LiteralBody slash u)
    (tail : Bytes) :
    (Segment.literal slash u).Fits o out (v ++ tail) := by
  have hbytes : body ++ slash :: tail = u ++ slash :: (v ++ tail) := by
    simpa using congrArg (· ++ tail) hsplit
  have hstart := h.startsComment_eq_false (slash :: tail)
  rw [hbytes] at hstart
  exact ⟨.inr ⟨rfl, hstart, (opensRegex_reverse_iff o out).mp hopens⟩, hu⟩

/-- Let a source be accepted, with an output after which a regular expression
may open, and not end in a line comment; let a regular expression and more come
behind it. What is written for the expression, directly behind that output, is
the expression up to its first slash outside of pairs, `u` and the slash; the
rest of it, `v`, is cut as a part of what follows. There is no such rest exactly
if no slash stands in the body outside of pairs, and then all of the expression
is copied; otherwise it is if the cut happens to write `v` as it stands. -/
theorem regex_copied_through_unpaired_slash {o : Options}
    {x out body tail y : Bytes} (hx : minify o x = .ok out)
    (hopens : opensRegex o.regexAfterKeywords out.reverse = true)
    (hline : endsInLineComment o x = false) (hbody : IsRegex body)
    (hy : minify o (x ++ (slash :: body ++ [slash]) ++ tail) = .ok y) :
    (slash ∉ unpaired body → out ++ (slash :: body ++ [slash]) <+: y) ∧
      ∃ u v w z, body ++ [slash] = u ++ slash :: v ∧ LiteralBody slash u ∧
        (v = [] ↔ slash ∉ unpaired body) ∧
        w = out ++ (slash :: u ++ [slash]) ∧
          z = Segments.written w (segments o w (v ++ tail)) ∧
        segments o [] (x ++ (slash :: body ++ [slash]) ++ tail) =
          segments o [] x ++ .literal slash u :: segments o w (v ++ tail) ∧
        y = w ++ z ∧ (out ++ (slash :: body ++ [slash]) <+: y ↔ v <+: z) := by
  obtain ⟨u, v, hsplit, hu, hv⟩ :=
    exists_first_unpaired (d := slash) hbody.regexBody.paired
  have hverbatim : slash :: body ++ [slash] = slash :: u ++ [slash] ++ v := by
    rw [List.cons_append, hsplit]
    simp
  have hsource : x ++ (slash :: body ++ [slash]) ++ tail = x ++
      (slash :: u ++ [slash]) ++ (v ++ tail) := by
    rw [hverbatim]
    simp
  obtain ⟨hcut, hwritten⟩ :=
    segments_append_literal hx hline (hbody.fits hopens hsplit hu tail) rfl
  rw [← hsource] at hcut
  obtain ⟨-, rfl⟩ := (minify_eq_ok_iff o _ y).mp hy
  have hbegins : ∀ z : Bytes,
      out ++ (slash :: body ++ [slash]) <+: out ++ (slash :: u ++ [slash]) ++
        z ↔ v <+: z := by
    intro z
    rw [hverbatim, ← List.append_assoc, List.prefix_append_right_inj]
  rw [hcut, hwritten]
  refine ⟨fun hmem => ?_, u, v, _, _, hsplit, hu, hv, rfl, rfl, rfl,
    rfl, hbegins _⟩
  rw [hbegins, hv.mpr hmem]
  exact List.nil_prefix

/-- A pair and blanks in an expression that stands behind a comment: all of it
is copied. -/
theorem regex_copied_through_unpaired_slash_pair :
    minify {} (Bytes.ofAscii "f(/* a */ ") = .ok (Bytes.ofAscii "f(") ∧
      minify {} (Bytes.ofAscii "f(/* a */ /b\\/  [c]/.x") =
        .ok (Bytes.ofAscii "f(/b\\/  [c]/.x") ∧
      Bytes.ofAscii "f(/b\\/  [c]/" <+: Bytes.ofAscii "f(/b\\/  [c]/.x" := by
  have hfirst : segments {} [] (Bytes.ofAscii "f(/* a */ ") =
      [.single 0x66, .single 0x28,
        .run [.blockComment [0x20, 0x61, 0x20],
          .blank 0x20]] := by decide +kernel
  have hwhole : segments {} [] (Bytes.ofAscii "f(/* a */ /b\\/  [c]/.x") =
      [.single 0x66, .single 0x28,
        .run [.blockComment [0x20, 0x61, 0x20], .blank 0x20],
        .literal slash (Bytes.ofAscii "b\\/  [c]"), .single dot,
          .single 0x78] := by decide +kernel
  have hx : minify {} (Bytes.ofAscii "f(/* a */ ") =
      .ok (Bytes.ofAscii "f(") := by
    rw [minify_eq_ok_iff, hfirst]
    decide
  have hy : minify {} (Bytes.ofAscii "f(/* a */ /b\\/  [c]/.x") =
      .ok (Bytes.ofAscii "f(/b\\/  [c]/.x") := by
    rw [minify_eq_ok_iff, hwhole]
    decide
  have hline : endsInLineComment {} (Bytes.ofAscii "f(/* a */ ") = false := by
    rw [endsInLineComment, hfirst]
    rfl
  have hclass : RegexBody [openBracket, 0x63, closeBracket] :=
    .bracketed (.plain (by decide) (by decide) (by decide) .nil) .nil
  have hblanks : RegexBody [space, space, openBracket, 0x63, closeBracket] :=
    .plain (by decide) (by decide) (by decide) (by decide)
      (.plain (by decide) (by decide) (by decide) (by decide) hclass)
  have hbody : IsRegex [0x62, backslash, slash, space, space, openBracket, 0x63,
      closeBracket] :=
    ⟨.plain (by decide) (by decide) (by decide) (by decide)
      (.escape slash hblanks), by decide, by decide⟩
  refine ⟨hx, hy, ?_⟩
  exact (@regex_copied_through_unpaired_slash {}
    _ _ _ (Bytes.ofAscii ".x") _ hx rfl hline hbody hy).1 (by decide)

/-- A slash in brackets ends the expression for the machine, and the blanks
behind it are dropped. -/
theorem not_forall_regex_copied :
    ¬ ∀ (o : Options) (x out body tail y : Bytes), minify o x = .ok out →
      opensRegex o.regexAfterKeywords out.reverse = true →
        endsInLineComment o x = false → IsRegex body →
      minify o (x ++ (slash :: body ++ [slash]) ++ tail) = .ok y →
        out ++ (slash :: body ++ [slash]) <+: y := by
  intro h
  have hfirst : segments {} [] (Bytes.ofAscii "x = ") =
      [.single 0x78, .run [.blank 0x20], .single 0x3d, .run [.blank 0x20]] := by
        decide +kernel
  have hwhole : segments {} [] (Bytes.ofAscii "x = /[/]  a/;") =
      [.single 0x78, .run [.blank 0x20], .single 0x3d, .run [.blank 0x20],
        .literal slash [openBracket],
        .single closeBracket, .run [.blank 0x20, .blank 0x20], .single 0x61,
          .single slash, .single semicolon] := by
    decide +kernel
  have hx : minify {} (Bytes.ofAscii "x = ") = .ok (Bytes.ofAscii "x=") := by
    rw [minify_eq_ok_iff, hfirst]
    decide
  have hy : minify {} (Bytes.ofAscii "x = /[/]  a/;") =
      .ok (Bytes.ofAscii "x=/[/]a/;") := by
    rw [minify_eq_ok_iff, hwhole]
    decide
  have hline : endsInLineComment {} (Bytes.ofAscii "x = ") = false := by
    rw [endsInLineComment, hfirst]
    rfl
  have hblanks : RegexBody [space, space, 0x61] :=
    .plain (by decide) (by decide) (by decide) (by decide)
      (.plain (by decide) (by decide) (by decide) (by decide)
        (.plain (by decide) (by decide) (by decide) (by decide) .nil))
  have hbody : IsRegex [openBracket, slash, closeBracket, space, space, 0x61] :=
    ⟨.bracketed (.plain (by decide) (by decide) (by decide) .nil) hblanks,
      by decide, by decide⟩
  exact absurd (h {} _ _ _ (Bytes.ofAscii ";") _ hx rfl hline hbody hy)
    (by decide)

end Terse.Script
