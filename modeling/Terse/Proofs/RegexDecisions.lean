import Terse.Proofs.Idempotence
import Terse.Proofs.Scan

/-!
# What the regular expression rule gets to see

A slash is decided by the byte that was written last. That byte is never a
blank: a gap is written only in front of a byte that begins a statement
(`State.GapsLead`), such a byte is copied in the next step, and neither a slash
nor a quote is one of them. So it makes no difference that a line feed is
counted among the bytes after which an operand is expected, and rules that
differ for blanks only give the same result (`minifyBy_opensRegexBy`).

In front of a slash every run is dropped. The scan comes to the slash with the
output it had in front of the run, so the run has no part in what becomes of the
slash (`reaches_slash_of_run_fits`).
-/

namespace Terse.Script

open Reader

/-! ### After a gap a byte is copied -/

/-- A gap that was written last stands in front of a byte that is copied
next. -/
def State.GapsLead (s : State) : Prop :=
  ∀ b, s.trail.head? = some b → isBlank b = true →
    ∃ n, s.reader.peek = some n ∧ isBlank n = false ∧ n ≠ slash ∧
      isQuote n = false

namespace State

variable {s s' : State}

theorem gapsLead_start (x : Bytes) : (start x).GapsLead := by
  intro b hb
  cases hb

theorem gapsLead_of_head? {b : UInt8} (hb : s.trail.head? = some b)
    (hblank : isBlank b = false) : s.GapsLead := by
  intro c hc hcblank
  obtain rfl : b = c := Option.some.inj (hb.symm.trans hc)
  rw [hblank] at hcblank
  cases hcblank

theorem GapsLead.isBlank_eq_false (h : s.GapsLead) {n : UInt8}
    (hpeek : s.reader.peek = some n)
    (hn : isBlank n = true ∨ n = slash ∨ isQuote n = true) {b : UInt8}
    (hb : s.trail.head? = some b) :
    isBlank b = false := by
  rw [Bool.eq_false_iff]
  intro hblank
  obtain ⟨m, hm, hmblank, hmslash, hmquote⟩ := h b hb hblank
  obtain rfl : n = m := Option.some.inj (hpeek.symm.trans hm)
  rcases hn with hn | hn | hn
  · rw [hmblank] at hn
    cases hn
  · exact hmslash hn
  · rw [hmquote] at hn
    cases hn

theorem head?_trail_of_copyLiteral {d : UInt8} {r : Reader}
    (hnext : s.reader.next? = some (d, r)) (hd : d ≠ backslash)
    (hcopy : s.copyLiteral = (.ok (), s')) : s'.trail.head? = some d := by
  rw [copyLiteral, literal, hnext] at hcopy
  dsimp only at hcopy
  rcases exists_literal d r.rest with hopen | ⟨body, rest, hrest, hbody⟩
  · rw [literalSpan?_eq_none hopen] at hcopy
    cases hcopy
  · rw [hrest, literalSpan?_append hd hbody] at hcopy
    cases hcopy
    dsimp only
    rw [List.take_length_add_append]
    simp

end State

/-- Every step keeps it so: a gap is written only where it leads to a byte that
is copied. -/
theorem Move.gapsLead {opens : Bytes → Bool} {s s' : State}
    (h : Move opens s s') (hs : s.GapsLead) : s'.GapsLead := by
  cases h with
  | comment hpeek hskip =>
    intro b hb hblank
    rw [hs.isBlank_eq_false hpeek (.inr (.inl rfl)) hb] at hblank
    cases hblank
  | @literal d r _ hnext hd hcopy =>
    have hclass : ∀ b : UInt8, isQuote b = true ∨ b = slash → b ≠ backslash ∧
        isBlank b = false :=
      forall_byte (by decide +kernel)
    obtain ⟨hne, hblank⟩ := hclass d (hd.imp id And.left)
    exact State.gapsLead_of_head?
      (State.head?_trail_of_copyLiteral hnext hne hcopy) hblank
  | @gap b r _ hnext hb hgap =>
    rw [State.writeGap] at hgap
    split at hgap
    · cases hgap
    · next g r' hr =>
      cases hgap
      intro c hc hblank
      dsimp only at hc ⊢
      split at hc
      · next hkept =>
        obtain ⟨p, n, -, hn, hseparates⟩ := Gap.exists_of_kept hkept
        exact ⟨n, hn, Gap.right_of_separates hseparates⟩
      · rw [hs.isBlank_eq_false (Reader.peek_of_next? hnext)
          (.inl hb) hc] at hblank
        cases hblank
  | copy hnext hquote hb hslash => exact State.gapsLead_of_head? rfl hb

theorem isBlank_head?_trail_of_asks {opens : Bytes → Bool} {x : Bytes}
    {s : State} (h : Reaches (stepBy opens) (.start x) s) (hasks : s.Asks)
    {b : UInt8} (hb : s.trail.head? = some b) :
    isBlank b = false := by
  have hs : s.GapsLead :=
    Reaches.invariant (fun hstep => (move_of_stepBy hstep).gapsLead) h
      (State.gapsLead_start x)
  exact hs.isBlank_eq_false hasks.1 (.inr (.inl rfl)) hb

/-! ### Other sets of bytes -/

/-- The rule `opensRegex` with any set of bytes after which an operand is
expected. -/
def opensRegexBy (expects : UInt8 → Bool) (afterKeywords : Bool) : Bytes → Bool
  | [] => true
  | b :: trail => expects b || (afterKeywords && endsInKeyword (b :: trail))

theorem opensRegex_eq_opensRegexBy (afterKeywords : Bool) :
    opensRegex afterKeywords = opensRegexBy expectsOperand afterKeywords := by
  funext trail
  cases trail <;> rfl

theorem minifyBy_opensRegexBy {p q : UInt8 → Bool}
    (h : ∀ b, isBlank b = false → p b = q b) (afterKeywords : Bool)
    (x : Bytes) :
    minifyBy (opensRegexBy p afterKeywords) x =
      minifyBy (opensRegexBy q afterKeywords) x := by
  refine congrArg (Except.map State.output)
    (runBy_eq_of_agree fun t ht hasks => ?_)
  cases htrail : t.trail with
  | nil => rfl
  | cons b trail =>
    have hb : isBlank b = false :=
      isBlank_head?_trail_of_asks ht hasks (by rw [htrail]; rfl)
    rw [opensRegexBy, opensRegexBy, h b hb]

/-! ### Runs in front of a slash -/

/-- A closed run is read in one step, or in two if it starts with a comment. -/
theorem reaches_of_run_fits (o : Options) {fs : List Filler} {rest : Bytes}
    (hne : fs ≠ []) (h : Run.Fits fs rest) (hstop : Stops rest)
    (hclose : fs.all Filler.closes = true) (n : Nat) (trail : Bytes) :
    Reaches (step o) ⟨⟨n, none, Run.source fs ++ rest⟩, trail⟩
      ⟨⟨n + (Run.source fs).length, none, rest⟩,
        if (Run.gap fs).kept trail.head? rest.head? then
          (Run.gap fs).byte :: trail else trail⟩ := by
  have hread := collapse_of_fits h hstop n .space
  rw [(Run.fault?_eq_none_iff n fs).mpr hclose] at hread
  have hgap : ∀ {r : Reader} {b : UInt8} {r' : Reader}, r.next? = some (b, r') →
    isBlank b = true →
      r.collapse .space = collapse ⟨n, none, Run.source fs ++ rest⟩ .space →
      step o ⟨r, trail⟩ = some (.ok ⟨⟨n + (Run.source fs).length, none, rest⟩,
        if (Run.gap fs).kept trail.head? rest.head? then
          (Run.gap fs).byte :: trail else trail⟩) := by
    intro r b r' hnext hb hsame
    rw [step_of_blank o hnext hb, State.writeGap, hsame, hread]
    rfl
  obtain ⟨f, fs, rfl⟩ := List.exists_cons_of_ne_nil hne
  obtain ⟨hf, -⟩ := h
  cases hc : f.isComment with
  | false =>
    cases f with
    | blank b => exact .single (hgap rfl hf rfl)
    | lineComment body ended => cases hc
    | blockComment body => cases hc
    | openComment body => cases hc
  | true =>
    rw [List.all_cons, Bool.and_eq_true] at hclose
    have hfault := (Filler.fault?_eq_none_iff n f).mpr hclose.1
    have hcomment := step_of_comment_fits o hc hf n trail
    have hcollapse := collapse_of_filler_fits hf n .space
    rw [hfault] at hcomment hcollapse
    rw [Run.source_cons, List.append_assoc] at hgap ⊢
    -- the byte put back is a blank, so the next step reads the run
    refine .head hcomment (.single (hgap rfl (Gap.isBlank_byte _) ?_))
    rw [collapse_putBack, hcollapse]

theorem stops_slash_cons {rest : Bytes}
    (h : startsComment (slash :: rest) = false) : Stops (slash :: rest) := by
  refine ⟨fun b hb => ?_, h⟩
  obtain rfl : slash = b := Option.some.inj hb
  rfl

theorem Run.Fits.all_closes {fs : List Filler} {rest : Bytes}
    (h : Run.Fits fs rest) (hne : rest ≠ []) :
    fs.all Filler.closes = true := by
  induction fs with
  | nil => rfl
  | cons f fs ih =>
    rw [List.all_cons, ih h.2, Bool.and_true]
    cases f with
    | openComment body => exact absurd (List.append_eq_nil_iff.mp h.1.2).2 hne
    | blank b => rfl
    | lineComment body ended => rfl
    | blockComment body => rfl

/-- The scan comes to the slash behind a run with the output it had in front of
the run. -/
theorem reaches_slash_of_run_fits (o : Options) {fs : List Filler}
    {rest : Bytes} (hne : fs ≠ []) (h : Run.Fits fs (slash :: rest))
    (hslash : startsComment (slash :: rest) = false) (n : Nat) (trail : Bytes) :
    Reaches (step o) ⟨⟨n, none, Run.source fs ++ slash :: rest⟩, trail⟩
      ⟨⟨n + (Run.source fs).length, none, slash :: rest⟩, trail⟩ := by
  have hreach := reaches_of_run_fits o hne h (stops_slash_cons hslash)
    (h.all_closes (List.cons_ne_nil _ _)) n trail
  rwa [List.head?_cons, Gap.kept_eq_false rfl] at hreach

theorem segments_of_run_fits_slash (o : Options) {fs : List Filler}
    {rest : Bytes} (hne : fs ≠ []) (h : Run.Fits fs (slash :: rest))
    (hslash : startsComment (slash :: rest) = false) (out : Bytes) :
    segments o out (Run.source fs ++ slash :: rest) = .run fs ::
      segments o out (slash :: rest) := by
  have hfits : (Segment.run fs).Fits o out (slash :: rest) :=
    ⟨hne, h, stops_slash_cons hslash⟩
  have hdropped : (Segment.run fs).written out (slash :: rest) = [] := by
    rw [Segment.written, List.head?_cons, Gap.kept_eq_false rfl]
    rfl
  have hcut := segments_of_fits hfits
  rwa [hdropped, List.append_nil] at hcut

/-- Whenever it has to be decided about a slash, nothing has been written or the
last byte is no blank. Hence the result of every source is the same if a line
feed is taken out of the bytes after which an operand is expected. And whether a
slash is a division or opens a regular expression does not depend on a run in
front of it: the scan comes to the slash with the output it had before the run,
and cuts the rest as it would without the run. -/
theorem regex_rule_unaware_of_blanks (o : Options) (x : Bytes) :
    (∀ s, Scans o x s → s.Asks → ∀ b, s.output.getLast? = some b →
      isBlank b = false) ∧
      minifyBy (opensRegexBy (fun b => expectsOperand b && b != lineFeed)
        o.regexAfterKeywords) x = minify o x ∧
      ∀ fs rest, fs ≠ [] → Run.Fits fs (slash :: rest) →
        startsComment (slash :: rest) = false →
        ∀ n out,
          Reaches (step o)
            ⟨⟨n, none, Run.source fs ++ slash :: rest⟩, out.reverse⟩
            ⟨⟨n + (Run.source fs).length, none, slash :: rest⟩, out.reverse⟩ ∧
          segments o out (Run.source fs ++ slash :: rest) =
            .run fs :: segments o out (slash :: rest) := by
  refine ⟨?_, ?_, ?_⟩
  · intro s hs hasks b hb
    rw [State.output, List.getLast?_reverse] at hb
    exact isBlank_head?_trail_of_asks hs hasks hb
  · have hsame : ∀ b : UInt8, isBlank b = false →
        (expectsOperand b && b != lineFeed) = expectsOperand b :=
      forall_byte (by decide +kernel)
    rw [minify, opensRegex_eq_opensRegexBy]
    exact minifyBy_opensRegexBy hsame o.regexAfterKeywords x
  · intro fs rest hne hfs hslash n out
    exact ⟨reaches_slash_of_run_fits o hne hfs hslash n out.reverse,
      segments_of_run_fits_slash o hne hfs hslash out⟩

/-- In front of the slash stand a comment and the line feed that ends it; the
slash is a division all the same. -/
theorem regex_rule_unaware_of_blanks_division :
    Scans {} (Bytes.ofAscii "a// b\n/c")
        ⟨⟨6, none, Bytes.ofAscii "/c"⟩, [0x61]⟩ ∧
      isBlank 0x61 = false ∧
      segments {} (Bytes.ofAscii "a") (Bytes.ofAscii "// b\n/c") =
        [.run [.lineComment (Bytes.ofAscii " b") true], .single slash,
          .single 0x63] ∧
      minifyBy (opensRegexBy (fun b => expectsOperand b && b != lineFeed) false)
        (Bytes.ofAscii "a// b\n/c") =
        .ok (Bytes.ofAscii "a/c") := by
  obtain ⟨hasked, hsame, hruns⟩ := regex_rule_unaware_of_blanks {}
    (Bytes.ofAscii "a// b\n/c")
  have hcopy : step {} (.start (Bytes.ofAscii "a// b\n/c")) =
      some (.ok ⟨⟨1, none, Bytes.ofAscii "// b\n/c"⟩, [0x61]⟩) := rfl
  have hfits : Run.Fits [.lineComment (Bytes.ofAscii " b") true]
      (Bytes.ofAscii "/c") :=
    ⟨⟨by decide, by decide⟩, trivial⟩
  obtain ⟨hreaches, hcut⟩ :=
    hruns [.lineComment (Bytes.ofAscii " b") true] [0x63]
      (by decide) hfits rfl 1 (Bytes.ofAscii "a")
  have hscans : Scans {}
      (Bytes.ofAscii "a// b\n/c") ⟨⟨6, none, Bytes.ofAscii "/c"⟩, [0x61]⟩ :=
        .head hcopy hreaches
  have hslash : segments {} (Bytes.ofAscii "a") (Bytes.ofAscii "/c") =
      [.single slash, .single 0x63] := by
    decide +kernel
  have hwhole : segments {} [] (Bytes.ofAscii "a// b\n/c") =
      [.single 0x61, .run [.lineComment (Bytes.ofAscii " b") true],
        .single slash, .single 0x63] := by
    decide +kernel
  have hresult : minify {} (Bytes.ofAscii "a// b\n/c") =
      .ok (Bytes.ofAscii "a/c") := by
    rw [minify_eq_ok_iff, hwhole]
    decide
  refine ⟨hscans, hasked _ hscans ⟨rfl, rfl⟩ 0x61 rfl, ?_, hsame.trans hresult⟩
  exact hcut.trans (congrArg _ hslash)

end Terse.Script
