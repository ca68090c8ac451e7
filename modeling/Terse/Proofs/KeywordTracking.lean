import Terse.Proofs.GuardedScan
import Terse.Proofs.Idempotence

/-!
# What tracking keywords changes

With keywords tracked, a slash after a keyword opens a regular expression where
it is a division otherwise, and nothing else is decided differently. The scans
of a source with and without tracking therefore go through the same states until
the first division after a keyword (`State.DividesAfterKeyword`). If there is
none, the results are the same. At the first one both scans have read and
written the same, and the scan that tracks keywords reads a regular expression
from there, which closes or is left open by the end of the source.
-/

namespace Terse.Script

open Reader

/-- The options with which keywords are tracked. -/
def trackingKeywords : Options where regexAfterKeywords := true

/-- The output ends in a keyword that stands alone: neither part of a longer
word nor the name of a property. -/
def EndsInKeyword (out : Bytes) : Prop :=
  ∃ k ∈ operandKeywords, ∃ before, out = before ++ k ∧ ∀ b, before.getLast? =
    some b → isWord b = false ∧ b ≠ dot

instance (out : Bytes) : Decidable (EndsInKeyword out) :=
  decidable_of_iff _ (endsInKeyword_reverse_iff out)

/-- A slash that starts no comment is read next, and without tracking it is a
division, but stands after a keyword. -/
structure State.DividesAfterKeyword (s : State) : Prop where
  asks : s.Asks
  divides : opensRegex false s.trail = false
  keyword : EndsInKeyword s.output

/-- The state in front of the first division after a keyword in the scan of
`x`. -/
structure FirstDivision (x : Bytes) (s : State) : Prop where
  scans : Scans {} x s
  divides : s.DividesAfterKeyword
  first : ∀ t, Scans {} x t → t.DividesAfterKeyword → Reaches (step {}) s t

/-! ### The same decisions -/

theorem State.reverse_output (s : State) : s.output.reverse = s.trail :=
  List.reverse_reverse s.trail

theorem opensRegex_of_not_dividesAfterKeyword {s : State} (hasks : s.Asks)
    (h : ¬ s.DividesAfterKeyword) :
    opensRegex false s.trail = opensRegex true s.trail := by
  cases hopens : opensRegex false s.trail with
  | true => exact (opensRegex_of_not_keywords hopens true).symm
  | false =>
    have hkeyword : endsInKeyword s.trail = false := by
      rw [Bool.eq_false_iff, ← s.reverse_output]
      exact fun hk => h ⟨hasks, hopens,
        (endsInKeyword_reverse_iff s.output).mp hk⟩
    cases htrail : s.trail with
    | nil =>
      rw [htrail] at hopens
      cases hopens
    | cons b trail =>
      rw [htrail] at hopens hkeyword
      rw [opensRegex_cons, Bool.false_and, Bool.or_false] at hopens
      rw [opensRegex_cons, hopens, hkeyword]
      rfl

theorem step_of_not_dividesAfterKeyword {s : State}
    (h : ¬ s.DividesAfterKeyword) :
    step trackingKeywords s = step {} s :=
  (stepBy_eq_of_agree fun hasks => opensRegex_of_not_dividesAfterKeyword
    hasks h).symm

theorem minify_of_forall_not_dividesAfterKeyword {x : Bytes}
    (h : ∀ s, Scans {} x s → ¬ s.DividesAfterKeyword) :
    minify trackingKeywords x = minify {} x := by
  rw [minify_eq, minify_eq, run, run]
  refine congrArg (Except.map State.output)
    (runBy_eq_of_agree fun t ht hasks => ?_).symm
  exact opensRegex_of_not_dividesAfterKeyword hasks (h t ht)

/-! ### The first different decision -/

theorem startsComment_of_skipComment? {n : Nat} {rest : Bytes}
    (h : skipComment? ⟨n, none, slash :: rest⟩ = .ok none) :
    startsComment (slash :: rest) = false := by
  refine startsComment_slash_cons_eq_false fun c hc hor => ?_
  obtain ⟨t, rfl⟩ := List.head?_eq_some_iff.mp hc
  rcases hor with rfl | rfl
  · rw [skipComment?, if_pos ⟨rfl, rfl⟩] at h
    cases h
  · have hstar : second ⟨n, none, slash :: star :: t⟩ = some star := rfl
    rw [skipComment?,
      if_neg (fun hline => absurd (hstar.symm.trans hline.2) (by decide)),
      if_pos ⟨rfl, hstar⟩] at h
    cases hskip : skipBlockComment ⟨n, none, slash :: star :: t⟩ with
    | error e =>
      rw [hskip] at h
      cases h
    | ok r =>
      rw [hskip] at h
      cases h

theorem Scans.exists_of_asks {o : Options} {x : Bytes} {s : State}
    (h : Scans o x s) (hasks : s.Asks) :
    ∃ k rest, s = ⟨⟨k, none, slash :: rest⟩, s.output.reverse⟩ ∧
      x.drop k = slash :: rest ∧
      startsComment (slash :: rest) = false := by
  have hslot := h.sound.slot_eq_none hasks.1 rfl
  have hrest := h.sound.rest_eq
  obtain ⟨⟨k, slot, r⟩, trail⟩ := s
  dsimp only at hslot hrest
  subst hslot
  obtain ⟨rest, rfl⟩ := List.head?_eq_some_iff.mp hasks.1
  exact ⟨k, rest, by rw [State.reverse_output], hrest.symm,
    startsComment_of_skipComment? hasks.2⟩

theorem not_opensLiteral_slash {o : Options} {out : Bytes}
    (h : opensRegex o.regexAfterKeywords out.reverse = false) (rest : Bytes) :
    ¬ OpensLiteral o out slash rest := by
  rintro (hq | ⟨-, -, hp⟩)
  · cases hq
  · exact absurd ((opensRegex_reverse_iff o out).mpr hp)
      (Bool.eq_false_iff.mp h)

/-- If there is a division after a keyword, there is a first one, and the scan
that tracks keywords comes to it too. -/
theorem exists_firstDivision {x : Bytes}
    (h : ∃ s, Scans {} x s ∧ s.DividesAfterKeyword) :
    ∃ s, FirstDivision x s ∧ Scans trackingKeywords x s := by
  obtain ⟨t, ht, hdivides⟩ := h
  obtain ⟨s, hs, hs', hD, hfirst⟩ :=
    Reaches.exists_first (fun _ => step_of_not_dividesAfterKeyword) ht hdivides
  exact ⟨s, ⟨hs, hD, hfirst⟩, hs'⟩

/-- If no division stands after a keyword, tracking keywords does not change the
result. Otherwise both scans come to the first such division, at an offset `k`,
with the same output. There the one copies the slash, and the other takes what
is left of the source for a regular expression that opens at `k`: it copies all
of it, or the end of the source leaves it open. -/
theorem keyword_tracking_changes_keyword_contexts (x : Bytes) :
    ((∀ s, Scans {} x s → ¬ s.DividesAfterKeyword) →
      minify trackingKeywords x = minify {} x) ∧
      ((∃ s, Scans {} x s ∧ s.DividesAfterKeyword) →
        ∃ s k rest, FirstDivision x s ∧ Scans trackingKeywords x s ∧
          s.reader = ⟨k, none, slash :: rest⟩ ∧ x.drop k = slash :: rest ∧
          step {} s =
            some (.ok ⟨⟨k + 1, none, rest⟩, (s.output ++ [slash]).reverse⟩) ∧
          ((∃ body rest', rest = body ++ slash :: rest' ∧
            LiteralBody slash body ∧
              step trackingKeywords s =
                some (.ok ⟨⟨k + body.length + 2, none, rest'⟩,
                  (s.output ++ slash :: body ++ [slash]).reverse⟩)) ∨
            (OpenBody slash rest ∧
              minify trackingKeywords x = .error (.openLiteral k slash)))) := by
  refine ⟨minify_of_forall_not_dividesAfterKeyword, fun h => ?_⟩
  obtain ⟨s, hfirst, htracking⟩ := exists_firstDivision h
  obtain ⟨hasks, hdivides, hkeyword⟩ := hfirst.divides
  obtain ⟨k, rest, hs, hdrop, hcomment⟩ := hfirst.scans.exists_of_asks hasks
  have hreader : s.reader = ⟨k, none, slash :: rest⟩ := congrArg State.reader hs
  have hcopied : step {}
      s = some (.ok ⟨⟨k + 1, none, rest⟩, (s.output ++ [slash]).reverse⟩) := by
    rw [← s.reverse_output] at hdivides
    have hstep :=
      step_of_single_fits ⟨rfl, hcomment,
        not_opensLiteral_slash hdivides rest⟩ k
    rw [← hs] at hstep
    simpa using hstep
  have hopens : OpensLiteral trackingKeywords s.output slash rest :=
    .inr ⟨rfl, hcomment, .inr (.inr ⟨rfl, hkeyword⟩)⟩
  refine ⟨s, k, rest, hfirst, htracking, hreader, hdrop, hcopied, ?_⟩
  rcases exists_literal slash rest with hopen | ⟨body, rest', rfl, hbody⟩
  · have hstep := step_of_openBody hopens hopen k
    rw [← hs] at hstep
    refine .inr ⟨hopen, ?_⟩
    rw [minify_eq, htracking.run_eq, run_eq, hstep]
    rfl
  · have hstep := step_of_literal_fits ⟨hopens, hbody⟩ k
    rw [← hs] at hstep
    refine .inl ⟨body, rest', rfl, hbody, ?_⟩
    simpa [Segment.source, Nat.add_assoc] using hstep

/-- A division after a name, which is read alike, and a slash after `in`, which
is not. -/
theorem keyword_tracking_changes_keyword_contexts_in :
    minify trackingKeywords (Bytes.ofAscii "a/") =
        minify {} (Bytes.ofAscii "a/") ∧
      (∃ s, FirstDivision (Bytes.ofAscii "in/a  b/") s ∧
        Scans trackingKeywords (Bytes.ofAscii "in/a  b/") s) ∧
      minify {} (Bytes.ofAscii "in/a  b/") = .ok (Bytes.ofAscii "in/a b/") ∧
      minify trackingKeywords (Bytes.ofAscii "in/a  b/") =
        .ok (Bytes.ofAscii "in/a  b/") := by
  have hname : ∀ s, Scans {} (Bytes.ofAscii "a/") s →
      ¬ s.DividesAfterKeyword := by
    intro s hs hdivides
    have hcopy : step {} (.start (Bytes.ofAscii "a/")) =
        some (.ok ⟨⟨1, none, [slash]⟩, [0x61]⟩) := rfl
    have hslash : step {} ⟨⟨1, none, [slash]⟩, [0x61]⟩ =
        some (.ok ⟨⟨2, none, []⟩, [slash, 0x61]⟩) := rfl
    rcases hs.eq_or_of_step hcopy with rfl | hs
    · exact absurd hdivides.keyword (by decide)
    · rcases hs.eq_or_of_step hslash with rfl | hs
      · exact absurd hdivides.keyword (by decide)
      · rcases hs.cases_head with rfl | ⟨t, ht, -⟩
        · exact absurd hdivides.keyword (by decide)
        · cases ht
  have hkeyword : ∃ s, Scans {} (Bytes.ofAscii "in/a  b/") s ∧
      s.DividesAfterKeyword := by
    have hfirst : step {} (.start (Bytes.ofAscii "in/a  b/")) =
        some (.ok ⟨⟨1, none, Bytes.ofAscii "n/a  b/"⟩, [0x69]⟩) := rfl
    have hsecond : step {} ⟨⟨1, none, Bytes.ofAscii "n/a  b/"⟩, [0x69]⟩ =
        some (.ok ⟨⟨2, none, Bytes.ofAscii "/a  b/"⟩, [0x6e, 0x69]⟩) := rfl
    exact ⟨_, .tail (.single hfirst) hsecond, ⟨rfl, rfl⟩, rfl, by decide⟩
  have hcut : segments {} [] (Bytes.ofAscii "in/a  b/") =
      [.single 0x69, .single 0x6e, .single slash, .single 0x61,
        .run [.blank space, .blank space], .single 0x62,
        .single slash] := by decide +kernel
  have htracked : segments trackingKeywords [] (Bytes.ofAscii "in/a  b/") =
      [.single 0x69, .single 0x6e, .literal slash (Bytes.ofAscii "a  b")] := by
        decide +kernel
  obtain ⟨s, -, -, hdivision, hscans, -⟩ :=
    (keyword_tracking_changes_keyword_contexts (Bytes.ofAscii "in/a  b/")).2
      hkeyword
  refine ⟨(keyword_tracking_changes_keyword_contexts _).1 hname,
    ⟨s, hdivision, hscans⟩, ?_, ?_⟩
  · rw [minify_eq_ok_iff, hcut]
    decide
  · rw [minify_eq_ok_iff, htracked]
    decide

end Terse.Script
