import Terse.Proofs.Provenance

/-!
# What a dropped run joins

A run stands at a junction: something was written before it, and something is
read after it. If the run is dropped, the two meet in the output. Two equal
signs then read as one operator (`a + +b` becomes `a++b`), and a word after a
regular expression reads as its flags (`/r/ in o` becomes `/r/in o`).

The gap rule asks about words and statements only. So equal signs are kept apart
by a line break and by nothing else (`Junction.JoinsSigns.dropped_iff`), and
nothing keeps a word off a regular expression (`HasJunction.dropped_of_regex`).
These are the cases in which a dropped run fuses its neighbours.
-/

namespace Terse.Script

/-- A run between its neighbours. -/
structure Junction where
  /-- The segment before the run, if there is one. -/
  left? : Option Segment
  /-- What has been written before the run. -/
  out : Bytes
  fillers : List Filler
  /-- The source behind the run. -/
  rest : Bytes
  deriving DecidableEq, Repr

namespace Junction

/-- Nothing is written for the run. -/
def Dropped (j : Junction) : Prop :=
  (Segment.run j.fillers).written j.out j.rest = []

/-- The same sign was written last and is read next. -/
def JoinsSigns (j : Junction) : Prop :=
  ∃ b, isSign b = true ∧ j.out.getLast? = some b ∧ j.rest.head? = some b

/-- A regular expression stands before the run, and a word begins behind it. -/
def GluesWord (j : Junction) : Prop :=
  (∃ body, j.left? = some (.literal slash body)) ∧ ∃ n, j.rest.head? = some n ∧
    isWord n = true

theorem dropped_iff (j : Junction) :
    j.Dropped ↔ (Run.gap j.fillers).kept j.out.getLast? j.rest.head? =
      false := by
  rw [Dropped, Segment.written]
  cases (Run.gap j.fillers).kept j.out.getLast? j.rest.head? <;> simp

theorem JoinsSigns.dropped_iff {j : Junction} (h : j.JoinsSigns) :
    j.Dropped ↔ Run.gap j.fillers = .space := by
  obtain ⟨b, hb, hlast, hnext⟩ := h
  have hword : isWord b = false := by
    simp only [isSign, Bool.or_eq_true, beq_iff_eq] at hb
    rcases hb with rfl | rfl <;> rfl
  rw [Junction.dropped_iff, hlast, hnext, Gap.kept_some]
  cases Run.gap j.fillers with
  | space => simp [Gap.separates, hword]
  | line => simp [Gap.separates, endsStatement, beginsStatement, hb]

end Junction

/-- The junctions of segments that stand after the segment `left?` and the
output `out`. -/
inductive Segments.HasJunction :
    Option Segment → Bytes → List Segment → Junction → Prop
  | here {left? : Option Segment} {out : Bytes} {fs : List Filler}
    {ss : List Segment} :
      HasJunction left? out (.run fs :: ss) ⟨left?, out, fs, source ss⟩
  | later {left? : Option Segment} {out : Bytes} {g : Segment}
    {ss : List Segment} {j : Junction} :
      HasJunction (some g) (out ++ g.written out (source ss)) ss j →
        HasJunction left? out (g :: ss) j

/-- The junctions of a source. -/
def HasJunction (o : Options) (x : Bytes) (j : Junction) : Prop :=
  Segments.HasJunction none [] (segments o [] x) j

namespace Segments.HasJunction

variable {o : Options} {left? : Option Segment} {out : Bytes}
  {ss : List Segment} {j : Junction}

/-- What was written last is the last byte of the segment before the run, unless
that is a run itself. -/
theorem getLast?_out (h : HasJunction left? out ss j) (hcut : IsCut o out ss)
    (hleft : ∀ g, left? = some g → g.isRun = false →
      out.getLast? = g.source.getLast?) :
    ∀ g, j.left? = some g → g.isRun = false →
      j.out.getLast? = g.source.getLast? := by
  induction h with
  | here => exact hleft
  | @later _ out g ss j _ ih =>
    obtain ⟨hg, hss⟩ := hcut
    refine ih hss ?_
    intro g' hg' hrun
    obtain rfl := Option.some.inj hg'
    -- a segment that is no run is copied, and is never empty
    rw [Segment.written_eq_source hrun, List.getLast?_append,
      List.getLast?_eq_some_getLast (Segment.source_ne_nil hg)]
    rfl

theorem exists_written_eq (h : HasJunction left? out ss j)
    (hcut : IsCut o out ss) :
    ∃ tail, out ++ written out ss = j.out ++ tail ∧
      (j.Dropped → tail.head? = j.rest.head?) := by
  induction h with
  | @here _ out fs ss =>
    obtain ⟨⟨-, -, hstop⟩, hss⟩ := hcut
    refine ⟨_, rfl, fun hdropped => ?_⟩
    replace hdropped : (Segment.run fs).written out (source ss) = [] := hdropped
    rw [hdropped, List.append_nil] at hss
    rw [written_cons, hdropped, List.nil_append, List.append_nil]
    exact head?_written_of_stops hss hstop
  | later _ ih =>
    rw [written_cons, ← List.append_assoc]
    exact ih hcut.2

end Segments.HasJunction

/-- After a regular expression every run is dropped: its slash ends no word and
no statement. -/
theorem HasJunction.dropped_of_regex {o : Options} {x : Bytes} {j : Junction}
    (h : HasJunction o x j) {body : Bytes}
    (hleft : j.left? = some (.literal slash body)) : j.Dropped := by
  have hlast := Segments.HasJunction.getLast?_out h (isCut_segments o [] x)
    (by simp) _ hleft rfl
  rw [Segment.source, List.getLast?_concat] at hlast
  rw [Junction.dropped_iff, hlast, Gap.kept_slash]

/-- A dropped run fuses its neighbours exactly if it holds no line break between
equal signs, or if it stands between a regular expression and a word. What it is
dropped between then stands side by side in the output. -/
theorem dropped_and_fuses_iff {o : Options} {x y : Bytes} {j : Junction}
    (h : minify o x = .ok y) (hj : HasJunction o x j) :
    (j.Dropped ∧ (j.JoinsSigns ∨ j.GluesWord) ↔
      (j.JoinsSigns ∧ Run.gap j.fillers = .space) ∨ j.GluesWord) ∧
      (j.Dropped → ∃ tail, y = j.out ++ tail ∧ tail.head? = j.rest.head?) := by
  constructor
  · constructor
    · rintro ⟨hdropped, hsigns | hword⟩
      · exact .inl ⟨hsigns, hsigns.dropped_iff.mp hdropped⟩
      · exact .inr hword
    · rintro (⟨hsigns, hspace⟩ | hword)
      · exact ⟨hsigns.dropped_iff.mpr hspace, .inl hsigns⟩
      · obtain ⟨body, hleft⟩ := hword.1
        exact ⟨hj.dropped_of_regex hleft, .inr hword⟩
  · intro hdropped
    obtain ⟨tail, htail, hhead⟩ :=
      Segments.HasJunction.exists_written_eq hj (isCut_segments o [] x)
    refine ⟨tail, ?_, hhead hdropped⟩
    rw [((minify_eq_ok_iff o x y).mp h).2]
    exact htail

/-! ### A sum of a signed operand -/

theorem segments_sum_of_signed :
    segments {} [] (Bytes.ofAscii "a + +b") =
      [.single 0x61, .run [.blank 0x20], .single 0x2b, .run [.blank 0x20],
        .single 0x2b, .single 0x62] := by
  decide +kernel

theorem minify_sum_of_signed :
    minify {} (Bytes.ofAscii "a + +b") = .ok (Bytes.ofAscii "a++b") := by
  rw [minify_eq_ok_iff, segments_sum_of_signed]
  decide

def junctionOfSigns : Junction :=
  ⟨some (.single 0x2b), [0x61, 0x2b], [.blank 0x20], [0x2b, 0x62]⟩

theorem hasJunction_sum_of_signed :
    HasJunction {} (Bytes.ofAscii "a + +b") junctionOfSigns := by
  rw [HasJunction, segments_sum_of_signed]
  exact .later (.later (.later .here))

theorem joinsSigns_junctionOfSigns : junctionOfSigns.JoinsSigns :=
  ⟨0x2b, rfl, rfl, rfl⟩

/-! ### A word after a regular expression -/

theorem segments_word_after_regex :
    segments {} [] (Bytes.ofAscii "x = /r/ in o") =
      [.single 0x78, .run [.blank 0x20], .single 0x3d, .run [.blank 0x20],
        .literal slash [0x72],
        .run [.blank 0x20], .single 0x69, .single 0x6e, .run [.blank 0x20],
          .single 0x6f] := by
  decide +kernel

theorem minify_word_after_regex :
    minify {} (Bytes.ofAscii "x = /r/ in o") =
      .ok (Bytes.ofAscii "x=/r/in o") := by
  rw [minify_eq_ok_iff, segments_word_after_regex]
  decide

/-- The space behind the regular expression of `x = /r/ in o`. -/
def junctionAfterRegex : Junction :=
  ⟨some (.literal slash [0x72]), Bytes.ofAscii "x=/r/", [.blank 0x20],
    Bytes.ofAscii "in o"⟩

theorem hasJunction_word_after_regex :
    HasJunction {} (Bytes.ofAscii "x = /r/ in o") junctionAfterRegex := by
  rw [HasJunction, segments_word_after_regex]
  exact .later (.later (.later (.later (.later .here))))

theorem gluesWord_junctionAfterRegex : junctionAfterRegex.GluesWord :=
  ⟨⟨_, rfl⟩, 0x69, rfl, rfl⟩

/-- Both happen: a sum of a signed operand becomes an increment, and a word
becomes flags. -/
theorem dropped_and_fuses_sum_and_regex :
    (minify {} (Bytes.ofAscii "a + +b") = .ok (Bytes.ofAscii "a++b") ∧
      junctionOfSigns.Dropped ∧
        (junctionOfSigns.JoinsSigns ∨ junctionOfSigns.GluesWord)) ∧
    minify {} (Bytes.ofAscii "x = /r/ in o") = .ok (Bytes.ofAscii "x=/r/in o") ∧
      junctionAfterRegex.Dropped ∧
        (junctionAfterRegex.JoinsSigns ∨ junctionAfterRegex.GluesWord) := by
  refine ⟨⟨minify_sum_of_signed, ?_⟩, minify_word_after_regex, ?_⟩
  · exact (dropped_and_fuses_iff minify_sum_of_signed
      hasJunction_sum_of_signed).1.mpr
      (.inl ⟨joinsSigns_junctionOfSigns, rfl⟩)
  · exact (dropped_and_fuses_iff minify_word_after_regex
      hasJunction_word_after_regex).1.mpr
      (.inr gluesWord_junctionAfterRegex)

/-- So dropped runs are neither free of joined signs nor of glued words. -/
theorem not_forall_dropped_not_fuses :
    (¬ ∀ (o : Options) (x y : Bytes), minify o x = .ok y →
        ∀ j, HasJunction o x j → j.Dropped → ¬ j.JoinsSigns) ∧
      ¬ ∀ (o : Options) (x y : Bytes), minify o x = .ok y →
        ∀ j, HasJunction o x j → j.Dropped → ¬ j.GluesWord := by
  constructor
  · intro h
    exact h {} _ _ minify_sum_of_signed _ hasJunction_sum_of_signed
      (joinsSigns_junctionOfSigns.dropped_iff.mpr rfl)
        joinsSigns_junctionOfSigns
  · intro h
    exact h {} _ _ minify_word_after_regex _ hasJunction_word_after_regex
      (hasJunction_word_after_regex.dropped_of_regex rfl)
        gluesWord_junctionAfterRegex

end Terse.Script
