import Terse.Proofs.Segmentation

/-!
# Where the bytes of the output come from

Every byte of the output was written for a reason: it stands for a gap, belongs
to a literal, or was copied as it stood. `marked o x` is the output of `x` with
the reason beside each byte.

A copied slash is a division. If the byte written after it is a slash or a star,
the two read as the start of a comment, although no comment stood there in the
source (`MeetsOpener`). A gap after a slash is never kept, so this happens
wherever a division is separated from another slash, or from a star, by nothing
but blanks and comments; `meetsOpener_marked_iff` says that it happens nowhere
else.
-/

namespace Terse.Script

/-- Why a byte was written. -/
inductive Origin where
  | gap
  | literal
  | copied
  deriving DecidableEq, Repr

def Segment.origin : Segment → Origin
  | .run _ => .gap
  | .literal .. => .literal
  | .openLiteral .. => .literal
  | .single _ => .copied

/-- What the segments add to the output `out`, each byte with its origin. -/
def Segments.marked : Bytes → List Segment → List (Origin × UInt8)
  | _, [] => []
  | out, g :: ss =>
    (g.written out (source ss)).map (Prod.mk g.origin) ++
      marked (out ++ g.written out (source ss)) ss

/-- The output of a source, each byte with its origin. -/
def marked (o : Options) (x : Bytes) : List (Origin × UInt8) :=
  Segments.marked [] (segments o [] x)

/-- A copied slash is followed by a byte that makes it the start of a
comment. -/
def MeetsOpener (es : List (Origin × UInt8)) : Prop :=
  ∃ m c, [(.copied, slash), (m, c)] <:+: es ∧ (c = slash ∨ c = star)

theorem Gap.byte_ne_slash (g : Gap) : g.byte ≠ slash := by
  cases g <;> decide

theorem Gap.kept_slash (g : Gap) (n : Option UInt8) :
    g.kept (some slash) n = false := by
  cases n with
  | none => rfl
  | some b => cases g <;> rfl

namespace Segments

theorem marked_cons (out : Bytes) (g : Segment) (ss : List Segment) :
    marked out (g :: ss) =
      (g.written out (source ss)).map (Prod.mk g.origin) ++
        marked (out ++ g.written out (source ss)) ss := rfl

theorem map_snd_marked (out : Bytes) (ss : List Segment) :
    (marked out ss).map Prod.snd = written out ss := by
  induction ss generalizing out with
  | nil => rfl
  | cons g ss ih =>
    rw [marked_cons, List.map_append, ih, written_cons, List.map_map]
    exact congrArg (· ++ _) (List.map_id _)

theorem eq_copied_of_mem_marked {m : Origin} {out : Bytes} {ss : List Segment}
    (h : (m, slash) ∈ marked out ss) (hm : m ≠ .literal) : m = .copied := by
  induction ss generalizing out with
  | nil => simp [marked] at h
  | cons g ss ih =>
    rw [marked_cons, List.mem_append] at h
    rcases h with h | h
    · obtain ⟨b, hb, he⟩ := List.mem_map.mp h
      obtain ⟨rfl, rfl⟩ := Prod.mk.inj he
      cases g with
      | run fs =>
        -- the gap is written as a space or a line feed
        simp only [Segment.written] at hb
        split at hb
        · exact absurd (List.mem_singleton.mp hb).symm (Gap.byte_ne_slash _)
        · exact absurd hb List.not_mem_nil
      | literal d body => exact absurd rfl hm
      | openLiteral d body => exact absurd rfl hm
      | single b => rfl
    · exact ih h

end Segments

/-! ### A slash that meets the start of a comment -/

theorem meetsOpener_cons (e : Origin × UInt8) (es : List (Origin × UInt8)) :
    MeetsOpener (e :: es) ↔
      (e = (.copied, slash) ∧ ∃ c, (es.map Prod.snd).head? = some c ∧
        (c = slash ∨ c = star)) ∨
        MeetsOpener es := by
  constructor
  · rintro ⟨m, c, hi, hc⟩
    rcases List.infix_cons_iff.mp hi with hp | hi
    · obtain ⟨he, t, rfl⟩ := List.cons_prefix_cons.mp hp
      exact .inl ⟨he.symm, c, rfl, hc⟩
    · exact .inr ⟨m, c, hi, hc⟩
  · rintro (⟨rfl, c, hhead, hc⟩ | ⟨m, c, hi, hc⟩)
    · rcases es with _ | ⟨⟨m, c'⟩, es⟩
      · simp at hhead
      · obtain rfl : c' = c := by simpa using hhead
        exact ⟨m, c', ⟨[], es, rfl⟩, hc⟩
    · exact ⟨m, c, List.infix_cons_iff.mpr (.inr hi), hc⟩

instance decidableMeetsOpener : DecidablePred MeetsOpener
  | [] => isFalse (by simp [MeetsOpener])
  | e :: es =>
    have := decidableMeetsOpener es
    have : Decidable (∃ c, (es.map Prod.snd).head? = some c ∧
        (c = slash ∨ c = star)) :=
      match (es.map Prod.snd).head? with
      | none => isFalse (by simp)
      | some c => decidable_of_iff (c = slash ∨ c = star) (by simp)
    decidable_of_iff _ (meetsOpener_cons e es).symm

theorem meetsOpener_append {u : List (Origin × UInt8)}
    (h : ∀ e ∈ u, e.1 ≠ .copied) (es : List (Origin × UInt8)) :
    MeetsOpener (u ++ es) ↔ MeetsOpener es := by
  induction u with
  | nil => rfl
  | cons e u ih =>
    obtain ⟨he, hu⟩ := List.forall_mem_cons.mp h
    rw [← ih hu, List.cons_append, meetsOpener_cons]
    constructor
    · rintro (⟨rfl, -⟩ | hm)
      · exact absurd rfl he
      · exact hm
    · exact .inr

/-- Only the copied slashes count, each with the byte that is written next. -/
theorem meetsOpener_marked_cons (out : Bytes) (g : Segment)
    (ss : List Segment) :
    MeetsOpener (Segments.marked out (g :: ss)) ↔
      (g = .single slash ∧ ∃ c,
        (Segments.written (out ++ [slash]) ss).head? = some c ∧
        (c = slash ∨ c = star)) ∨
      MeetsOpener
        (Segments.marked (out ++ g.written out (Segments.source ss)) ss) := by
  rw [Segments.marked_cons]
  cases g with
  | single b =>
    rw [Segment.written, Segment.origin, List.map_singleton,
      List.singleton_append, meetsOpener_cons,
      Segments.map_snd_marked, Segment.single.injEq]
    constructor
    · rintro (⟨he, h⟩ | h)
      · obtain rfl := (Prod.mk.inj he).2
        exact .inl ⟨rfl, h⟩
      · exact .inr h
    · rintro (⟨rfl, h⟩ | h)
      · exact .inl ⟨rfl, h⟩
      · exact .inr h
  | run fs =>
    rw [meetsOpener_append (by simp [Segment.origin])]
    simp
  | literal d body =>
    rw [meetsOpener_append (by simp [Segment.origin])]
    simp
  | openLiteral d body =>
    rw [meetsOpener_append (by simp [Segment.origin])]
    simp

/-! ### Where that happens in the source -/

theorem not_regexPosition_append_slash (o : Options) (out : Bytes) :
    ¬ RegexPosition o (out ++ [slash]) := by
  have hkeywords : ∀ k ∈ operandKeywords, k ≠ [] ∧ k.getLast? ≠ some slash := by
    decide
  rintro (h | ⟨b, hb, he⟩ | ⟨-, k, hk, before, h, -⟩)
  · simp at h
  · obtain rfl : slash = b := by simpa using hb
    exact absurd he (by decide)
  · obtain ⟨hne, hlast⟩ := hkeywords k hk
    have hend := congrArg List.getLast? h
    rw [List.getLast?_append, List.getLast?_append,
      List.getLast?_eq_some_getLast hne] at hend
    apply hlast
    rw [List.getLast?_eq_some_getLast hne]
    exact hend.symm

theorem not_opensLiteral_append_slash {c : UInt8} (hc : c = slash ∨ c = star)
    (o : Options) (out rest : Bytes) :
    ¬ OpensLiteral o (out ++ [slash]) c rest := by
  rintro (hq | ⟨-, -, hp⟩)
  · rcases hc with rfl | rfl <;> exact absurd hq (by decide)
  · exact not_regexPosition_append_slash o out hp

theorem not_fits_run_of_stops {o : Options} {out rest : Bytes}
    {fs : List Filler} (hstop : Stops (Run.source fs ++ rest)) :
    ¬ (Segment.run fs).Fits o out rest := by
  rintro ⟨hne, hfs, -⟩
  obtain ⟨f, fs, rfl⟩ := List.exists_cons_of_ne_nil hne
  have hfirst : Filler.first? (Run.source (f :: fs) ++ rest) = some f := by
    rw [Run.source_cons, List.append_assoc]
    exact Filler.first?_source_append hfs.1
  rw [Filler.first?_eq_none hstop] at hfirst
  simp at hfirst

theorem Segment.Fits.isRun_eq_false {o : Options} {out rest : Bytes}
    {g : Segment} (h : g.Fits o out rest) (hstop : Stops (g.source ++ rest)) :
    g.isRun = false := by
  rw [Bool.eq_false_iff]
  intro hrun
  obtain ⟨fs, rfl⟩ := Segment.exists_eq_run hrun
  exact not_fits_run_of_stops hstop h

theorem Segments.head?_written_cons {o : Options} {out : Bytes} {g : Segment}
    {ss : List Segment} (hg : g.Fits o out (Segments.source ss))
    (hrun : g.isRun = false) :
    (Segments.written out (g :: ss)).head? = g.source.head? := by
  obtain ⟨b, t, hb⟩ := List.exists_cons_of_ne_nil (Segment.source_ne_nil hg)
  rw [Segments.written_cons, Segment.written_eq_source hrun, hb]
  rfl

theorem Segments.head?_written_of_stops {o : Options} {out : Bytes}
    {ss : List Segment} (h : IsCut o out ss)
    (hstop : Stops (Segments.source ss)) :
    (Segments.written out ss).head? = (Segments.source ss).head? := by
  cases ss with
  | nil => rfl
  | cons g ss =>
    have hrun := h.1.isRun_eq_false hstop
    obtain ⟨b, t, hb⟩ := List.exists_cons_of_ne_nil (Segment.source_ne_nil h.1)
    rw [Segments.head?_written_cons h.1 hrun, Segments.source_cons, hb]
    rfl

/-- After a copied slash, a slash or a star is written next exactly if it is
copied too and only a run stands between the two. -/
theorem head?_written_of_slash {o : Options} {out : Bytes} {ss : List Segment}
    (h : IsCut o out (.single slash :: ss)) {c : UInt8}
    (hc : c = slash ∨ c = star) :
    (Segments.written (out ++ [slash]) ss).head? = some c ↔
      ∃ fs post, ss = .run fs :: .single c :: post := by
  obtain ⟨⟨-, hcomment, -⟩, hss⟩ := h
  replace hss : IsCut o (out ++ [slash]) ss := hss
  have hdropped : ∀ fs rest, (Segment.run fs).written (out ++ [slash]) rest =
      [] := by
    intro fs rest
    simp [Segment.written, Gap.kept_slash]
  constructor
  · intro hhead
    cases ss with
    | nil => simp at hhead
    | cons g ss =>
      obtain ⟨hg, hss⟩ := hss
      cases hrun : g.isRun with
      | false =>
        -- directly behind the slash the byte would have made it a comment
        rw [Segments.head?_written_cons hg hrun] at hhead
        obtain ⟨t, ht⟩ := List.head?_eq_some_iff.mp hhead
        rw [Segments.source_cons, ht] at hcomment
        rcases hc with rfl | rfl <;> simp [startsComment] at hcomment
      | true =>
        obtain ⟨fs, rfl⟩ := Segment.exists_eq_run hrun
        rw [Segments.written_cons, hdropped, List.append_nil,
          List.nil_append] at hhead
        rw [hdropped, List.append_nil] at hss
        cases ss with
        | nil => simp at hhead
        | cons g post =>
          obtain ⟨hg', -⟩ := hss
          have hrun' := hg'.isRun_eq_false hg.2.2
          rw [Segments.head?_written_cons hg' hrun'] at hhead
          cases g with
          | run fs' => simp [Segment.isRun] at hrun'
          | literal d body =>
            obtain rfl : d = c := by simpa [Segment.source] using hhead
            exact absurd hg'.1 (not_opensLiteral_append_slash hc o out _)
          | openLiteral d body =>
            obtain rfl : d = c := by simpa [Segment.source] using hhead
            exact absurd hg'.1 (not_opensLiteral_append_slash hc o out _)
          | single b =>
            obtain rfl : b = c := by simpa [Segment.source] using hhead
            exact ⟨fs, post, rfl⟩
  · rintro ⟨fs, post, rfl⟩
    rw [Segments.written_cons, hdropped, List.append_nil]
    rfl

/-- A copied slash meets the start of a comment exactly where a run stands
between it and a copied slash or star. -/
theorem meetsOpener_marked_iff {o : Options} {out : Bytes} {ss : List Segment}
    (h : IsCut o out ss) :
    MeetsOpener (Segments.marked out ss) ↔
      ∃ fs c, [.single slash, .run fs, .single c] <:+: ss ∧
        (c = slash ∨ c = star) := by
  induction ss generalizing out with
  | nil => simp [MeetsOpener, Segments.marked]
  | cons g ss ih =>
    rw [meetsOpener_marked_cons, ih h.2]
    constructor
    · rintro (⟨rfl, c, hhead, hc⟩ | ⟨fs, c, hi, hc⟩)
      · obtain ⟨fs, post, rfl⟩ := (head?_written_of_slash h hc).mp hhead
        exact ⟨fs, c, ⟨[], post, rfl⟩, hc⟩
      · exact ⟨fs, c, List.infix_cons_iff.mpr (.inr hi), hc⟩
    · rintro ⟨fs, c, hi, hc⟩
      rcases List.infix_cons_iff.mp hi with hp | hi
      · obtain ⟨hg, post, hpost⟩ := List.cons_prefix_cons.mp hp
        subst hg hpost
        exact .inl ⟨rfl, c,
          (head?_written_of_slash h hc).mpr ⟨fs, post, rfl⟩, hc⟩
      · exact .inr ⟨fs, c, hi, hc⟩

/-! ### Bytes outside literals -/

/-- Two bytes that were written next to each other, neither of them in a
literal, read as the start of a comment. -/
def FormsOpener (es : List (Origin × UInt8)) : Prop :=
  ∃ m₁ m₂ c, m₁ ≠ .literal ∧ m₂ ≠ .literal ∧ [(m₁, slash), (m₂, c)] <:+: es ∧
    (c = slash ∨ c = star)

theorem FormsOpener.meetsOpener {out : Bytes} {ss : List Segment}
    (h : FormsOpener (Segments.marked out ss)) :
    MeetsOpener (Segments.marked out ss) := by
  obtain ⟨m₁, m₂, c, hm₁, -, hi, hc⟩ := h
  have hmem : (m₁, slash) ∈ Segments.marked out ss :=
    hi.subset (List.mem_cons_self)
  obtain rfl := Segments.eq_copied_of_mem_marked hmem hm₁
  exact ⟨m₂, c, hi, hc⟩

/-- What is copied on both sides of a run that is dropped ends up side by
side. -/
theorem infix_marked_of_infix {o : Options} {out : Bytes} {ss : List Segment}
    (h : IsCut o out ss) {fs : List Filler} {c : UInt8}
    (hi : [.single slash, .run fs, .single c] <:+: ss) :
    [(.copied, slash), (.copied, c)] <:+: Segments.marked out ss := by
  induction ss generalizing out with
  | nil => simp at hi
  | cons g ss ih =>
    rcases List.infix_cons_iff.mp hi with hp | hi
    · obtain ⟨hg, post, hpost⟩ := List.cons_prefix_cons.mp hp
      subst hg hpost
      refine ⟨[], Segments.marked (out ++ [slash] ++ [c]) post, ?_⟩
      simp [Segments.marked_cons, Segment.written, Segment.origin,
        Gap.kept_slash]
    · exact List.infix_append_of_infix_right (ih h.2 hi)

theorem formsOpener_marked_iff (o : Options) (x : Bytes) :
    FormsOpener (marked o x) ↔
      ∃ fs c, [.single slash, .run fs, .single c] <:+: segments o [] x ∧
        (c = slash ∨ c = star) := by
  have hcut := isCut_segments o [] x
  constructor
  · intro h
    exact (meetsOpener_marked_iff hcut).mp h.meetsOpener
  · rintro ⟨fs, c, hi, hc⟩
    exact ⟨.copied, .copied, c, by decide, by decide,
      infix_marked_of_infix hcut hi, hc⟩

theorem map_snd_marked_of_minify_eq_ok {o : Options} {x y : Bytes}
    (h : minify o x = .ok y) :
    (marked o x).map Prod.snd = y := by
  rw [((minify_eq_ok_iff o x y).mp h).2]
  exact Segments.map_snd_marked [] _

/-- The output of a source has the start of a comment outside its literals
exactly if in the source a division is separated from a slash or a star by a
run, which is then dropped. -/
theorem formsOpener_iff_of_minify_eq_ok {o : Options} {x y : Bytes}
    (h : minify o x = .ok y) :
    (marked o x).map Prod.snd = y ∧
      (FormsOpener (marked o x) ↔
        ∃ fs c, [.single slash, .run fs, .single c] <:+: segments o [] x ∧
          (c = slash ∨ c = star)) :=
  ⟨map_snd_marked_of_minify_eq_ok h, formsOpener_marked_iff o x⟩

theorem segments_division_by_regex :
    segments {} [] (Bytes.ofAscii "a / /b/") =
      [.single 0x61, .run [.blank 0x20], .single slash, .run [.blank 0x20],
        .single slash, .single 0x62,
        .single slash] := by
  decide +kernel

theorem minify_division_by_regex :
    minify {} (Bytes.ofAscii "a / /b/") = .ok (Bytes.ofAscii "a//b/") := by
  rw [minify_eq_ok_iff, segments_division_by_regex]
  decide

theorem infix_segments_division_by_regex :
    [.single slash, .run [.blank 0x20], .single slash] <:+: segments {} []
      (Bytes.ofAscii "a / /b/") := by
  rw [segments_division_by_regex]
  exact ⟨[.single 0x61, .run [.blank 0x20]], [.single 0x62, .single slash], rfl⟩

/-- A division by a regular expression becomes a line comment. -/
theorem formsOpener_division_by_regex :
    minify {} (Bytes.ofAscii "a / /b/") = .ok (Bytes.ofAscii "a//b/") ∧
      FormsOpener (marked {} (Bytes.ofAscii "a / /b/")) :=
  ⟨minify_division_by_regex,
    (formsOpener_iff_of_minify_eq_ok minify_division_by_regex).2.mpr
    ⟨_, slash, infix_segments_division_by_regex, .inl rfl⟩⟩

/-- So outputs are not free of comments that the source did not have. -/
theorem not_forall_not_formsOpener :
    ¬ ∀ (o : Options) (x y : Bytes), minify o x = .ok y →
      ¬ FormsOpener (marked o x) := by
  intro h
  apply h {} (Bytes.ofAscii "a / /b/") _ minify_division_by_regex
  exact (formsOpener_marked_iff {} _).mpr ⟨_, slash,
    infix_segments_division_by_regex, .inl rfl⟩

end Terse.Script
