import Mathlib.Data.List.Forall2
import Terse.Proofs.Idempotence

/-!
# Layout does not matter

Of a run of blanks and comments only its gap is seen. `Relaid` relates the cut
of a source to segments in which runs have been replaced by others with the same
gap, and says what has to be watched when doing so: a copied slash must not come
to stand in front of a slash or a star. The new segments are then a cut again,
and they write the same (`Relaid.isCut`): the byte behind a run is not touched,
so every gap is kept where it was, and the output that decides about the slashes
is the same at every segment.

There are three ways to get such segments: to reduce every run to the one byte
it stands for (`collapsed`), to take the cut of another source that differs in
its runs only, and to change what the comments say.
-/

namespace Terse.Script

/-! ### Other runs in the same places -/

/-- The second segments are the first with other runs, of the same gap, in the
places of the runs. -/
inductive Relaid : List Segment → List Segment → Prop
  | nil : Relaid [] []
  | same {g : Segment} {ss ss' : List Segment} (hrun : g.isRun = false)
      (hslash : g = .single slash →
        startsComment (slash :: Segments.source ss') = false)
      (h : Relaid ss ss') : Relaid (g :: ss) (g :: ss')
  | run {fs fs' : List Filler} {ss ss' : List Segment} (hne : fs' ≠ [])
      (hfits : Run.Fits fs' (Segments.source ss'))
        (hgap : Run.gap fs' = Run.gap fs)
      (hclose : fs'.all Filler.closes = fs.all Filler.closes)
      (h : Relaid ss ss') : Relaid (.run fs :: ss) (.run fs' :: ss')

theorem Segment.Fits.stops {o : Options} {out rest : Bytes} {g : Segment}
    (h : g.Fits o out rest) (hrun : g.isRun = false) :
    Stops (g.source ++ rest) := by
  have hbyte : ∀ (b : UInt8) (s : Bytes), isBlank b = false →
    startsComment (b :: s) = false →
      Stops (b :: s) := by
    intro b s hblank hcomment
    refine ⟨fun c hc => ?_, hcomment⟩
    obtain rfl : b = c := Option.some.inj hc
    exact hblank
  cases g with
  | run fs => cases hrun
  | literal d body =>
    obtain ⟨hblank, hcomment⟩ := h.1.not_blank
    simpa [source] using hbyte d (body ++ d :: rest) hblank hcomment
  | openLiteral d body =>
    obtain ⟨hd, -, rfl⟩ := h
    obtain ⟨hblank, hcomment⟩ := hd.not_blank
    simpa [source] using hbyte d body hblank hcomment
  | single b => exact hbyte b rest h.1 h.2.1

namespace Relaid

variable {o : Options} {out : Bytes} {ss ss' : List Segment}

theorem eq_nil (h : Relaid [] ss') : ss' = [] := by
  cases h
  rfl

theorem fits {g : Segment} (h : Relaid ss ss')
    (hss : IsCut o (out ++ g.written out (Segments.source ss)) ss)
    (hg : g.Fits o out (Segments.source ss)) (hrun : g.isRun = false)
    (hslash : g = .single slash →
      startsComment (slash :: Segments.source ss') = false) :
    g.Fits o out (Segments.source ss') := by
  cases hclose : g.closes with
  | true => exact fits_again hg hrun hclose hslash
  | false =>
    cases g with
    | run fs => cases hrun
    | literal d body => cases hclose
    | openLiteral d body =>
      -- a literal that is left open is the last segment
      obtain rfl := hss.eq_nil hg.2.2
      rw [h.eq_nil]
      exact hg
    | single b => cases hclose

/-- Where a run has to stop in front of the old segments, it has to stop in
front of the new ones, which start with the same byte. -/
theorem stops (h : Relaid ss ss') (hss : IsCut o out ss)
    (hstops : Stops (Segments.source ss)) :
    (Segments.source ss').head? = (Segments.source ss).head? ∧
      Stops (Segments.source ss') := by
  cases h with
  | nil => exact ⟨rfl, hstops⟩
  | run => exact absurd hss.1 (not_fits_run_of_stops hstops)
  | @same g ss ss' hrun hslash h =>
    obtain ⟨b, t, hb⟩ :=
      List.exists_cons_of_ne_nil (Segment.source_ne_nil hss.1)
    refine ⟨?_, (h.fits hss.2 hss.1 hrun hslash).stops hrun⟩
    rw [Segments.source_cons, Segments.source_cons, hb]
    rfl

theorem isCut (h : Relaid ss ss') (hss : IsCut o out ss) :
    IsCut o out ss' ∧ Segments.written out ss' = Segments.written out ss := by
  induction h generalizing out with
  | nil => exact ⟨trivial, rfl⟩
  | @same g ss ss' hrun hslash h ih =>
    have hwritten : g.written out (Segments.source ss') =
        g.written out (Segments.source ss) := by
      rw [Segment.written_eq_source hrun, Segment.written_eq_source hrun]
    obtain ⟨hcut, hsame⟩ := ih hss.2
    rw [IsCut, Segments.written_cons, Segments.written_cons, hwritten, hsame]
    exact ⟨⟨h.fits hss.2 hss.1 hrun hslash, hcut⟩, rfl⟩
  | @run fs fs' ss ss' hne hfits hgap hclose h ih =>
    obtain ⟨hhead, hstops⟩ := h.stops hss.2 hss.1.2.2
    have hwritten : (Segment.run fs').written out (Segments.source ss') =
        (Segment.run fs).written out (Segments.source ss) := by
      rw [Segment.written, Segment.written, hgap, hhead]
    obtain ⟨hcut, hsame⟩ := ih hss.2
    rw [IsCut, Segments.written_cons, Segments.written_cons, hwritten, hsame]
    exact ⟨⟨⟨hne, hfits, hstops⟩, hcut⟩, rfl⟩

theorem closes_iff (h : Relaid ss ss') :
    (∀ g ∈ ss', g.closes = true) ↔ ∀ g ∈ ss, g.closes = true := by
  induction h with
  | nil => exact Iff.rfl
  | same hrun hslash h ih => rw [List.forall_mem_cons, List.forall_mem_cons, ih]
  | run hne hfits hgap hclose h ih =>
    rw [List.forall_mem_cons, List.forall_mem_cons, ih, Segment.closes,
      Segment.closes, hclose]

end Relaid

/-! ### Faults up to their place -/

/-- The delimiter of the literal that was left open; a comment has none. -/
def Fault.delimiter? : Fault → Option UInt8
  | .openComment _ => none
  | .openLiteral _ d => some d

theorem Run.map_delimiter?_fault? (n : Nat) (fs : List Filler) :
    (Run.fault? n fs).map Fault.delimiter? = if fs.all Filler.closes then
      none else some none := by
  induction fs generalizing n with
  | nil => rfl
  | cons f fs ih =>
    rw [Run.fault?_cons, List.all_cons]
    cases f with
    | openComment body => rfl
    | blank b => exact ih _
    | lineComment body ended => exact ih _
    | blockComment body => exact ih _

theorem Segment.map_delimiter?_fault? (n n' : Nat) (g : Segment) :
    (g.fault? n).map Fault.delimiter? = (g.fault? n').map Fault.delimiter? := by
  cases g with
  | run fs =>
    exact (Run.map_delimiter?_fault? n fs).trans
      (Run.map_delimiter?_fault? n' fs).symm
  | literal d body => rfl
  | openLiteral d body => rfl
  | single b => rfl

theorem Segments.map_delimiter?_fault?_cons (n : Nat) (g : Segment)
    (ss : List Segment) :
    (Segments.fault? n (g :: ss)).map Fault.delimiter? =
      ((g.fault? n).map Fault.delimiter?).or
        ((Segments.fault? (n + g.source.length) ss).map Fault.delimiter?) := by
  rw [Segments.fault?_cons]
  cases g.fault? n <;> rfl

theorem Relaid.map_delimiter?_fault? {ss ss' : List Segment} (h : Relaid ss ss')
    (n n' : Nat) :
    (Segments.fault? n' ss').map Fault.delimiter? =
      (Segments.fault? n ss).map Fault.delimiter? := by
  induction h generalizing n n' with
  | nil => rfl
  | @same g ss ss' hrun hslash h ih =>
    rw [Segments.map_delimiter?_fault?_cons,
      Segments.map_delimiter?_fault?_cons,
      Segment.map_delimiter?_fault? n' n, ih (n + g.source.length)]
  | @run fs fs' ss ss' hne hfits hgap hclose h ih =>
    have hfault : ((Segment.run fs').fault? n').map Fault.delimiter? =
        ((Segment.run fs).fault? n).map Fault.delimiter? := by
      rw [Segment.fault?, Segment.fault?, Run.map_delimiter?_fault?,
        Run.map_delimiter?_fault?, hclose]
    rw [Segments.map_delimiter?_fault?_cons,
      Segments.map_delimiter?_fault?_cons, hfault,
      ih (n + (Segment.run fs).source.length)]

/-! ### What a source gives in another layout -/

section

variable {o : Options} {x : Bytes} {ss' : List Segment}
  (h : Relaid (segments o [] x) ss')

include h

theorem Relaid.minify_eq_ok_iff (y : Bytes) :
    minify o x = .ok y ↔ minify o (Segments.source ss') = .ok y := by
  obtain ⟨hcut, hsame⟩ := h.isCut (isCut_segments o [] x)
  rw [Script.minify_eq_ok_iff, Script.minify_eq_ok_iff, segments_source hcut,
    hsame, h.closes_iff]

theorem Relaid.exists_minify_eq_error {e : Fault} (he : minify o x = .error e) :
    ∃ e', minify o (Segments.source ss') = .error e' ∧
      e'.delimiter? = e.delimiter? := by
  rw [minify_eq_error_iff] at he
  have hfault := h.map_delimiter?_fault? 0 0
  rw [he, Option.map_some, Option.map_eq_some_iff] at hfault
  obtain ⟨e', he', hsame⟩ := hfault
  refine ⟨e', ?_, hsame⟩
  rw [minify_eq_error_iff, segments_source (h.isCut (isCut_segments o [] x)).1]
  exact he'

end

/-! ### Runs reduced to one byte -/

/-- The pieces of a run that are closed, reduced to the byte of the gap they
stand for. A comment that is left open stays as it is. -/
def Run.collapsed (fs : List Filler) : List Filler :=
  (if fs.any Filler.closes then [.blank (Run.gap fs).byte] else []) ++
    fs.filter fun f => !f.closes

def Segment.collapsed : Segment → Segment
  | .run fs => .run (Run.collapsed fs)
  | .literal d body => .literal d body
  | .openLiteral d body => .openLiteral d body
  | .single b => .single b

/-- The source with its runs reduced to one byte each. -/
def collapsed (o : Options) (x : Bytes) : Bytes :=
  Segments.source ((segments o [] x).map Segment.collapsed)

theorem Filler.closes_of_breaksLine {f : Filler} (h : f.breaksLine = true) :
    f.closes = true := by
  cases f with
  | openComment body => cases h
  | blank b => rfl
  | lineComment body ended => rfl
  | blockComment body => rfl

namespace Run

theorem collapsed_of_any_closes {fs : List Filler}
    (h : fs.any Filler.closes = true) :
    collapsed fs = .blank (gap fs).byte :: fs.filter fun f => !f.closes := by
  rw [collapsed, h]
  rfl

theorem collapsed_of_not_any_closes {fs : List Filler}
    (h : fs.any Filler.closes = false) : collapsed fs = fs := by
  rw [collapsed, h, if_neg Bool.false_ne_true, List.nil_append,
    List.filter_eq_self]
  intro f hf
  have hopen : f.closes = false :=
    Bool.eq_false_iff.mpr (List.any_eq_false.mp h f hf)
  rw [hopen]
  rfl

theorem collapsed_ne_nil {fs : List Filler} (h : fs ≠ []) :
    collapsed fs ≠ [] := by
  cases hany : fs.any Filler.closes with
  | true => simp [collapsed_of_any_closes hany]
  | false => rwa [collapsed_of_not_any_closes hany]

theorem gap_collapsed (fs : List Filler) : gap (collapsed fs) = gap fs := by
  cases hany : fs.any Filler.closes with
  | false => rw [collapsed_of_not_any_closes hany]
  | true =>
    have hopen : (fs.filter fun f => !f.closes).any Filler.breaksLine =
        false := by
      rw [List.any_eq_false]
      intro f hf hbreaks
      have hnot := (List.mem_filter.mp hf).2
      rw [Filler.closes_of_breaksLine hbreaks] at hnot
      cases hnot
    have hsame := gap_blank_byte (gap fs)
    rw [gap, List.any_cons, List.any_nil] at hsame
    rw [collapsed_of_any_closes hany, gap, List.any_cons, hopen]
    exact hsame

theorem all_closes_collapsed (fs : List Filler) :
    (collapsed fs).all Filler.closes = fs.all Filler.closes := by
  have hopen : (fs.filter fun f => !f.closes).all Filler.closes =
      fs.all Filler.closes := by
    rw [List.all_filter]
    simp
  rw [collapsed, List.all_append, hopen]
  cases fs.any Filler.closes <;> rfl

theorem Fits.filter_not_closes {fs : List Filler} {rest rest' : Bytes}
    (h : Run.Fits fs rest) (hrest : rest = [] → rest' = []) :
    Run.Fits (fs.filter fun f => !f.closes) rest' := by
  induction fs with
  | nil => trivial
  | cons f fs ih =>
    obtain ⟨hf, hfs⟩ := h
    cases f with
    | blank b => exact ih hfs
    | lineComment body ended => exact ih hfs
    | blockComment body => exact ih hfs
    | openComment body =>
      obtain ⟨hbody, hnil⟩ := hf
      obtain ⟨hsource, hnil⟩ := List.append_eq_nil_iff.mp hnil
      have hlast : fs = [] := by
        cases fs with
        | nil => rfl
        | cons f fs =>
          exact absurd (List.append_eq_nil_iff.mp hsource).1 f.source_ne_nil
      subst hlast
      exact ⟨⟨hbody, hrest hnil⟩, trivial⟩

theorem Fits.collapsed {fs : List Filler} {rest rest' : Bytes}
    (h : Run.Fits fs rest) (hrest : rest = [] → rest' = []) :
    Run.Fits (Run.collapsed fs) rest' := by
  have hopen := h.filter_not_closes hrest
  rw [Run.collapsed]
  cases fs.any Filler.closes with
  | true => exact ⟨Gap.isBlank_byte _, hopen⟩
  | false => exact hopen

end Run

theorem head?_source_collapsed {o : Options} {out : Bytes} {ss : List Segment}
    (h : IsCut o out ss) {c : UInt8}
    (hc : (Segments.source (ss.map Segment.collapsed)).head? = some c) :
    (Segments.source ss).head? = some c ∨ isBlank c = true := by
  cases ss with
  | nil => exact .inl hc
  | cons g ss =>
    have hsame : g.collapsed = g → (Segments.source (g :: ss)).head? =
        some c := by
      intro hg
      obtain ⟨b, t, hb⟩ :=
        List.exists_cons_of_ne_nil (Segment.source_ne_nil h.1)
      rw [List.map_cons, hg, Segments.source_cons, hb] at hc
      rw [Segments.source_cons, hb]
      exact hc
    cases g with
    | literal d body => exact .inl (hsame rfl)
    | openLiteral d body => exact .inl (hsame rfl)
    | single b => exact .inl (hsame rfl)
    | run fs =>
      cases hany : fs.any Filler.closes with
      | false =>
        exact .inl
          (hsame (congrArg Segment.run (Run.collapsed_of_not_any_closes hany)))
      | true =>
        rw [List.map_cons, Segment.collapsed,
          Run.collapsed_of_any_closes hany] at hc
        obtain rfl : (Run.gap fs).byte = c := Option.some.inj hc
        exact .inr (Gap.isBlank_byte _)

theorem relaid_collapsed {o : Options} {out : Bytes} {ss : List Segment}
    (h : IsCut o out ss) :
    Relaid ss (ss.map Segment.collapsed) := by
  induction ss generalizing out with
  | nil => exact .nil
  | cons g ss ih =>
    obtain ⟨hg, hss⟩ := h
    cases hrun : g.isRun with
    | true =>
      obtain ⟨fs, rfl⟩ := Segment.exists_eq_run hrun
      have hrest : Segments.source ss = [] →
          Segments.source (ss.map Segment.collapsed) = [] := by
        intro hnil
        rw [hss.eq_nil hnil]
        rfl
      exact .run (Run.collapsed_ne_nil hg.1) (hg.2.1.collapsed hrest)
        (Run.gap_collapsed fs)
        (Run.all_closes_collapsed fs) (ih hss)
    | false =>
      have hsame : g.collapsed = g := by
        cases g with
        | run fs => cases hrun
        | literal d body => rfl
        | openLiteral d body => rfl
        | single b => rfl
      rw [List.map_cons, hsame]
      refine .same hrun ?_ (ih hss)
      rintro rfl
      refine startsComment_slash_cons_eq_false fun c hc hor => ?_
      rcases head?_source_collapsed hss hc with hhead | hblank
      · obtain ⟨t, ht⟩ := List.head?_eq_some_iff.mp hhead
        have hcomment := hg.2.1
        rw [ht] at hcomment
        rcases hor with rfl | rfl <;> cases hcomment
      · rcases hor with rfl | rfl <;> cases hblank

/-! ### Two sources that differ in their runs -/

/-- The segments are the same, or both are runs that are closed and have the
same gap. -/
inductive Segment.Alike : Segment → Segment → Prop
  | refl (g : Segment) : Alike g g
  | run {fs fs' : List Filler} (hgap : Run.gap fs = Run.gap fs')
    (hclose : fs.all Filler.closes = true)
      (hclose' : fs'.all Filler.closes = true) : Alike (.run fs) (.run fs')

theorem relaid_of_alike {o : Options} {out : Bytes} {ss ss' : List Segment}
    (h : List.Forall₂ Segment.Alike ss ss') (hss' : IsCut o out ss') :
    Relaid ss ss' := by
  induction h generalizing out with
  | nil => exact .nil
  | @cons g g' ss ss' hg h ih =>
    obtain ⟨hg', hss'⟩ := hss'
    cases hg with
    | run hgap hclose hclose' =>
      exact .run hg'.1 hg'.2.1 hgap.symm (hclose'.trans hclose.symm) (ih hss')
    | refl =>
      cases hrun : g.isRun with
      | true =>
        obtain ⟨fs, rfl⟩ := Segment.exists_eq_run hrun
        exact .run hg'.1 hg'.2.1 rfl rfl (ih hss')
      | false =>
        refine .same hrun ?_ (ih hss')
        rintro rfl
        exact hg'.2.1

/-! ### Other words in the comments -/

/-- The pieces are the same up to what a comment says. The new text must not
close the comment. -/
inductive Filler.Reworded : Filler → Filler → Prop
  | blank (b : UInt8) : Reworded (.blank b) (.blank b)
  | lineComment {body body' : Bytes} (ended : Bool) (h : lineFeed ∉ body') :
      Reworded (.lineComment body ended) (.lineComment body' ended)
  | blockComment {body body' : Bytes} (h : ¬ [star, slash] <:+: body') :
      Reworded (.blockComment body) (.blockComment body')
  | openComment {body body' : Bytes} (h : ¬ [star, slash] <:+: body') :
      Reworded (.openComment body) (.openComment body')

/-- The segments are the same up to what comments say. -/
inductive Segment.Reworded : Segment → Segment → Prop
  | same {g : Segment} (hrun : g.isRun = false) : Reworded g g
  | run {fs fs' : List Filler} (h : List.Forall₂ Filler.Reworded fs fs') :
    Reworded (.run fs) (.run fs')

theorem Filler.Reworded.head?_source {f f' : Filler} (h : f.Reworded f')
    (s s' : Bytes) :
    (f'.source ++ s').head? = (f.source ++ s).head? := by
  cases h <;> rfl

theorem Filler.Reworded.fits {f f' : Filler} (h : f.Reworded f')
    {rest rest' : Bytes} (hf : f.Fits rest) (hrest : rest = [] → rest' = []) :
    f'.Fits rest' := by
  cases h with
  | blank b => exact hf
  | lineComment ended hbody => exact ⟨hbody, fun he => hrest (hf.2 he)⟩
  | blockComment hbody => exact hbody
  | openComment hbody => exact ⟨hbody, hrest hf.2⟩

theorem Run.Fits.reworded {fs fs' : List Filler}
    (h : List.Forall₂ Filler.Reworded fs fs') {rest rest' : Bytes}
    (hfs : Run.Fits fs rest) (hrest : rest = [] → rest' = []) :
    Run.Fits fs' rest' ∧ fs'.any Filler.breaksLine = fs.any Filler.breaksLine ∧
      fs'.all Filler.closes = fs.all Filler.closes := by
  induction h with
  | nil => exact ⟨trivial, rfl, rfl⟩
  | @cons f f' fs fs' hf h ih =>
    obtain ⟨hfits, hbreaks, hclose⟩ := ih hfs.2
    have hnil : Run.source fs ++ rest = [] → Run.source fs' ++ rest' = [] := by
      intro hnil
      obtain ⟨hsource, hr⟩ := List.append_eq_nil_iff.mp hnil
      cases h with
      | nil => exact hrest hr
      | cons _ _ =>
        exact absurd (List.append_eq_nil_iff.mp hsource).1
          (Filler.source_ne_nil _)
    refine ⟨⟨hf.fits hfs.1 hnil, hfits⟩, ?_, ?_⟩
    · rw [List.any_cons, List.any_cons, hbreaks]
      cases hf <;> rfl
    · rw [List.all_cons, List.all_cons, hclose]
      cases hf <;> rfl

theorem head?_source_reworded {o : Options} {out : Bytes}
    {ss ss' : List Segment} (h : List.Forall₂ Segment.Reworded ss ss')
    (hss : IsCut o out ss) :
    (Segments.source ss').head? = (Segments.source ss).head? := by
  cases h with
  | nil => rfl
  | cons hg h =>
    rw [Segments.source_cons, Segments.source_cons]
    cases hg with
    | same hrun =>
      obtain ⟨b, t, hb⟩ :=
        List.exists_cons_of_ne_nil (Segment.source_ne_nil hss.1)
      rw [hb]
      rfl
    | run hfs =>
      cases hfs with
      | nil => exact absurd rfl hss.1.1
      | cons hf hfs =>
        rw [Segment.source, Segment.source, Run.source_cons, Run.source_cons,
          List.append_assoc,
          List.append_assoc]
        exact hf.head?_source _ _

theorem relaid_of_reworded {o : Options} {out : Bytes} {ss ss' : List Segment}
    (h : List.Forall₂ Segment.Reworded ss ss') (hss : IsCut o out ss) :
    Relaid ss ss' := by
  induction h generalizing out with
  | nil => exact .nil
  | @cons g g' ss ss' hg h ih =>
    obtain ⟨hfits, hss⟩ := hss
    cases hg with
    | same hrun =>
      refine .same hrun ?_ (ih hss)
      rintro rfl
      have hcomment := hfits.2.1
      refine startsComment_slash_cons_eq_false fun c hc hor => ?_
      rw [head?_source_reworded h hss] at hc
      obtain ⟨t, ht⟩ := List.head?_eq_some_iff.mp hc
      rw [ht] at hcomment
      rcases hor with rfl | rfl <;> cases hcomment
    | run hfs =>
      have hrest : Segments.source ss = [] → Segments.source ss' = [] := by
        intro hnil
        obtain rfl := hss.eq_nil hnil
        cases h
        rfl
      obtain ⟨hfits', hbreaks, hclose⟩ := hfits.2.1.reworded hfs hrest
      refine .run ?_ hfits' ?_ hclose (ih hss)
      · rintro rfl
        cases hfs
        exact hfits.1 rfl
      · rw [Run.gap, Run.gap, hbreaks]

/-! ### The statement -/

/-- A source is accepted exactly if it is with its runs reduced to one byte
each, and gives the same output; if it is rejected, so is the reduced source,
for a fault of the same kind and delimiter. Hence two sources whose cuts differ
in nothing but runs with the same gap give the same output, and so does a source
in which comments say something else. -/
theorem minify_eq_ok_iff_of_layout (o : Options) (x : Bytes) :
    (∀ y, minify o x = .ok y ↔ minify o (collapsed o x) = .ok y) ∧
      (∀ e, minify o x = .error e →
        ∃ e', minify o (collapsed o x) = .error e' ∧
          e'.delimiter? = e.delimiter?) ∧
      (∀ x', List.Forall₂ Segment.Alike (segments o [] x) (segments o [] x') →
        ∀ y, minify o x = .ok y ↔ minify o x' = .ok y) ∧
      ∀ ss', List.Forall₂ Segment.Reworded (segments o [] x) ss' →
        ∀ y, minify o x = .ok y ↔ minify o (Segments.source ss') = .ok y := by
  have hcollapsed := relaid_collapsed (isCut_segments o [] x)
  refine ⟨hcollapsed.minify_eq_ok_iff,
    fun e => hcollapsed.exists_minify_eq_error, ?_, ?_⟩
  · intro x' hx' y
    have hsame :=
      (relaid_of_alike hx' (isCut_segments o [] x')).minify_eq_ok_iff y
    rwa [source_segments] at hsame
  · intro ss' hss' y
    exact (relaid_of_reworded hss' (isCut_segments o [] x)).minify_eq_ok_iff y

/-- A line comment and a carriage return in front of a block comment break the
line alike; and a string that is left open behind a comment is left open without
it. -/
theorem minify_eq_ok_iff_of_layout_sum :
    (minify {} (Bytes.ofAscii "a // b\n + c") = .ok (Bytes.ofAscii "a\n+c") ∧
      minify {} (Bytes.ofAscii "a\r/* d */+ c") = .ok (Bytes.ofAscii "a\n+c")) ∧
    (minify {} (Bytes.ofAscii "a/* b */'c") =
      .error (.openLiteral 8 singleQuote) ∧
      ∃ e, minify {} (collapsed {} (Bytes.ofAscii "a/* b */'c")) = .error e ∧
        e.delimiter? = some singleQuote) := by
  have hline : segments {} [] (Bytes.ofAscii "a // b\n + c") =
      [.single 0x61,
        .run [.blank 0x20, .lineComment [0x20, 0x62] true, .blank 0x20],
        .single 0x2b,
        .run [.blank 0x20], .single 0x63] := by decide +kernel
  have hblock : segments {} [] (Bytes.ofAscii "a\r/* d */+ c") =
      [.single 0x61, .run [.blank 0x0d, .blockComment [0x20, 0x64, 0x20]],
        .single 0x2b,
        .run [.blank 0x20], .single 0x63] := by decide +kernel
  have hopen : segments {} [] (Bytes.ofAscii "a/* b */'c") =
      [.single 0x61, .run [.blockComment [0x20, 0x62, 0x20]],
        .openLiteral singleQuote [0x63]] := by
    decide +kernel
  have hsum : minify {} (Bytes.ofAscii "a // b\n + c") =
      .ok (Bytes.ofAscii "a\n+c") := by
    rw [minify_eq_ok_iff, hline]
    decide
  have herror : minify {} (Bytes.ofAscii "a/* b */'c") =
      .error (.openLiteral 8 singleQuote) := by
    rw [minify_eq_error_iff, hopen]
    decide
  have halike :
    List.Forall₂ Segment.Alike (segments {} [] (Bytes.ofAscii "a // b\n + c"))
      (segments {} [] (Bytes.ofAscii "a\r/* d */+ c")) := by
    rw [hline, hblock]
    exact .cons (.refl _)
      (.cons (.run rfl rfl rfl)
        (.cons (.refl _) (.cons (.refl _) (.cons (.refl _) .nil))))
  refine ⟨⟨hsum, ?_⟩, herror, ?_⟩
  · exact ((minify_eq_ok_iff_of_layout {} _).2.2.1 _ halike _).mp hsum
  · exact (minify_eq_ok_iff_of_layout {} _).2.1 _ herror

end Terse.Script
