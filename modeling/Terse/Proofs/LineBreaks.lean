import Terse.Proofs.Layout

/-!
# Carriage returns as line breaks

In a run a carriage return breaks the line as a line feed does, so it should not
matter which of the two stands where. It does not in blanks and in block
comments: a source and the source with line feeds in place of its carriage
returns are cut into runs with the same gaps at the same offsets (`Run.Recast`),
and the layout theory does the rest. Literals are copied, so they must be free
of carriage returns.

A line comment is another matter. It goes on through a carriage return to the
next line feed, and what stands between the two is lost with it. Nothing is lost
if that is blanks and comments anyway (`Filler.HidesNothing`), as it is when
every carriage return in the comment stands right before the line feed. That is
the condition under which `minify_map_toLineFeed` holds; without it there is
`not_forall_minify_map_toLineFeed`.
-/

namespace Terse.Script

def toLineFeed (b : UInt8) : UInt8 :=
  if b == carriageReturn then lineFeed else b

@[simp] theorem toLineFeed_carriageReturn :
    toLineFeed carriageReturn = lineFeed :=
  rfl

@[simp] theorem toLineFeed_lineFeed : toLineFeed lineFeed = lineFeed := rfl

@[simp] theorem toLineFeed_slash : toLineFeed slash = slash := rfl

@[simp] theorem toLineFeed_star : toLineFeed star = star := rfl

theorem toLineFeed_of_ne {b : UInt8} (h : b ≠ carriageReturn) :
    toLineFeed b = b := by
  rw [toLineFeed, if_neg (by simpa using h)]

theorem toLineFeed_eq_iff {b c : UInt8} (hreturn : c ≠ carriageReturn)
    (hfeed : c ≠ lineFeed) :
    toLineFeed b = c ↔ b = c := by
  by_cases hb : b = carriageReturn
  · subst hb
    exact ⟨fun h => absurd h.symm hfeed, fun h => absurd h.symm hreturn⟩
  · rw [toLineFeed_of_ne hb]

theorem map_toLineFeed_of_notMem {s : Bytes} (h : carriageReturn ∉ s) :
    s.map toLineFeed = s := by
  have hself : ∀ b ∈ s, toLineFeed b = id b := by
    intro b hb
    refine toLineFeed_of_ne ?_
    rintro rfl
    exact h hb
  rw [List.map_congr_left hself, List.map_id]

theorem isBlank_toLineFeed (b : UInt8) :
    isBlank (toLineFeed b) = isBlank b := by
  by_cases hb : b = carriageReturn
  · subst hb
    rfl
  · rw [toLineFeed_of_ne hb]

theorem infix_of_infix_map_toLineFeed {s : Bytes}
    (h : [star, slash] <:+: s.map toLineFeed) : [star, slash] <:+: s := by
  obtain ⟨p, q, hpq⟩ := h
  obtain ⟨u, v, rfl, hu, rfl⟩ := List.map_eq_append_iff.mp hpq.symm
  obtain ⟨p', m, rfl, rfl, hm⟩ := List.map_eq_append_iff.mp hu
  obtain ⟨a, m, rfl, ha, hm⟩ := List.map_eq_cons_iff.mp hm
  obtain ⟨b, m, rfl, hb, hm⟩ := List.map_eq_cons_iff.mp hm
  obtain rfl := List.map_eq_nil_iff.mp hm
  rw [toLineFeed_eq_iff (by decide) (by decide)] at ha hb
  exact ⟨p', v, by rw [ha, hb]⟩

/-! ### Runs -/

namespace Run

theorem source_append (fs gs : List Filler) :
    source (fs ++ gs) = source fs ++ source gs :=
  List.flatMap_append

theorem fits_append_iff {fs gs : List Filler} {rest : Bytes} :
    Fits (fs ++ gs) rest ↔ Fits fs (source gs ++ rest) ∧ Fits gs rest := by
  induction fs with
  | nil => simp
  | cons f fs ih =>
    rw [List.cons_append, Fits, Fits, ih, source_append,
      List.append_assoc, and_assoc]

theorem fault?_append (n : Nat) (fs gs : List Filler) :
    fault? n (fs ++ gs) =
      (fault? n fs <|> fault? (n + (source fs).length) gs) := by
  induction fs generalizing n with
  | nil => simp
  | cons f fs ih =>
    rw [List.cons_append, fault?_cons, fault?_cons, ih, source_cons,
      List.length_append, ← Nat.add_assoc]
    cases f.fault? n <;> rfl

theorem Fits.of_rest {fs : List Filler} {rest rest' : Bytes} (h : Fits fs rest)
    (hrest : rest = [] → rest' = []) :
    Fits fs rest' := by
  induction fs with
  | nil => trivial
  | cons f fs ih =>
    have hnil : source fs ++ rest = [] → source fs ++ rest' = [] := by
      intro hnil
      obtain ⟨hsource, hr⟩ := List.append_eq_nil_iff.mp hnil
      rw [hsource, hrest hr]
      rfl
    refine ⟨?_, ih h.2⟩
    cases f with
    | blank b => exact h.1
    | lineComment body ended => exact ⟨h.1.1, fun he => hnil (h.1.2 he)⟩
    | blockComment body => exact h.1
    | openComment body => exact ⟨h.1.1, hnil h.1.2⟩

/-- The pieces `fs'` are what `fs` reads as with line feeds for carriage
returns. -/
structure Recast (fs fs' : List Filler) : Prop where
  source_eq : source fs' = (source fs).map toLineFeed
  fits : ∀ {rest rest' : Bytes}, Fits fs rest → (rest = [] → rest' = []) →
    Fits fs' rest'
  breaks_eq : fs'.any Filler.breaksLine = fs.any Filler.breaksLine
  fault?_eq : ∀ n, fault? n fs' = fault? n fs

theorem Recast.refl {fs : List Filler} (h : carriageReturn ∉ source fs) :
    Recast fs fs where
  source_eq := (map_toLineFeed_of_notMem h).symm
  fits := Fits.of_rest
  breaks_eq := rfl
  fault?_eq _ := rfl

theorem Recast.append {fs fs' gs gs' : List Filler} (h : Recast fs fs')
    (hg : Recast gs gs') :
    Recast (fs ++ gs) (fs' ++ gs') where
  source_eq := by rw [source_append, source_append, h.source_eq, hg.source_eq,
    List.map_append]
  fits {rest rest'} hfits hrest := by
    obtain ⟨hfs, hgs⟩ := fits_append_iff.mp hfits
    refine fits_append_iff.mpr ⟨h.fits hfs fun hnil => ?_, hg.fits hgs hrest⟩
    obtain ⟨hsource, hnil⟩ := List.append_eq_nil_iff.mp hnil
    rw [hg.source_eq, hsource, hrest hnil]
    rfl
  breaks_eq := by
    rw [List.any_append, List.any_append, h.breaks_eq, hg.breaks_eq]
  fault?_eq n := by rw [fault?_append, fault?_append, h.fault?_eq, hg.fault?_eq,
    h.source_eq, List.length_map]

theorem Recast.ne_nil {fs fs' : List Filler} (h : Recast fs fs')
    (hne : fs ≠ []) : fs' ≠ [] := by
  rintro rfl
  obtain ⟨f, fs, rfl⟩ := List.exists_cons_of_ne_nil hne
  have hsource := List.map_eq_nil_iff.mp h.source_eq.symm
  exact f.source_ne_nil (List.append_eq_nil_iff.mp hsource).1

theorem Recast.gap_eq {fs fs' : List Filler} (h : Recast fs fs') :
    gap fs' = gap fs := by
  rw [gap, gap, h.breaks_eq]

theorem Recast.all_closes_eq {fs fs' : List Filler} (h : Recast fs fs') :
    fs'.all Filler.closes = fs.all Filler.closes := by
  rw [Bool.eq_iff_iff, ← fault?_eq_none_iff 0, ← fault?_eq_none_iff 0,
    h.fault?_eq]

end Run

/-! ### Pieces -/

namespace Filler

/-- What stands behind the first carriage return of a line comment are blanks
and closed comments. -/
def HidesNothing : Filler → Prop
  | .lineComment body ended =>
    ∀ u v, body = u ++ carriageReturn :: v → carriageReturn ∉ u →
      ∃ fs, Run.source fs = v.map toLineFeed ++
        (if ended then [lineFeed] else []) ∧
        (∀ rest, (ended = false → rest = []) → Run.Fits fs rest) ∧
          fs.all closes = true
  | _ => True

theorem hidesNothing_of_last {body : Bytes} (ended : Bool)
    (h : ∀ u v, body = u ++ carriageReturn :: v → v = []) :
    (lineComment body ended).HidesNothing := by
  intro u v hbody _
  obtain rfl := h u v hbody
  cases ended with
  | false => exact ⟨[], rfl, fun _ _ => trivial, rfl⟩
  | true => exact ⟨[.blank lineFeed], rfl, fun _ _ => ⟨rfl, trivial⟩, rfl⟩

theorem exists_recast {f : Filler} (h : f.HidesNothing) :
    ∃ fs, Run.Recast [f] fs := by
  cases f with
  | blank b =>
    refine ⟨[.blank (toLineFeed b)], rfl, fun hfits _ => ?_, ?_, fun n => rfl⟩
    · exact ⟨(isBlank_toLineFeed b).trans hfits.1, trivial⟩
    · by_cases hb : b = carriageReturn
      · subst hb
        rfl
      · rw [toLineFeed_of_ne hb]
  | blockComment body =>
    refine ⟨[.blockComment (body.map toLineFeed)], ?_, fun hfits _ => ?_,
      rfl, fun n => rfl⟩
    · simp [source]
    · exact ⟨fun hclosed => hfits.1 (infix_of_infix_map_toLineFeed hclosed),
        trivial⟩
  | openComment body =>
    refine ⟨[.openComment (body.map toLineFeed)], ?_, fun hfits hrest => ?_,
      rfl, fun n => rfl⟩
    · simp [source]
    · exact ⟨⟨fun hclosed => hfits.1.1 (infix_of_infix_map_toLineFeed hclosed),
        hrest hfits.1.2⟩, trivial⟩
  | lineComment body ended =>
    by_cases hreturn : carriageReturn ∈ body
    · -- the comment is cut off at its first carriage return
      obtain ⟨u, v, hbody, hu⟩ := List.eq_append_cons_of_mem hreturn
      obtain ⟨fs, hsource, hfs, hclose⟩ := h u v hbody hu
      refine ⟨.lineComment u true :: fs, ?_, fun hfits hrest => ?_,
        rfl, fun n => ?_⟩
      · cases ended <;>
          simp [source, hsource, hbody, map_toLineFeed_of_notMem hu]
      · refine ⟨⟨fun hu' => hfits.1.1 (hbody ▸ List.mem_append_left _ hu'),
          fun h => by cases h⟩, ?_⟩
        exact hfs _ fun he => hrest (hfits.1.2 he)
      · rw [Run.fault?_cons, Run.fault?_cons,
          (Run.fault?_eq_none_iff _ fs).mpr hclose]
        rfl
    · have hslash : carriageReturn ≠ slash := by decide
      have hfeed : carriageReturn ≠ lineFeed := by decide
      refine ⟨[.lineComment body ended], .refl ?_⟩
      cases ended <;> simp [source, hreturn, hslash, hfeed]

end Filler

theorem Run.exists_recast {fs : List Filler} (h : ∀ f ∈ fs, f.HidesNothing) :
    ∃ fs', Run.Recast fs fs' := by
  induction fs with
  | nil => exact ⟨[], .refl (by simp)⟩
  | cons f fs ih =>
    obtain ⟨hf, hfs⟩ := List.forall_mem_cons.mp h
    obtain ⟨gs, hgs⟩ := Filler.exists_recast hf
    obtain ⟨fs', hfs'⟩ := ih hfs
    exact ⟨gs ++ fs', hgs.append hfs'⟩

/-! ### Segments -/

namespace Segment

/-- There is no carriage return in the segment, if it is a literal. -/
def ReturnFree : Segment → Prop
  | .literal _ body => carriageReturn ∉ body
  | .openLiteral _ body => carriageReturn ∉ body
  | _ => True

/-- Line comments hide nothing behind a carriage return. -/
def HidesNothing : Segment → Prop
  | .run fs => ∀ f ∈ fs, f.HidesNothing
  | _ => True

theorem map_toLineFeed_source {o : Options} {out rest : Bytes} {g : Segment}
    (hfits : g.Fits o out rest) (hrun : g.isRun = false) (h : g.ReturnFree) :
    g.source.map toLineFeed = g.source := by
  have hopens : ∀ {d : UInt8} {s : Bytes}, OpensLiteral o out d s →
      d ≠ carriageReturn := by
    rintro d s hd rfl
    exact absurd hd.not_blank.1 (by decide)
  refine map_toLineFeed_of_notMem ?_
  cases g with
  | run fs => cases hrun
  | literal d body =>
    have hd := (hopens hfits.1).symm
    simp [source, hd, show carriageReturn ∉ body from h]
  | openLiteral d body =>
    have hd := (hopens hfits.1).symm
    simp [source, hd, show carriageReturn ∉ body from h]
  | single b =>
    have hb : carriageReturn ≠ b := by
      rintro rfl
      exact absurd hfits.1 (by decide)
    simpa [source] using hb

end Segment

/-- Line feeds in place of the carriage returns leave the gaps and the places of
all faults as they are. -/
theorem exists_relaid_map_toLineFeed {o : Options} {out : Bytes}
    {ss : List Segment} (h : IsCut o out ss) (hliteral : ∀ g ∈ ss, g.ReturnFree)
    (hcomment : ∀ g ∈ ss, g.HidesNothing) :
    ∃ ss', Segments.source ss' = (Segments.source ss).map toLineFeed ∧
      Relaid ss ss' ∧
      ∀ n, Segments.fault? n ss' = Segments.fault? n ss := by
  induction ss generalizing out with
  | nil => exact ⟨[], rfl, .nil, fun n => rfl⟩
  | cons g ss ih =>
    obtain ⟨hg, hss⟩ := h
    obtain ⟨hfree, hliteral⟩ := List.forall_mem_cons.mp hliteral
    obtain ⟨hhides, hcomment⟩ := List.forall_mem_cons.mp hcomment
    obtain ⟨ss', hsource, hrelaid, hfault⟩ := ih hss hliteral hcomment
    cases hrun : g.isRun with
    | true =>
      obtain ⟨fs, rfl⟩ := Segment.exists_eq_run hrun
      obtain ⟨fs', hrecast⟩ := Run.exists_recast hhides
      have hfits : Run.Fits fs' (Segments.source ss') := by
        refine hrecast.fits hg.2.1 fun hnil => ?_
        rw [hsource, hnil]
        rfl
      refine ⟨.run fs' :: ss', ?_,
        .run (hrecast.ne_nil hg.1) hfits hrecast.gap_eq
        hrecast.all_closes_eq hrelaid,
        fun n => ?_⟩
      · rw [Segments.source_cons, Segments.source_cons, hsource,
          List.map_append, Segment.source, Segment.source,
          hrecast.source_eq]
      · rw [Segments.fault?_cons, Segments.fault?_cons, hfault, Segment.fault?,
          Segment.fault?, hrecast.fault?_eq,
          Segment.source, Segment.source, hrecast.source_eq, List.length_map]
    | false =>
      have hsame := Segment.map_toLineFeed_source hg hrun hfree
      refine ⟨g :: ss', ?_, .same hrun ?_ hrelaid, fun n => ?_⟩
      · rw [Segments.source_cons, Segments.source_cons, hsource,
          List.map_append, hsame]
      · -- a line feed does not open a comment behind a slash
        rintro rfl
        refine startsComment_slash_cons_eq_false fun c hc hor => ?_
        rw [hsource, List.head?_map, Option.map_eq_some_iff] at hc
        obtain ⟨b, hb, hbc⟩ := hc
        have hbc : b = c := by
          rcases hor with
            rfl | rfl <;>
            exact (toLineFeed_eq_iff (by decide) (by decide)).mp hbc
        obtain ⟨t, ht⟩ := List.head?_eq_some_iff.mp hb
        have hstart := hg.2.1
        rw [ht, hbc] at hstart
        rcases hor with rfl | rfl <;> cases hstart
      · rw [Segments.fault?_cons, Segments.fault?_cons, hfault]

theorem minify_map_toLineFeed_of_hidesNothing {o : Options} {x : Bytes}
    (hliteral : ∀ g ∈ segments o [] x, g.ReturnFree)
    (hcomment : ∀ g ∈ segments o [] x, g.HidesNothing) :
    minify o (x.map toLineFeed) = minify o x := by
  obtain ⟨ss', hsource, hrelaid, hfault⟩ :=
    exists_relaid_map_toLineFeed (isCut_segments o [] x) hliteral hcomment
  obtain ⟨hcut, hwritten⟩ := hrelaid.isCut (isCut_segments o [] x)
  rw [source_segments] at hsource
  rw [minify_of_isCutOf ⟨hsource, hcut⟩,
    minify_of_isCutOf (isCutOf_segments o x), hfault, hwritten]

/-! ### Pairs of a carriage return and a line feed -/

/-- Every carriage return stands right before a line feed. -/
def Paired (x : Bytes) : Prop :=
  ∀ p q, x = p ++ carriageReturn :: q → q.head? = some lineFeed

theorem Paired.of_append {s t : Bytes} (h : Paired (s ++ t)) : Paired t :=
  fun p q hpq =>
  h (s ++ p) q (by rw [hpq, List.append_assoc])

/-- In a piece of a paired source a line comment ends where its carriage return
does. -/
theorem Filler.hidesNothing_of_paired {f : Filler} {rest : Bytes}
    (hfits : f.Fits rest) (h : Paired (f.source ++ rest)) : f.HidesNothing := by
  cases f with
  | blank b => trivial
  | blockComment body => trivial
  | openComment body => trivial
  | lineComment body ended =>
    refine hidesNothing_of_last ended fun u v hbody => ?_
    cases v with
    | nil => rfl
    | cons b v =>
      have hhead := h (slash :: slash :: u)
        (b :: v ++ ((if ended then [lineFeed] else []) ++ rest))
        (by simp [source, hbody])
      obtain rfl : b = lineFeed := Option.some.inj hhead
      exact absurd (hbody ▸ by simp) hfits.1

theorem Run.hidesNothing_of_paired {fs : List Filler} {rest : Bytes}
    (hfits : Run.Fits fs rest) (h : Paired (Run.source fs ++ rest)) :
    ∀ f ∈ fs, f.HidesNothing := by
  induction fs with
  | nil => simp
  | cons f fs ih =>
    rw [Run.source_cons, List.append_assoc] at h
    exact List.forall_mem_cons.mpr ⟨Filler.hidesNothing_of_paired hfits.1 h,
      ih hfits.2 h.of_append⟩

theorem hidesNothing_of_paired {o : Options} {out : Bytes} {ss : List Segment}
    (hss : IsCut o out ss) (h : Paired (Segments.source ss)) :
    ∀ g ∈ ss, g.HidesNothing := by
  induction ss generalizing out with
  | nil => simp
  | cons g ss ih =>
    refine List.forall_mem_cons.mpr ⟨?_, ih hss.2 h.of_append⟩
    cases g with
    | run fs => exact Run.hidesNothing_of_paired hss.1.2.1 h
    | literal d body => trivial
    | openLiteral d body => trivial
    | single b => trivial

/-! ### The statement -/

/-- In a source with no carriage return in a literal, line feeds in place of the
carriage returns give the same result, be it an output or a fault, if line
comments hide nothing behind a carriage return. This is so if every carriage
return stands right before a line feed. -/
theorem minify_map_toLineFeed (o : Options) {x : Bytes}
    (hliteral : ∀ g ∈ segments o [] x, g.ReturnFree) :
    ((∀ g ∈ segments o [] x, g.HidesNothing) →
      minify o (x.map toLineFeed) = minify o x) ∧
      (Paired x → minify o (x.map toLineFeed) = minify o x) := by
  refine ⟨minify_map_toLineFeed_of_hidesNothing hliteral, fun h => ?_⟩
  refine minify_map_toLineFeed_of_hidesNothing hliteral
    (hidesNothing_of_paired (isCut_segments o [] x) ?_)
  rwa [source_segments]

/-- A line comment that ends in a carriage return and a line feed, and a
carriage return that breaks a line. -/
theorem minify_map_toLineFeed_lines :
    minify {} (Bytes.ofAscii "a // b\r\nc\rd") = .ok (Bytes.ofAscii "a\nc\nd") ∧
      minify {} ((Bytes.ofAscii "a // b\r\nc\rd").map toLineFeed) =
        .ok (Bytes.ofAscii "a\nc\nd") := by
  have hcut : segments {} [] (Bytes.ofAscii "a // b\r\nc\rd") =
      [.single 0x61, .run [.blank 0x20, .lineComment [0x20, 0x62, 0x0d] true],
        .single 0x63,
        .run [.blank 0x0d], .single 0x64] := by decide +kernel
  have hminify : minify {} (Bytes.ofAscii "a // b\r\nc\rd") =
      .ok (Bytes.ofAscii "a\nc\nd") := by
    rw [minify_eq_ok_iff, hcut]
    decide
  have hcomment :
      (Filler.lineComment [0x20, 0x62, 0x0d] true).HidesNothing := by
    refine Filler.hidesNothing_of_last true fun u v huv => ?_
    rcases u with _ | ⟨a, _ | ⟨b, u⟩⟩
    · cases huv
    · cases huv
    · obtain ⟨-, huv⟩ := List.cons.inj huv
      obtain ⟨-, huv⟩ := List.cons.inj huv
      cases u <;> simp_all
  have hliteral : ∀ g ∈ segments {} [] (Bytes.ofAscii "a // b\r\nc\rd"),
      g.ReturnFree := by
    rw [hcut]
    simp [Segment.ReturnFree]
  refine ⟨hminify, ?_⟩
  rw [(minify_map_toLineFeed {} hliteral).1, hminify]
  rw [hcut]
  simp only [List.forall_mem_cons, Segment.HidesNothing]
  exact ⟨trivial, ⟨trivial, hcomment, by simp⟩, trivial, ⟨trivial, by simp⟩,
    trivial, by simp⟩

/-- A line comment swallows what stands behind a carriage return, although that
breaks the line elsewhere. -/
theorem not_forall_minify_map_toLineFeed :
    ¬ ∀ (o : Options) (x : Bytes), (∀ g ∈ segments o [] x, g.ReturnFree) →
      minify o (x.map toLineFeed) = minify o x := by
  intro hall
  have hcut : segments {} [] (Bytes.ofAscii "a // b\rc") =
      [.single 0x61,
        .run [.blank 0x20,
          .lineComment [0x20, 0x62, 0x0d, 0x63] false]] := by decide +kernel
  have hliteral : ∀ g ∈ segments {} [] (Bytes.ofAscii "a // b\rc"),
      g.ReturnFree := by
    rw [hcut]
    simp [Segment.ReturnFree]
  have hsame := hall {} (Bytes.ofAscii "a // b\rc") hliteral
  revert hsame
  decide +kernel

end Terse.Script
