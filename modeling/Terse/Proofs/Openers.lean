import Terse.Proofs.Segmentation

/-!
# Where a fault points

A source that is rejected has one segment that never closes, and it is the last.
The source is parted in front of what opens it: what comes before is cut as it
was cut within the whole source (`IsCut.of_append`), because a shorter rest can
neither start a comment nor let a run go on, and because no gap is kept in front
of an opener. So that part is accepted on its own, and the output it gives is
the one the opener was judged by.

`exists_closed_prefix` finds the place; `opener_of_minify_eq_error` reads off
what stands there.
-/

namespace Terse.Script

/-! ### Cutting the rest off -/

theorem startsComment_of_append {u v : Bytes}
    (h : startsComment (u ++ v) = false) : startsComment u = false := by
  rcases u with _ | ⟨a, _ | ⟨b, u⟩⟩
  · rfl
  · rfl
  · exact h

theorem Stops.of_append {u v : Bytes} (h : Stops (u ++ v)) : Stops u := by
  refine ⟨fun b hb => h.1 b ?_, startsComment_of_append h.2⟩
  rw [List.head?_append, hb]
  rfl

theorem Filler.Fits.of_append {f : Filler} {rest tail : Bytes}
    (h : f.Fits (rest ++ tail)) : f.Fits rest := by
  cases f with
  | blank b => exact h
  | lineComment body ended =>
    exact ⟨h.1, fun he => (List.append_eq_nil_iff.mp (h.2 he)).1⟩
  | blockComment body => exact h
  | openComment body => exact ⟨h.1, (List.append_eq_nil_iff.mp h.2).1⟩

theorem Run.Fits.of_append {fs : List Filler} {rest tail : Bytes}
    (h : Run.Fits fs (rest ++ tail)) :
    Run.Fits fs rest := by
  induction fs with
  | nil => trivial
  | cons f fs ih =>
    obtain ⟨hf, hfs⟩ := h
    rw [← List.append_assoc] at hf
    exact ⟨hf.of_append, ih hfs⟩

theorem OpensLiteral.of_append {o : Options} {out rest tail : Bytes} {d : UInt8}
    (h : OpensLiteral o out d (rest ++ tail)) : OpensLiteral o out d rest := by
  rcases h with hq | ⟨hd, hcomment, hp⟩
  · exact .inl hq
  · rw [← List.cons_append] at hcomment
    exact .inr ⟨hd, startsComment_of_append hcomment, hp⟩

theorem Segment.Fits.of_append {o : Options} {out rest tail : Bytes}
    {g : Segment} (h : g.Fits o out (rest ++ tail)) : g.Fits o out rest := by
  cases g with
  | run fs => exact ⟨h.1, h.2.1.of_append, h.2.2.of_append⟩
  | literal d body =>
    obtain ⟨hd, hbody⟩ := h
    have hsplit : body ++ d :: (rest ++ tail) = (body ++ d :: rest) ++
        tail := by simp
    rw [hsplit] at hd
    exact ⟨hd.of_append, hbody⟩
  | openLiteral d body =>
    obtain ⟨hd, hbody, hrest⟩ := h
    exact ⟨hd, hbody, (List.append_eq_nil_iff.mp hrest).1⟩
  | single b =>
    obtain ⟨hblank, hcomment, hnot⟩ := h
    rw [← List.cons_append] at hcomment
    refine ⟨hblank, startsComment_of_append hcomment, ?_⟩
    rintro (hq | ⟨hb, -, hp⟩)
    · exact hnot (.inl hq)
    · exact hnot (.inr ⟨hb, hcomment, hp⟩)

/-- What a segment writes does not depend on a tail that begins no statement. -/
theorem Segment.written_append {tail : Bytes}
    (htail : ∀ b, tail.head? = some b → beginsStatement b = false) (g : Segment)
    (out rest : Bytes) : g.written out (rest ++ tail) = g.written out rest := by
  cases g with
  | run fs =>
    cases rest with
    | nil =>
      cases tail with
      | nil => rfl
      | cons b tail =>
        have hkept := Gap.kept_eq_false (htail b rfl) (Run.gap fs) out.getLast?
        simp [Segment.written, hkept]
    | cons c rest => rfl
  | literal d body => rfl
  | openLiteral d body => rfl
  | single b => rfl

/-! ### What stands at the opener -/

/-- What is left open by `tail`, after the output `out`. -/
def Fault.Opens (o : Options) (out tail : Bytes) : Fault → Prop
  | .openComment _ =>
    ∃ body, tail = slash :: star :: body ∧ ¬ [star, slash] <:+: body
  | .openLiteral _ d =>
    ∃ body, tail = d :: body ∧ OpensLiteral o out d body ∧ OpenBody d body

theorem OpensLiteral.eq_or {o : Options} {out rest : Bytes} {d : UInt8}
    (h : OpensLiteral o out d rest) :
    d = singleQuote ∨ d = doubleQuote ∨ d = backtick ∨ d = slash := by
  rcases h with hq | ⟨rfl, -, -⟩
  · simp only [isQuote, Bool.or_eq_true, beq_iff_eq] at hq
    rcases hq with (rfl | rfl) | rfl
    · exact .inl rfl
    · exact .inr (.inl rfl)
    · exact .inr (.inr (.inl rfl))
  · exact .inr (.inr (.inr rfl))

theorem Fault.Opens.beginsStatement_head {o : Options} {out tail : Bytes}
    {e : Fault} (h : e.Opens o out tail) :
    ∀ b, tail.head? = some b → beginsStatement b = false := by
  intro b hb
  cases e with
  | openComment n =>
    obtain ⟨body, rfl, -⟩ := h
    obtain rfl : slash = b := Option.some.inj hb
    rfl
  | openLiteral n d =>
    obtain ⟨body, rfl, hd, -⟩ := h
    obtain rfl : d = b := Option.some.inj hb
    rcases hd.eq_or with rfl | rfl | rfl | rfl <;> rfl

theorem Fault.Opens.ne_nil {o : Options} {out tail : Bytes} {e : Fault}
    (h : e.Opens o out tail) :
    tail ≠ [] := by
  cases e with
  | openComment n =>
    obtain ⟨body, rfl, -⟩ := h
    simp
  | openLiteral n d =>
    obtain ⟨body, rfl, -, -⟩ := h
    simp

/-- The pieces before a comment that is never closed are a run of their own. -/
theorem Run.exists_closed_prefix {fs : List Filler} {rest : Bytes}
    (h : Run.Fits fs rest) {n : Nat} {e : Fault}
    (he : Run.fault? n fs = some e) :
    ∃ pre body, Run.source fs ++ rest = Run.source pre ++ slash ::
      star :: body ∧
      Run.Fits pre [] ∧ pre.all Filler.closes = true ∧
        ¬ [star, slash] <:+: body ∧
      e = .openComment (n + (Run.source pre).length) := by
  induction fs generalizing n with
  | nil => cases he
  | cons f fs ih =>
    obtain ⟨hf, hfs⟩ := h
    cases hclose : f.closes with
    | false =>
      cases f with
      | openComment body =>
        obtain ⟨hbody, hnil⟩ := hf
        refine ⟨[], body, ?_, trivial, rfl, hbody, ?_⟩
        · rw [Run.source_cons, List.append_assoc, hnil]
          simp [Filler.source]
        · simpa [Run.fault?_cons, Filler.fault?] using he.symm
      | blank b => cases hclose
      | lineComment body ended => cases hclose
      | blockComment body => cases hclose
    | true =>
      have hnone : f.fault? n = none := by
        cases f with
        | openComment body => cases hclose
        | blank b => rfl
        | lineComment body ended => rfl
        | blockComment body => rfl
      replace he : Run.fault? (n + f.source.length) fs = some e := by
        simpa [Run.fault?_cons, hnone] using he
      obtain ⟨pre, body, hsource, hpre, hall, hbody, rfl⟩ := ih hfs he
      refine ⟨f :: pre, body, ?_, ⟨?_, hpre⟩, ?_, hbody, ?_⟩
      · rw [Run.source_cons, List.append_assoc, hsource, Run.source_cons,
          List.append_assoc]
      · rw [hsource] at hf
        rw [List.append_nil]
        exact hf.of_append
      · rw [List.all_cons, hclose, hall]
        rfl
      · rw [Run.source_cons, List.length_append, Nat.add_assoc]

theorem stops_nil : Stops [] := ⟨by simp, rfl⟩

/-- The closed segments in front of a fault are a cut of what comes before the
place it names. -/
theorem exists_closed_prefix {o : Options} {out : Bytes} {ss : List Segment}
    (h : IsCut o out ss) {n : Nat} {e : Fault}
    (he : Segments.fault? n ss = some e) :
    ∃ pre tail, Segments.source ss = Segments.source pre ++ tail ∧
      IsCut o out pre ∧
      (∀ g ∈ pre, g.closes = true) ∧
        e.offset = n + (Segments.source pre).length ∧
      e.Opens o (out ++ Segments.written out pre) tail := by
  induction ss generalizing out n with
  | nil => cases he
  | cons g ss ih =>
    obtain ⟨hg, hss⟩ := h
    rw [Segments.fault?_cons] at he
    cases hfault : g.fault? n with
    | some e' =>
      -- the fault is in this segment, which leaves nothing behind it
      obtain rfl : e' = e := by simpa [hfault] using he
      cases g with
      | run fs =>
        obtain ⟨pre, body, hsource, hpre, hall, hbody, rfl⟩ :=
          Run.exists_closed_prefix hg.2.1 hfault
        have hopens : Fault.Opens o out (slash :: star :: body)
            (.openComment (n + (Run.source pre).length)) := ⟨body, rfl, hbody⟩
        by_cases hne : pre = []
        · subst hne
          refine ⟨[], slash :: star :: body, hsource, trivial, by simp, rfl, ?_⟩
          simpa using hopens
        · have hfits : (Segment.run pre).Fits o out [] := ⟨hne, hpre, stops_nil⟩
          refine ⟨[.run pre], slash :: star :: body, ?_,
            ⟨hfits, trivial⟩, ?_, ?_, ?_⟩
          · simpa [Segment.source] using hsource
          · simpa [Segment.closes] using hall
          · simp [Segment.source, Fault.offset]
          · simpa [Segments.written_cons, Segment.written] using hopens
      | literal d body => cases hfault
      | openLiteral d body =>
        obtain ⟨hd, hbody, hnil⟩ := hg
        obtain rfl : Fault.openLiteral n d = e' := Option.some.inj hfault
        refine ⟨[], d :: body, ?_, trivial, by simp, rfl, body, rfl, ?_, hbody⟩
        · simp [Segment.source, hnil]
        · simpa using hd
      | single b => cases hfault
    | none =>
      replace he : Segments.fault? (n + g.source.length) ss = some e := by
        simpa [hfault] using he
      obtain ⟨pre, tail, hsource, hpre, hall, hoffset, hopens⟩ := ih hss he
      have hwritten : g.written out (Segments.source ss) =
          g.written out (Segments.source pre) := by
        rw [hsource]
        exact Segment.written_append hopens.beginsStatement_head g out _
      rw [hsource] at hg
      rw [hwritten] at hpre hopens
      refine ⟨g :: pre, tail, ?_, ⟨hg.of_append, hpre⟩, ?_, ?_, ?_⟩
      · rw [Segments.source_cons, hsource, Segments.source_cons,
          List.append_assoc]
      · exact List.forall_mem_cons.mpr
          ⟨(Segment.fault?_eq_none_iff n g).mp hfault, hall⟩
      · rw [hoffset, Segments.source_cons, List.length_append, Nat.add_assoc]
      · rw [Segments.written_cons, ← List.append_assoc]
        exact hopens

/-! ### Pairs of a backslash and a byte -/

/-- The bytes of a text that are not in a pair of a backslash and the byte after
it, paired from the left. -/
def unpaired : Bytes → Bytes
  | [] => []
  | [b] => [b]
  | a :: b :: s => if a == backslash then unpaired s else a :: unpaired (b :: s)

theorem unpaired_escape (b : UInt8) (s : Bytes) :
    unpaired (backslash :: b :: s) = unpaired s :=
  rfl

theorem unpaired_plain {b : UInt8} (hb : b ≠ backslash) (s : Bytes) :
    unpaired (b :: s) = b :: unpaired s := by
  cases s with
  | nil => rfl
  | cons c s => simp [unpaired, hb]

theorem LiteralBody.unpaired_append {d : UInt8} {body : Bytes}
    (h : LiteralBody d body) (s : Bytes) :
    ∃ us, unpaired (body ++ s) = us ++ unpaired s ∧ d ∉ us := by
  induction h with
  | nil => exact ⟨[], rfl, List.not_mem_nil⟩
  | @plain b body hd hb _ ih =>
    obtain ⟨us, hus, hmem⟩ := ih
    refine ⟨b :: us, ?_, List.not_mem_cons_of_ne_of_not_mem hd.symm hmem⟩
    rw [List.cons_append, unpaired_plain hb, hus]
    rfl
  | escape b _ ih =>
    rw [List.cons_append, List.cons_append, unpaired_escape]
    exact ih

theorem OpenBody.notMem_unpaired {d : UInt8} (hd : d ≠ backslash) {body : Bytes}
    (h : OpenBody d body) :
    d ∉ unpaired body := by
  rcases h with h | ⟨u, h, rfl⟩
  · obtain ⟨us, hus, hmem⟩ := h.unpaired_append []
    rw [List.append_nil] at hus
    rw [hus]
    simpa [unpaired] using hmem
  · obtain ⟨us, hus, hmem⟩ := h.unpaired_append [backslash]
    rw [hus]
    simpa [unpaired, hd] using hmem

/-! ### Rejected sources -/

/-- A fault names a place in the source. What comes before it is accepted with
some output. At the place there is a `/*` with no `*/` after it; or a delimiter,
which does not stand again outside pairs with a backslash, and which if it is a
slash stands where a regular expression opens after that output. -/
theorem opener_of_minify_eq_error {o : Options} {x : Bytes} {e : Fault} :
    minify o x = .error e →
      e.offset < x.length ∧ ∃ out, minify o (x.take e.offset) = .ok out ∧
        match e with
        | .openComment k =>
          (x.drop k).take 2 = [slash, star] ∧
          ¬ [star, slash] <:+: x.drop (k + 2)
        | .openLiteral k d =>
          d ∈ [singleQuote, doubleQuote, backtick, slash] ∧ x[k]? = some d ∧
            d ∉ unpaired (x.drop (k + 1)) ∧
            (d = slash → opensRegex o.regexAfterKeywords out.reverse =
              true) := by
  intro h
  rw [minify_eq_error_iff] at h
  obtain ⟨pre, tail, hsource, hpre, hclose, hoffset, hopens⟩ :=
    exists_closed_prefix (isCut_segments o [] x) h
  rw [source_segments] at hsource
  rw [Nat.zero_add] at hoffset
  have htake : x.take e.offset = Segments.source pre := by
    rw [hsource, hoffset, List.take_left]
  have hdrop : ∀ k, x.drop (e.offset + k) = tail.drop k := by
    intro k
    rw [hsource, hoffset, List.drop_length_add_append]
  refine ⟨?_, Segments.written [] pre, ?_, ?_⟩
  · have hpos := List.length_pos_iff.mpr hopens.ne_nil
    rw [hsource, hoffset, List.length_append]
    omega
  · rw [htake]
    exact minify_eq_ok_of_isCut hpre hclose
  · cases e with
    | openComment k =>
      obtain ⟨body, rfl, hbody⟩ := hopens
      have h0 : x.drop k = slash :: star :: body := hdrop 0
      have h2 : x.drop (k + 2) = body := hdrop 2
      dsimp only
      rw [h0, h2]
      exact ⟨rfl, hbody⟩
    | openLiteral k d =>
      obtain ⟨body, rfl, hd, hbody⟩ := hopens
      have h0 : x.drop k = d :: body := hdrop 0
      have h1 : x.drop (k + 1) = body := hdrop 1
      refine ⟨by simpa using hd.eq_or, ?_, ?_, ?_⟩
      · rw [← List.head?_drop, h0]
        rfl
      · rw [h1]
        exact hbody.notMem_unpaired hd.ne_backslash
      · rintro rfl
        rcases hd with hq | ⟨-, -, hp⟩
        · exact absurd hq (by decide)
        · exact (opensRegex_reverse_iff o _).mpr hp

/-- A regular expression with an escaped slash, opened after a comment and never
closed. -/
theorem opener_of_open_regex :
    minify {} (Bytes.ofAscii "a /* b */ = /c\\/") =
      .error (.openLiteral 12 slash) ∧
      ∃ out, minify {} (Bytes.ofAscii "a /* b */ = ") = .ok out ∧
        opensRegex false out.reverse = true := by
  have hsegments : segments {} [] (Bytes.ofAscii "a /* b */ = /c\\/") =
      [.single 0x61,
        .run [.blank 0x20, .blockComment [0x20, 0x62, 0x20], .blank 0x20],
        .single 0x3d,
        .run [.blank 0x20], .openLiteral slash [0x63, 0x5c,
          slash]] := by decide +kernel
  have herror : minify {} (Bytes.ofAscii "a /* b */ = /c\\/") =
      .error (.openLiteral 12 slash) := by
    rw [minify_eq_error_iff, hsegments]
    decide
  obtain ⟨-, out, hout, -, -, -, hregex⟩ := opener_of_minify_eq_error herror
  exact ⟨herror, out, hout, hregex rfl⟩

end Terse.Script
