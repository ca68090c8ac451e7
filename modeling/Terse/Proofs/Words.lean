import Terse.Proofs.Provenance

/-!
# Words survive

A word is a longest stretch of word bytes that are neither in a literal nor in a
comment. The words of a source and those of its output are the same, in the same
order. Nothing that is copied changes them, and a run separates what stands on
both sides of it: either its gap is kept, or one of its neighbours is no word
byte, since between two word bytes both gaps stay (`Gap.separates_of_isWord`).
`words_append_marked` follows the two sequences from segment to segment, the
bytes `u` before them being the same.
-/

namespace Terse.Script

/-- Whether a marked byte belongs to a word. What is marked as a gap stands for
blanks and comments. -/
def isWordByte (e : Origin × UInt8) : Bool := e.1 == .copied && isWord e.2

def words (es : List (Origin × UInt8)) : List Bytes :=
  ((es.splitOnP fun e => !isWordByte e).filter fun w => !w.isEmpty).map
    (·.map Prod.snd)

/-- The bytes that segments are made of, each with the origin of its segment. -/
def Segments.markedSource (ss : List Segment) : List (Origin × UInt8) :=
  ss.flatMap fun g => g.source.map (Prod.mk g.origin)

/-- The bytes of a source, each with what the scan takes it for. -/
def markedSource (o : Options) (x : Bytes) : List (Origin × UInt8) :=
  Segments.markedSource (segments o [] x)

theorem Segments.markedSource_cons (g : Segment) (ss : List Segment) :
    markedSource (g :: ss) = g.source.map (Prod.mk g.origin) ++
      markedSource ss := rfl

theorem Segments.map_snd_markedSource (ss : List Segment) :
    (markedSource ss).map Prod.snd = source ss := by
  induction ss with
  | nil => rfl
  | cons g ss ih =>
    rw [markedSource_cons, List.map_append, ih, List.map_map]
    exact congrArg (· ++ _) (List.map_id _)

/-! ### Words of a sequence -/

variable {e : Origin × UInt8} {u v : List (Origin × UInt8)}

@[simp] theorem words_nil : words [] = [] := rfl

theorem words_append_cons (h : isWordByte e = false)
    (u v : List (Origin × UInt8)) :
    words (u ++ e :: v) = words u ++ words v := by
  have hseparates : (!isWordByte e) = true := by rw [h]; rfl
  rw [words, List.splitOnP_append_cons u v hseparates, List.filter_append,
    List.map_append]
  rfl

theorem words_cons (h : isWordByte e = false) (v : List (Origin × UInt8)) :
    words (e :: v) = words v :=
  words_append_cons h [] v

theorem words_append_append {s : List (Origin × UInt8)} (hne : s ≠ [])
    (h : ∀ e ∈ s, isWordByte e = false) (u v : List (Origin × UInt8)) :
    words (u ++ (s ++ v)) = words u ++ words v := by
  induction s generalizing u with
  | nil => exact absurd rfl hne
  | cons e s ih =>
    obtain ⟨he, hs⟩ := List.forall_mem_cons.mp h
    rw [List.cons_append, words_append_cons he]
    cases s with
    | nil => rfl
    | cons e' s =>
      rw [← List.nil_append (e' :: s ++ v),
        ih (List.cons_ne_nil e' s) hs []]; rfl

/-- Where two sequences meet, no words are joined unless a word byte stands on
both sides. -/
theorem words_append
    (h : ∀ e e', u.getLast? = some e → v.head? = some e' → isWordByte e = true →
      isWordByte e' = false) :
    words (u ++ v) = words u ++ words v := by
  cases v with
  | nil => rw [words_nil, List.append_nil, List.append_nil]
  | cons e' v =>
    cases he' : isWordByte e' with
    | false => rw [words_append_cons he', words_cons he']
    | true =>
      rcases List.eq_nil_or_concat u with rfl | ⟨u, e, rfl⟩
      · rfl
      · have he : isWordByte e = false := by
          rw [Bool.eq_false_iff]
          intro he
          have := h e e' (by simp) rfl he
          rw [he'] at this
          cases this
        rw [List.concat_eq_append, List.append_assoc, List.singleton_append,
          words_append_cons he,
          words_append_cons he, words_nil, List.append_nil]

/-! ### Words of a source and of its output -/

theorem Gap.separates_of_isWord {p n : UInt8} (hp : isWord p = true)
    (hn : isWord n = true) (g : Gap) :
    g.separates p n = true := by
  cases g with
  | space => simp [separates, hp, hn]
  | line => simp [separates, endsStatement, beginsStatement, hp, hn]

theorem isWordByte_of_dropped {o : Options} {out : Bytes} {fs : List Filler}
    {ss : List Segment} (hstop : Stops (Segments.source ss))
    (hss : IsCut o out ss)
    (hdropped :
      (Run.gap fs).kept out.getLast? (Segments.source ss).head? = false)
    {e' : Origin × UInt8} (hlast : out.getLast? = some e.2)
    (hhead : (Segments.marked out ss).head? = some e')
    (he : isWordByte e = true) : isWordByte e' = false := by
  rw [Bool.eq_false_iff]
  intro he'
  have hnext : (Segments.source ss).head? = some e'.2 := by
    rw [← Segments.head?_written_of_stops hss hstop, ← Segments.map_snd_marked,
      List.head?_map, hhead]
    rfl
  rw [hlast, hnext, Gap.kept_some,
    Gap.separates_of_isWord (Bool.and_eq_true_iff.mp he).2
    (Bool.and_eq_true_iff.mp he').2] at hdropped
  cases hdropped

theorem words_append_marked {o : Options} {out : Bytes} {ss : List Segment}
    (h : IsCut o out ss) (u : List (Origin × UInt8))
    (hu : ∀ e, u.getLast? = some e → out.getLast? = some e.2) :
    words (u ++ Segments.marked out ss) =
      words (u ++ Segments.markedSource ss) := by
  induction ss generalizing out u with
  | nil => rfl
  | cons g ss ih =>
    obtain ⟨hg, hss⟩ := h
    rw [Segments.marked_cons, Segments.markedSource_cons]
    cases hrun : g.isRun with
    | false =>
      rw [Segment.written_eq_source hrun] at hss ⊢
      rw [← List.append_assoc, ← List.append_assoc]
      refine ih hss _ ?_
      intro e he
      obtain ⟨w, b, hb⟩ :=
        List.eq_nil_or_concat g.source |>.resolve_left
          (Segment.source_ne_nil hg)
      rw [List.concat_eq_append] at hb
      rw [hb, List.map_append, List.map_singleton, ← List.append_assoc,
        List.getLast?_concat] at he
      obtain rfl := Option.some.inj he
      rw [hb, ← List.append_assoc, List.getLast?_concat]
    | true =>
      obtain ⟨fs, rfl⟩ := Segment.exists_eq_run hrun
      have hrest := ih hss [] (by simp)
      have hsource : words (u ++ (List.map (Prod.mk Origin.gap)
          (Run.source fs) ++ Segments.markedSource ss)) =
            words u ++ words (Segments.markedSource ss) := by
        have hne : Run.source fs ≠ [] := Segment.source_ne_nil hg
        refine words_append_append (by simpa using hne) ?_ u _
        intro e he
        obtain ⟨b, -, rfl⟩ := List.mem_map.mp he
        rfl
      rw [Segment.origin, Segment.source, hsource,
        ← List.nil_append (Segments.markedSource ss), ← hrest]
      rw [Segment.written] at hss ⊢
      cases hkept :
        (Run.gap fs).kept out.getLast? (Segments.source ss).head? with
      | true =>
        rw [if_pos rfl, List.map_singleton, List.singleton_append,
          words_append_cons rfl]
        rfl
      | false =>
        rw [hkept, if_neg Bool.false_ne_true, List.append_nil] at hss
        rw [if_neg Bool.false_ne_true, List.append_nil]
        refine words_append fun e e' hlast hhead he => ?_
        exact isWordByte_of_dropped hg.2.2 hss hkept (hu e hlast) hhead he

theorem isWordByte_of_mem_marked {out : Bytes} {ss : List Segment}
    (h : e ∈ Segments.marked out ss) :
    isWordByte e = (e.1 != .literal && isWord e.2) := by
  induction ss generalizing out with
  | nil => cases h
  | cons g ss ih =>
    rw [Segments.marked_cons, List.mem_append] at h
    rcases h with h | h
    · obtain ⟨b, hb, rfl⟩ := List.mem_map.mp h
      cases g with
      | run fs =>
        simp only [Segment.written] at hb
        split at hb
        · rw [List.mem_singleton.mp hb]
          cases Run.gap fs <;> rfl
        · cases hb
      | literal d body => rfl
      | openLiteral d body => rfl
      | single b => rfl
    · exact ih h

/-- The words of a source are the words of its output. In the output the word
bytes outside literals are meant, in the source those outside literals and
comments. -/
theorem words_marked_eq {o : Options} {x y : Bytes} (h : minify o x = .ok y) :
    (markedSource o x).map Prod.snd = x ∧ (marked o x).map Prod.snd = y ∧
      (∀ e ∈ marked o x, isWordByte e = (e.1 != .literal && isWord e.2)) ∧
      words (marked o x) = words (markedSource o x) := by
  refine ⟨?_, map_snd_marked_of_minify_eq_ok h,
    fun e => isWordByte_of_mem_marked, ?_⟩
  · rw [markedSource, Segments.map_snd_markedSource, source_segments]
  · exact words_append_marked (isCut_segments o [] x) [] (by simp)

/-- A comment between two words is replaced by a space, and the words in a
string and in a comment do not count. -/
theorem words_marked_eq_comment :
    minify {} (Bytes.ofAscii "in/*b*/a+'c d'//e\rf\ng") =
      .ok (Bytes.ofAscii "in a+'c d'\ng") ∧
      words (marked {} (Bytes.ofAscii "in/*b*/a+'c d'//e\rf\ng")) =
        [Bytes.ofAscii "in", Bytes.ofAscii "a", Bytes.ofAscii "g"] := by
  have hcut : segments {} [] (Bytes.ofAscii "in/*b*/a+'c d'//e\rf\ng") =
      [.single 0x69, .single 0x6e, .run [.blockComment [0x62]], .single 0x61,
        .single 0x2b,
        .literal singleQuote [0x63, 0x20, 0x64],
          .run [.lineComment [0x65, 0x0d, 0x66] true],
        .single 0x67] := by decide +kernel
  have hminify : minify {} (Bytes.ofAscii "in/*b*/a+'c d'//e\rf\ng") =
      .ok (Bytes.ofAscii "in a+'c d'\ng") := by
    rw [minify_eq_ok_iff, hcut]
    decide
  refine ⟨hminify, ?_⟩
  rw [(words_marked_eq hminify).2.2.2, markedSource, hcut]
  decide

end Terse.Script
