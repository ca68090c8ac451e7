import Terse.Proofs.Segment

/-!
# How far a comment or a literal goes

The reader measures comments and literals by `lineSpan`, `blockSpan?` and
`literalSpan?`. Here each measure is tied to the shape of what it measures: a
body that nothing closes, then what closes it. Each has one lemma that reads the
measure off the shape and one that finds the shape from the measure; the cut of
a source uses the second, the machine is followed by the first.
-/

namespace Terse.Script

open Reader

/-! ### Lines -/

theorem lineSpan_append {body : Bytes} (h : lineFeed ∉ body) (rest : Bytes) :
    lineSpan (body ++ lineFeed :: rest) = body.length + 1 := by
  induction body with
  | nil => simp [lineSpan]
  | cons b s ih =>
    have hb : (b == lineFeed) = false :=
      beq_eq_false_iff_ne.mpr (List.ne_of_not_mem_cons h).symm
    simp [lineSpan, hb, ih (List.not_mem_of_not_mem_cons h)]

theorem lineSpan_eq_length {body : Bytes} (h : lineFeed ∉ body) :
    lineSpan body = body.length := by
  induction body with
  | nil => rfl
  | cons b s ih =>
    have hb : (b == lineFeed) = false :=
      beq_eq_false_iff_ne.mpr (List.ne_of_not_mem_cons h).symm
    simp [lineSpan, hb, ih (List.not_mem_of_not_mem_cons h)]

theorem exists_line (s : Bytes) :
    lineFeed ∉ s ∨ ∃ body rest, s = body ++ lineFeed :: rest ∧
      lineFeed ∉ body := by
  induction s with
  | nil => exact .inl (List.not_mem_nil)
  | cons b s ih =>
    by_cases hb : b = lineFeed
    · exact .inr ⟨[], s, by rw [hb]; rfl, List.not_mem_nil⟩
    · have hne : lineFeed ≠ b := fun e => hb e.symm
      rcases ih with hs | ⟨body, rest, rfl, hbody⟩
      · exact .inl (List.not_mem_cons_of_ne_of_not_mem hne hs)
      · exact .inr ⟨b :: body, rest, rfl,
          List.not_mem_cons_of_ne_of_not_mem hne hbody⟩

/-! ### Block comments -/

/-- A text without `*/` stays without it when its first byte is taken away, and
does not start with it. -/
theorem not_closer_infix_cons {b : UInt8} {s : Bytes}
    (h : ¬ [star, slash] <:+: b :: s) :
    (b == star && s.head? == some slash) = false ∧ ¬ [star, slash] <:+: s := by
  rw [List.infix_cons_iff, not_or] at h
  refine ⟨?_, h.2⟩
  rcases s with _ | ⟨c, t⟩
  · simp
  · have := h.1
    simp only [List.cons_prefix_cons, List.nil_prefix, and_true,
      not_and] at this
    simp only [List.head?_cons, Bool.and_eq_false_iff, beq_eq_false_iff_ne,
      ne_eq, Option.some.injEq]
    by_cases hb : b = star
    · exact .inr fun hc => this hb.symm hc.symm
    · exact .inl hb

theorem blockSpan?_append {body : Bytes} (h : ¬ [star, slash] <:+: body)
    (rest : Bytes) :
    blockSpan? (body ++ star :: slash :: rest) = some (body.length + 2) := by
  induction body with
  | nil => simp [blockSpan?]
  | cons b s ih =>
    obtain ⟨hb, hs⟩ := not_closer_infix_cons h
    -- the star that closes cannot be read together with the byte before it
    have hhead :
        (b == star && (s ++ star :: slash :: rest).head? == some slash) =
          false := by
      cases s with
      | nil =>
        simp only [List.nil_append, List.head?_cons, Bool.and_eq_false_iff];
          exact .inr rfl
      | cons c t => simpa using hb
    rw [List.cons_append, blockSpan?, hhead, ih hs]
    simp

theorem blockSpan?_eq_none {body : Bytes} (h : ¬ [star, slash] <:+: body) :
    blockSpan? body = none := by
  induction body with
  | nil => rfl
  | cons b s ih =>
    obtain ⟨hb, hs⟩ := not_closer_infix_cons h
    rw [blockSpan?, hb, ih hs]
    simp

theorem exists_block (s : Bytes) :
    ¬ [star, slash] <:+: s ∨
      ∃ body rest, s = body ++ star :: slash :: rest ∧
        ¬ [star, slash] <:+: body := by
  induction s with
  | nil => exact .inl (by simp)
  | cons b s ih =>
    by_cases hb : [star, slash] <+: b :: s
    · obtain ⟨rest, hrest⟩ := hb
      exact .inr ⟨[], rest, hrest.symm, by simp⟩
    · rcases ih with hs | ⟨body, rest, rfl, hbody⟩
      · exact .inl fun h => (List.infix_cons_iff.mp h).elim hb hs
      · refine .inr ⟨b :: body, rest, rfl,
          fun h => (List.infix_cons_iff.mp h).elim ?_ hbody⟩
        intro hp
        exact hb (hp.trans (List.prefix_append (b :: body) _))

/-! ### Literals -/

theorem literalSpan?_escape (d b : UInt8) (s : Bytes) :
    literalSpan? d (backslash :: b :: s) = (literalSpan? d s).map (· + 2) := by
  rw [literalSpan?]
  simp

theorem literalSpan?_close {d : UInt8} (hd : d ≠ backslash) (s : Bytes) :
    literalSpan? d (d :: s) = some 1 := by
  rw [literalSpan?.eq_def]
  simp [hd]

theorem literalSpan?_plain {d b : UInt8} (hd : b ≠ d) (hb : b ≠ backslash)
    (s : Bytes) :
    literalSpan? d (b :: s) = (literalSpan? d s).map (· + 1) := by
  rw [literalSpan?.eq_def]
  simp [hd, hb]

theorem literalSpan?_append {d : UInt8} (hd : d ≠ backslash) {body : Bytes}
    (h : LiteralBody d body) (rest : Bytes) :
    literalSpan? d (body ++ d :: rest) = some (body.length + 1) := by
  induction h with
  | nil => exact literalSpan?_close hd rest
  | plain hb hs _ ih => rw [List.cons_append, literalSpan?_plain hb hs, ih]; rfl
  | escape b _ ih =>
    rw [List.cons_append, List.cons_append, literalSpan?_escape, ih]; rfl

theorem literalSpan?_eq_none {d : UInt8} {body : Bytes} (h : OpenBody d body) :
    literalSpan? d body = none := by
  rcases h with h | ⟨u, h, rfl⟩
  · induction h with
    | nil => rfl
    | plain hb hs _ ih => rw [literalSpan?_plain hb hs, ih]; rfl
    | escape b _ ih => rw [literalSpan?_escape, ih]; rfl
  · induction h with
    | nil => rfl
    | plain hb hs _ ih =>
      rw [List.cons_append, literalSpan?_plain hb hs, ih]; rfl
    | escape b _ ih =>
      rw [List.cons_append, List.cons_append, literalSpan?_escape, ih]; rfl

/-- A text either leaves a literal open, or closes it at a first delimiter. -/
theorem exists_literal (d : UInt8) (s : Bytes) :
    OpenBody d s ∨ ∃ body rest, s = body ++ d :: rest ∧ LiteralBody d body := by
  fun_induction literalSpan? d s with
  | case1 => exact .inl (.inl .nil)
  | case2 b hb =>
    obtain rfl := beq_iff_eq.mp hb
    exact .inl (.inr ⟨[], .nil, rfl⟩)
  | case3 b hb c t ih =>
    obtain rfl := beq_iff_eq.mp hb
    rcases ih with (h | ⟨u, h, rfl⟩) | ⟨body, rest, rfl, h⟩
    · exact .inl (.inl (.escape c h))
    · exact .inl (.inr ⟨backslash :: c :: u, .escape c h, rfl⟩)
    · exact .inr ⟨backslash :: c :: body, rest, rfl, .escape c h⟩
  | case4 b s hb hd =>
    obtain rfl := beq_iff_eq.mp hd
    exact .inr ⟨[], s, rfl, .nil⟩
  | case5 b s hb hd ih =>
    have hne : b ≠ backslash := fun e => hb (beq_iff_eq.mpr e)
    have hnd : b ≠ d := fun e => hd (beq_iff_eq.mpr e)
    rcases ih with (h | ⟨u, h, rfl⟩) | ⟨body, rest, rfl, h⟩
    · exact .inl (.inl (.plain hnd hne h))
    · exact .inl (.inr ⟨b :: u, .plain hnd hne h, rfl⟩)
    · exact .inr ⟨b :: body, rest, rfl, .plain hnd hne h⟩

end Terse.Script
