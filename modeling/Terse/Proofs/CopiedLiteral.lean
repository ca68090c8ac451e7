import Terse.Proofs.Span

/-!
# What copying a literal comes to

The bytes of a literal are measured first and then taken all at once. Here the
same is said byte by byte, of a reader in any state: with a byte put back or
without, and with any byte as the delimiter. `Copies s u s'` holds if the bytes
`u` are read one after the other and each of them is written.

A literal closes behind a body, where its delimiter stands again (`Closes`).
There is at most one such place, so what is copied is no longer than it has to
be. If there is none, all that is left of the input is copied, and the fault
names the offset that the reader had in front of the delimiter. A backslash
closes nothing, not even a literal that it opened.
-/

namespace Terse.Script

open Reader

variable {d : UInt8} {t u v w : Bytes}

/-! ### Where a literal closes -/

/-- In the text `t` behind its delimiter `d`, a literal closes behind `body`. -/
def Closes (d : UInt8) (t body : Bytes) : Prop :=
  LiteralBody d body ∧ body ++ [d] <+: t

theorem Closes.literalSpan?_eq (hd : d ≠ backslash) (h : Closes d t w) :
    literalSpan? d t = some (w.length + 1) := by
  obtain ⟨hbody, rest, rfl⟩ := h
  rw [List.append_assoc]
  exact literalSpan?_append hd hbody rest

theorem Closes.take_eq (h : Closes d t w) :
    t.take (w.length + 1) = w ++ [d] := by
  obtain ⟨-, rest, rfl⟩ := h
  exact List.take_left' (List.length_append ..)

theorem Closes.unique (hd : d ≠ backslash) (hv : Closes d t v)
    (hw : Closes d t w) : v = w := by
  have hlength : v.length + 1 = w.length + 1 :=
    Option.some.inj ((hv.literalSpan?_eq hd).symm.trans (hw.literalSpan?_eq hd))
  have hboth : v ++ [d] = w ++ [d] := by rw [← hv.take_eq, hlength, hw.take_eq]
  exact List.append_cancel_right hboth

/-- Every backslash that is read takes a byte along, so a literal that a
backslash opens never closes. -/
theorem literalSpan?_backslash (t : Bytes) :
    literalSpan? backslash t = none := by
  fun_induction literalSpan? backslash t with
  | case1 => rfl
  | case2 b hb => rfl
  | case3 b hb c s ih => rw [ih]; rfl
  | case4 b s hb hd => exact absurd hd hb
  | case5 b s hb hd ih => rw [ih]; rfl

theorem literalSpan?_of_not_closes
    (h : d = backslash ∨ ∀ body, ¬ Closes d t body) :
    literalSpan? d t = none := by
  rcases h with rfl | h
  · exact literalSpan?_backslash t
  · rcases exists_literal d t with hopen | ⟨body, rest, rfl, hbody⟩
    · exact literalSpan?_eq_none hopen
    · refine absurd ⟨hbody, rest, ?_⟩ (h body)
      rw [List.append_assoc]
      rfl

/-! ### Copying byte by byte -/

/-- The bytes `u` are read from `s` one after the other, and each is written;
then the machine is in `s'`. -/
inductive Copies : State → Bytes → State → Prop
  | nil (s : State) : Copies s [] s
  | cons {s s' : State} {b : UInt8} {r : Reader} {u : Bytes}
    (hnext : s.reader.next? = some (b, r))
      (h : Copies { reader := r, trail := b :: s.trail } u s') :
        Copies s (b :: u) s'

namespace Copies

variable {s s' : State}

/-- What was copied was in front of the reader, and the rest of it still is. -/
theorem pending_eq (h : Copies s u s') :
    s.reader.pending = u ++ s'.reader.pending := by
  induction h with
  | nil s => rfl
  | cons hnext h ih => rw [pending_of_next? hnext, List.cons_append, ← ih]

theorem output_eq (h : Copies s u s') : s'.output = s.output ++ u := by
  induction h with
  | nil s => rw [List.append_nil]
  | cons hnext h ih =>
    rw [ih, State.output, State.output, List.reverse_cons, List.append_assoc]
    rfl

/-- With nothing put back, leaving out bytes and writing them copies them. -/
theorem take_rest (n : Nat) (rest trail : Bytes) (k : Nat) :
    Copies ⟨⟨n, none, rest⟩, trail⟩ (rest.take k) ⟨skip ⟨n, none, rest⟩ k,
      (rest.take k).reverse ++ trail⟩ := by
  -- leaving out `k + 1` bytes is to read one and to leave out `k` behind it
  induction k generalizing n rest trail with
  | zero => exact .nil _
  | succ k ih =>
    cases rest with
    | nil => exact .nil _
    | cons b rest =>
      have hskip : skip ⟨n, none, b :: rest⟩ (k + 1) =
          skip ⟨n + 1, none, rest⟩ k := by
        simp only [skip, List.take_succ_cons, List.drop_succ_cons,
          List.length_cons, Reader.mk.injEq, and_true]
        omega
      rw [hskip, List.take_succ_cons, List.reverse_cons, List.append_assoc]
      exact .cons rfl (ih (n + 1) rest (b :: trail))

/-- The delimiter is read wherever it comes from; then nothing is put back. -/
theorem of_next? {r : Reader} (hnext : s.reader.next? = some (d, r)) (k : Nat) :
    Copies s (d :: r.rest.take k) ⟨r.skip k, (d :: r.rest.take k).reverse ++
      s.trail⟩ := by
  have hslot := slot_of_next? hnext
  obtain ⟨n, slot, rest⟩ := r
  dsimp only at hslot
  subst hslot
  rw [List.reverse_cons, List.append_assoc]
  exact .cons hnext (take_rest n rest (d :: s.trail) k)

end Copies

/-! ### Copying a literal -/

theorem next?_eq_none {r : Reader} (h : r.pending = []) : r.next? = none := by
  cases hnext : r.next? with
  | none => rfl
  | some p =>
    rw [pending_of_next? hnext] at h
    cases h

theorem exists_next?_of_pending {r : Reader} (h : r.pending = d :: t) :
    ∃ r', r.next? = some (d, r') ∧ r'.rest = t := by
  obtain ⟨n, slot, rest⟩ := r
  cases slot with
  | some b =>
    obtain ⟨rfl, rfl⟩ := List.cons.inj h
    exact ⟨⟨n, none, rest⟩, rfl, rfl⟩
  | none =>
    cases rest with
    | nil => cases h
    | cons b rest =>
      obtain ⟨rfl, rfl⟩ := List.cons.inj h
      exact ⟨⟨n + 1, none, rest⟩, rfl, rfl⟩

namespace State

variable {s : State}

theorem copyLiteral_of_pending_nil (h : s.reader.pending = []) :
    s.copyLiteral = (.ok (), s) := by
  rw [copyLiteral, literal, next?_eq_none h]
  rfl

theorem exists_copies_of_closes (hpending : s.reader.pending = d :: t)
    (hd : d ≠ backslash) (h : Closes d t w) :
    ∃ s', s.copyLiteral = (.ok (), s') ∧ Copies s (d :: w ++ [d]) s' := by
  obtain ⟨r, hnext, rfl⟩ := exists_next?_of_pending hpending
  have hcopies := Copies.of_next? hnext (w.length + 1)
  rw [h.take_eq] at hcopies
  refine ⟨_, ?_, hcopies⟩
  rw [copyLiteral, literal, hnext]
  dsimp only
  rw [h.literalSpan?_eq hd]
  dsimp only
  rw [h.take_eq]

theorem exists_copies_of_not_closes (hpending : s.reader.pending = d :: t)
    (h : d = backslash ∨ ∀ body, ¬ Closes d t body) :
    ∃ s', s.copyLiteral = (.error (.openLiteral s.reader.offset d), s') ∧
      Copies s (d :: t) s' := by
  obtain ⟨r, hnext, rfl⟩ := exists_next?_of_pending hpending
  have hcopies := Copies.of_next? hnext r.rest.length
  rw [List.take_length] at hcopies
  refine ⟨_, ?_, hcopies⟩
  rw [copyLiteral, literal, hnext]
  dsimp only
  rw [literalSpan?_of_not_closes h]

end State

/-- At the end of the input there is no literal, and nothing changes. Elsewhere
the byte that is read next is the delimiter. Unless it is a backslash, the
literal is accepted exactly if it closes; there is one place where it does, and
the bytes through that place are copied and no more. If it does not close, or
the delimiter is a backslash, everything that is left is copied, and the fault
names the delimiter and the offset at which the reader stood. -/
theorem copyLiteral_copies_shortest (s : State) :
    (s.reader.pending = [] → s.copyLiteral = (.ok (), s)) ∧
      ∀ d t, s.reader.pending = d :: t →
        (d ≠ backslash →
          ((∃ s', s.copyLiteral = (.ok (), s')) ↔ ∃ body, Closes d t body) ∧
            ∀ body, Closes d t body →
              (∀ u, Closes d t u → u = body) ∧
                ∃ s', s.copyLiteral = (.ok (), s') ∧
                  Copies s (d :: body ++ [d]) s' ∧
                  t = body ++ d :: s'.reader.pending ∧
                  s'.output = s.output ++ (d :: body ++ [d])) ∧
          ((d = backslash ∨ ∀ body, ¬ Closes d t body) →
            ∃ s', s.copyLiteral =
                (.error (.openLiteral s.reader.offset d), s') ∧
              Copies s (d :: t) s' ∧
              s'.reader.pending = [] ∧ s'.output = s.output ++ d :: t) := by
  refine ⟨State.copyLiteral_of_pending_nil,
    fun d t hpending => ⟨fun hd => ⟨⟨?_, ?_⟩, ?_⟩, ?_⟩⟩
  · rintro ⟨s', hs'⟩
    by_cases hclose : ∃ body, Closes d t body
    · exact hclose
    · obtain ⟨s'', hs'', -⟩ :=
        State.exists_copies_of_not_closes hpending (.inr (not_exists.mp hclose))
      rw [hs'] at hs''
      cases hs''
  · rintro ⟨body, hclose⟩
    obtain ⟨s', hs', -⟩ := State.exists_copies_of_closes hpending hd hclose
    exact ⟨s', hs'⟩
  · intro body hclose
    obtain ⟨s', hs', hcopies⟩ :=
      State.exists_copies_of_closes hpending hd hclose
    have hrest := hcopies.pending_eq
    rw [hpending, List.cons_append, List.cons_append,
      List.append_assoc] at hrest
    exact ⟨fun u hu => hu.unique hd hclose, s', hs', hcopies,
      (List.cons.inj hrest).2, hcopies.output_eq⟩
  · intro h
    obtain ⟨s', hs', hcopies⟩ := State.exists_copies_of_not_closes hpending h
    have hrest := hcopies.pending_eq
    rw [hpending] at hrest
    exact ⟨s', hs', hcopies, List.self_eq_append_right.mp hrest,
      hcopies.output_eq⟩

/-- A quote that was put back opens a literal with an escaped quote in it.
Without the last quote it does not close, and neither does a literal between two
backslashes. -/
theorem copyLiteral_copies_shortest_escape :
    (∃ s', State.copyLiteral
        ⟨⟨3, some singleQuote, Bytes.ofAscii "a\\'b' c'"⟩, [0x78]⟩ =
          (.ok (), s') ∧
      s'.reader.pending = Bytes.ofAscii " c'" ∧
        s'.output = Bytes.ofAscii "x'a\\'b'") ∧
      (∃ s', State.copyLiteral
          ⟨⟨3, some singleQuote, Bytes.ofAscii "a\\'b"⟩, [0x78]⟩ =
            (.error (.openLiteral 3 singleQuote), s') ∧
        s'.reader.pending = [] ∧ s'.output = Bytes.ofAscii "x'a\\'b") ∧
      (∃ s', State.copyLiteral ⟨⟨0, none, Bytes.ofAscii "\\a\\"⟩, []⟩ =
        (.error (.openLiteral 0 backslash), s') ∧
        s'.reader.pending = [] ∧ s'.output = Bytes.ofAscii "\\a\\") := by
  have hbody : LiteralBody singleQuote (Bytes.ofAscii "a\\'b") :=
    .plain (by decide) (by decide)
      (.escape singleQuote (.plain (by decide) (by decide) .nil))
  have hclose : Closes singleQuote (Bytes.ofAscii "a\\'b' c'")
      (Bytes.ofAscii "a\\'b") := ⟨hbody, by decide⟩
  have hopen : ∀ body, ¬ Closes singleQuote (Bytes.ofAscii "a\\'b") body := by
    intro body h
    have hspan := h.literalSpan?_eq (by decide)
    rw [literalSpan?_eq_none (.inl hbody)] at hspan
    cases hspan
  refine ⟨?_, ?_, ?_⟩
  · have hcopied :=
      copyLiteral_copies_shortest
        ⟨⟨3, some singleQuote, Bytes.ofAscii "a\\'b' c'"⟩, [0x78]⟩
    obtain ⟨-, s', hs', -, hrest, hout⟩ :=
      ((hcopied.2 singleQuote _ rfl).1 (by decide)).2 _ hclose
    have hsplit : Bytes.ofAscii "a\\'b' c'" = Bytes.ofAscii "a\\'b" ++
        singleQuote :: Bytes.ofAscii " c'" := rfl
    rw [hsplit] at hrest
    have htail : singleQuote :: Bytes.ofAscii " c'" = singleQuote ::
        s'.reader.pending := List.append_cancel_left hrest
    exact ⟨s', hs', (List.cons.inj htail).2.symm, hout⟩
  · have hcopied := copyLiteral_copies_shortest
      ⟨⟨3, some singleQuote, Bytes.ofAscii "a\\'b"⟩, [0x78]⟩
    obtain ⟨s', hs', -, hrest, hout⟩ :=
      (hcopied.2 singleQuote _ rfl).2 (.inr hopen)
    exact ⟨s', hs', hrest, hout⟩
  · have hcopied :=
      copyLiteral_copies_shortest ⟨⟨0, none, Bytes.ofAscii "\\a\\"⟩, []⟩
    obtain ⟨s', hs', -, hrest, hout⟩ := (hcopied.2 backslash _ rfl).2 (.inl rfl)
    exact ⟨s', hs', hrest, hout⟩

end Terse.Script
