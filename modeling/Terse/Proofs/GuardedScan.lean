import Terse.Proofs.Scan

/-!
# What the reader relies on

A byte is put back in one place and read in others, and nothing in the reader
keeps a second byte from being put back over the first, or input from being left
out while a byte is still waiting in front of it. That neither happens is a
property of whole scans. The byte put back is a blank, so it is read by the run
that the comment belongs to; where a slash or a quote is read, nothing is put
back.

`Guarded` is the machine with all that it relies on written out: each operation
on the reader refuses what it is not meant for, and each pass of a loop refuses
a reader that does not stand in the source (`Reader.Sound`) and has to come
closer to the end of it (`Reader.remaining`). The guarded machine never refuses,
and gives what the machine gives.
-/

namespace Terse.Script

variable {x : Bytes}

namespace Reader

/-! ### Readers in a source -/

/-- The reader stands in the source `x`, in front of what is left of it, and
only the byte of a gap is put back. -/
structure Sound (x : Bytes) (r : Reader) : Prop where
  offset_le : r.offset ≤ x.length
  rest_eq : r.rest = x.drop r.offset
  slot_eq : r.slot = none ∨ r.slot = some space ∨ r.slot = some lineFeed

instance (x : Bytes) (r : Reader) : Decidable (r.Sound x) :=
  decidable_of_iff
    (r.offset ≤ x.length ∧ r.rest = x.drop r.offset ∧
      (r.slot = none ∨ r.slot = some space ∨ r.slot = some lineFeed))
    ⟨fun h => ⟨h.1, h.2.1, h.2.2⟩, fun h => ⟨h.offset_le, h.rest_eq, h.slot_eq⟩⟩

/-- How much a loop has still to do: two for each byte of the source that is
left, one for a byte put back. -/
def remaining (x : Bytes) (r : Reader) : Nat :=
  2 * (x.length - r.offset) + if r.slot.isSome then 1 else 0

theorem sound_ofBytes (x : Bytes) : (ofBytes x).Sound x :=
  ⟨Nat.zero_le _, rfl, .inl rfl⟩

namespace Sound

variable {r r' : Reader} {b : UInt8}

theorem weight_eq (h : r.Sound x) : r.weight = r.remaining x := by
  rw [weight, remaining, h.rest_eq, List.length_drop]
  cases r.slot <;> rfl

theorem skip (h : r.Sound x) (n : Nat) : (r.skip n).Sound x := by
  have hlength : r.rest.length = x.length - r.offset := by
    rw [h.rest_eq, List.length_drop]
  have hoffset := h.offset_le
  refine ⟨?_, ?_, h.slot_eq⟩
  · simp only [Reader.skip, List.length_take]
    omega
  · simp only [Reader.skip, List.length_take]
    rw [h.rest_eq, List.drop_drop, ← h.rest_eq]
    rcases Nat.le_total n r.rest.length with hn | hn
    · rw [Nat.min_eq_left hn]
    · rw [List.drop_of_length_le (by omega), List.drop_of_length_le (by omega)]

theorem putBack (h : r.Sound x) (hb : b = space ∨ b = lineFeed) :
    (r.putBack b).Sound x := by
  refine ⟨h.offset_le, h.rest_eq, .inr ?_⟩
  rcases hb with rfl | rfl
  · exact .inl rfl
  · exact .inr rfl

theorem next? (h : r.Sound x) (hnext : r.next? = some (b, r')) :
    r'.Sound x := by
  unfold Reader.next? at hnext
  split at hnext
  · cases hnext
    exact ⟨h.offset_le, h.rest_eq, .inl rfl⟩
  · next b s hslot hrest =>
    cases hnext
    have hskip := h.skip 1
    rwa [Reader.skip, hrest] at hskip
  · cases hnext

theorem slot_eq_none (h : r.Sound x) (hpeek : r.peek = some b)
    (hb : isBlank b = false) : r.slot = none := by
  have hback : ∀ c, r.slot = some c → c = b := by
    intro c hc
    simpa [peek, hc] using hpeek
  rcases h.slot_eq with hslot | hslot | hslot
  · exact hslot
  · rw [← hback _ hslot] at hb
    cases hb
  · rw [← hback _ hslot] at hb
    cases hb

/-- Where a byte that is no blank is read next, the offset is the place of that
byte. -/
theorem getElem?_offset (h : r.Sound x) (hpeek : r.peek = some b)
    (hb : isBlank b = false) :
    x[r.offset]? = some b := by
  rw [peek, h.slot_eq_none hpeek hb, h.rest_eq, List.head?_drop] at hpeek
  exact hpeek

theorem skipComment? (h : r.Sound x) (hskip : r.skipComment? = .ok (some r')) :
    r'.Sound x := by
  unfold Reader.skipComment? at hskip
  split at hskip
  · cases hskip
    exact (h.skip _).putBack (.inr rfl)
  · split at hskip
    · unfold skipBlockComment at hskip
      split at hskip
      · cases hskip
        exact (h.skip _).putBack (.inl rfl)
      · cases hskip
    · cases hskip

theorem collapse (h : r.Sound x) (g : Gap) : (r.collapse g).2.Sound x := by
  fun_induction Reader.collapse r g with
  | case1 r g hnext => exact h
  | case2 r g b r' hnext hb hlt ih => exact ih (h.next? hnext)
  | case3 r g b r' hnext hb f hskip => exact h
  | case4 r g b r' hnext hb hskip => exact h
  | case5 r g b r' hnext hb r'' hskip hlt ih => exact ih (h.skipComment? hskip)

theorem literal (h : r.Sound x) : r.literal.reader.Sound x := by
  unfold Reader.literal
  split
  · exact h
  · next d r' hnext =>
    split
    · exact (h.next? hnext).skip _
    · exact (h.next? hnext).skip _

end Sound

end Reader

theorem Move.sound {opens : Bytes → Bool} {s s' : State} (h : Move opens s s')
    (hs : s.reader.Sound x) :
    s'.reader.Sound x := by
  cases h with
  | comment hpeek hskip => exact hs.skipComment? hskip
  | literal hnext hd hcopy =>
    have hliteral : s.copyLiteral.2.reader.Sound x := hs.literal
    rwa [hcopy] at hliteral
  | gap hnext hb hgap =>
    have hcollapse := hs.collapse .space
    rw [State.writeGap] at hgap
    split at hgap
    · cases hgap
    · next hr =>
      rw [hr] at hcollapse
      cases hgap
      exact hcollapse
  | copy hnext hquote hb hslash => exact hs.next? hnext

theorem Scans.sound {o : Options} {s : State} (h : Scans o x s) :
    s.reader.Sound x :=
  Reaches.invariant (fun hstep hs => (move_of_stepBy hstep).sound hs) h
    (Reader.sound_ofBytes x)

/-! ### The guarded machine -/

namespace Guarded

open Reader

section

variable (x : Bytes)

/-- Passes on a reader that stands in the source. -/
def check (r : Reader) : Option Reader := if r.Sound x then some r else none

/-- Leaves out `n` bytes. No byte may be put back. -/
def skip (r : Reader) (n : Nat) : Option Reader :=
  if r.slot = none then check x (r.skip n) else none

/-- Puts a byte back. There may be none already. -/
def putBack (r : Reader) (b : UInt8) : Option Reader :=
  if r.slot = none then check x (r.putBack b) else none

/-- What stands behind the two bytes that open a comment. They have to be
there. -/
def body (r : Reader) : Option Bytes :=
  if 2 ≤ r.rest.length then some (r.rest.drop 2) else none

def skipLineComment (r : Reader) : Option Reader := do
  let s ← body r
  let r' ← skip x r (2 + lineSpan s)
  putBack x r' lineFeed

def skipBlockComment (r : Reader) : Option (Except Fault Reader) := do
  let s ← body r
  match blockSpan? s with
  | some n =>
    let r' ← skip x r (2 + n)
    return .ok (← putBack x r' space)
  | none => return .error (.openComment r.offset)

def skipComment? (r : Reader) : Option (Except Fault (Option Reader)) :=
  if r.peek = some slash ∧ r.second = some slash then
    do return .ok (some (← skipLineComment x r))
  else if r.peek = some slash ∧ r.second = some star then
    do return (← skipBlockComment x r).map some
  else some (.ok none)

/-- Reads a run. Every pass has to leave less to do. -/
def collapse (r : Reader) (g : Gap) : Option (Except Fault Gap × Reader) :=
  if r.Sound x then
    match r.next? with
    | none => some (.ok g, r)
    | some (b, r') =>
      if isBlank b then
        if _h : r'.remaining x < r.remaining x then
          collapse r' (g.widen b) else none
      else match skipComment? x r with
        | none => none
        | some (.error f) => some (.error f, r)
        | some (.ok none) => some (.ok g, r)
        | some (.ok (some r'')) =>
          if _h : r''.remaining x < r.remaining x then collapse r'' g else none
  else none
termination_by r.remaining x

/-- Copies a literal. No byte may be put back, and the delimiter has to stand at
the offset that a fault would name. -/
def copyLiteral (s : State) : Option (Except Fault Unit × State) :=
  if s.reader.slot = none ∧ x[s.reader.offset]? = s.reader.peek then
    some s.copyLiteral else none

def writeGap (s : State) : Option (Except Fault Unit × State) := do
  match ← collapse x s.reader .space with
  | (.error f, r) => return (.error f, { s with reader := r })
  | (.ok g, r) =>
    return (.ok (),
      { reader := r, trail := if g.kept s.trail.head? r.peek then
        g.byte :: s.trail else s.trail })

def step (o : Options) (s : State) : Option (Option (Except Fault State)) :=
  match s.reader.next? with
  | none => some none
  | some (b, r) =>
    if b == slash then
      match skipComment? x s.reader with
      | none => none
      | some (.error f) => some (some (.error f))
      | some (.ok (some r')) => some (some (.ok { s with reader := r' }))
      | some (.ok none) =>
        if opensRegex o.regexAfterKeywords s.trail then
          (copyLiteral x s).map (some ∘ State.settle)
        else some (some (.ok { reader := r, trail := b :: s.trail }))
    else if isQuote b then (copyLiteral x s).map (some ∘ State.settle)
    else if isBlank b then (writeGap x s).map (some ∘ State.settle)
    else some (some (.ok { reader := r, trail := b :: s.trail }))

/-- Runs the machine. Every step has to leave less to do. -/
def run (o : Options) (s : State) : Option (Except Fault State) :=
  if s.reader.Sound x then
    match step x o s with
    | none => none
    | some none => some (.ok s)
    | some (some (.error f)) => some (.error f)
    | some (some (.ok s')) =>
      if _h : s'.reader.remaining x < s.reader.remaining x then
        run o s' else none
  else none
termination_by s.reader.remaining x

end

/-- The result of the guarded machine; `none` if it refused to go on. -/
def minify (o : Options) (x : Bytes) : Option (Except Fault Bytes) :=
  (run x o (.start x)).map (·.map State.output)

/-! ### It never refuses -/

variable {r r' : Reader} {b : UInt8}

theorem check_of_sound (h : r.Sound x) : check x r = some r := if_pos h

theorem skip_of_sound (h : r.Sound x) (hslot : r.slot = none) (n : Nat) :
    skip x r n = some (r.skip n) := by
  rw [skip, if_pos hslot, check_of_sound (h.skip n)]

theorem putBack_of_sound (h : r.Sound x) (hslot : r.slot = none)
    (hb : b = space ∨ b = lineFeed) :
    putBack x r b = some (r.putBack b) := by
  rw [putBack, if_pos hslot, check_of_sound (h.putBack hb)]

/-- If a second byte is read behind a byte that is not put back, there are two
bytes. -/
theorem body_of_second (hslot : r.slot = none) (hsecond : r.second = some b) :
    body r = some (r.rest.drop 2) := by
  rw [second, hslot] at hsecond
  refine if_pos ?_
  rcases hrest : r.rest with _ | ⟨a, _ | ⟨c, s⟩⟩
  · simp [hrest] at hsecond
  · simp [hrest] at hsecond
  · simp

theorem skipComment?_of_sound (h : r.Sound x) :
    skipComment? x r = some r.skipComment? := by
  unfold skipComment? Reader.skipComment?
  split
  · next hline =>
    have hslot := h.slot_eq_none hline.1 (by decide)
    rw [skipLineComment, body_of_second hslot hline.2]
    simp only [Option.bind_eq_bind, Option.bind_some]
    rw [skip_of_sound h hslot]
    simp only [Option.bind_some]
    rw [putBack_of_sound (h.skip _) hslot (.inr rfl)]
    rfl
  · split
    · next hblock =>
      have hslot := h.slot_eq_none hblock.1 (by decide)
      rw [skipBlockComment, body_of_second hslot hblock.2,
        Reader.skipBlockComment]
      simp only [Option.bind_eq_bind, Option.bind_some]
      cases blockSpan? (r.rest.drop 2) with
      | none => rfl
      | some n =>
        simp only
        rw [skip_of_sound h hslot]
        simp only [Option.bind_some]
        rw [putBack_of_sound (h.skip _) hslot (.inl rfl)]
        rfl
    · rfl

theorem remaining_lt (h : r.Sound x) (h' : r'.Sound x)
    (hlt : r'.weight < r.weight) :
    r'.remaining x < r.remaining x := by
  rwa [h.weight_eq, h'.weight_eq] at hlt

theorem collapse_of_sound (h : r.Sound x) (g : Gap) :
    collapse x r g = some (r.collapse g) := by
  fun_induction Reader.collapse r g with
  | case1 r g hnext => rw [collapse, if_pos h, hnext]
  | case2 r g b r' hnext hb hlt ih =>
    have h' := h.next? hnext
    rw [collapse, if_pos h, hnext]
    simp only [hb, if_true]
    rw [dif_pos (remaining_lt h h' hlt), ih h']
  | case3 r g b r' hnext hb f hskip =>
    rw [collapse, if_pos h, hnext]
    simp only [hb, skipComment?_of_sound h, hskip]
    rfl
  | case4 r g b r' hnext hb hskip =>
    rw [collapse, if_pos h, hnext]
    simp only [hb, skipComment?_of_sound h, hskip]
    rfl
  | case5 r g b r' hnext hb r'' hskip hlt ih =>
    have h' := h.skipComment? hskip
    rw [collapse, if_pos h, hnext]
    simp only [hb, skipComment?_of_sound h, hskip]
    rw [if_neg Bool.false_ne_true, dif_pos (remaining_lt h h' hlt), ih h']

theorem writeGap_of_sound {s : State} (h : s.reader.Sound x) :
    writeGap x s = some s.writeGap := by
  rw [writeGap, collapse_of_sound h, State.writeGap]
  rcases s.reader.collapse .space with ⟨_ | g, r⟩
  · rfl
  · rfl

theorem copyLiteral_of_sound {s : State} (h : s.reader.Sound x)
    (hpeek : s.reader.peek = some b) (hb : isBlank b = false) :
    copyLiteral x s = some s.copyLiteral := by
  refine if_pos ⟨h.slot_eq_none hpeek hb, ?_⟩
  rw [hpeek, h.getElem?_offset hpeek hb]

theorem step_of_sound (o : Options) {s : State} (h : s.reader.Sound x) :
    step x o s = some (Script.step o s) := by
  have hquote : ∀ b : UInt8, isQuote b = true → isBlank b = false :=
    forall_byte (by decide +kernel)
  rw [step, Script.step, stepBy]
  rcases hnext : s.reader.next? with _ | ⟨b, r⟩
  · rfl
  · have hpeek := Reader.peek_of_next? hnext
    dsimp only
    split
    · next hslash =>
      obtain rfl := beq_iff_eq.mp hslash
      rw [skipComment?_of_sound h]
      rcases s.reader.skipComment? with f | _ | r'
      · rfl
      · dsimp only
        rw [copyLiteral_of_sound h hpeek (by decide)]
        split <;> rfl
      · rfl
    · split
      · next hq =>
        rw [copyLiteral_of_sound h hpeek (hquote b hq)]
        rfl
      · split
        · rw [writeGap_of_sound h]
          rfl
        · rfl

theorem run_of_sound (o : Options) {s : State} (h : s.reader.Sound x) :
    run x o s = some (Script.run o s) := by
  rw [Script.run]
  fun_induction runBy (opensRegex o.regexAfterKeywords) s with
  | case1 s hs => rw [run, if_pos h, step_of_sound o h, Script.step, hs]
  | case2 s f hs => rw [run, if_pos h, step_of_sound o h, Script.step, hs]
  | case3 s s' hs hlt ih =>
    have h' : s'.reader.Sound x := (move_of_stepBy hs).sound h
    rw [run, if_pos h, step_of_sound o h, Script.step, hs]
    simp only
    rw [dif_pos (remaining_lt h h' hlt), ih h']

end Guarded

/-- The guarded machine gives the result of the machine, so nothing that an
operation relies on is ever missing, and every pass of a loop leaves less to do.
In particular, in every state of a scan the reader stands in the source with a
gap or nothing put back; a byte that is no blank is read from the source, at the
offset; and the step that follows decreases what remains. -/
theorem guarded_minify_eq_some (o : Options) (x : Bytes) :
    Guarded.minify o x = some (minify o x) ∧
      ∀ s, Scans o x s →
        s.reader.Sound x ∧
        (∀ b, s.reader.peek = some b → isBlank b = false →
          s.reader.slot = none ∧ x[s.reader.offset]? = some b) ∧
        ∀ s', step o s = some (.ok s') →
          s'.reader.remaining x < s.reader.remaining x := by
  constructor
  · rw [Guarded.minify, Guarded.run_of_sound o (Reader.sound_ofBytes x)]
    rfl
  · intro s hs
    have hsound := hs.sound
    refine ⟨hsound,
      fun b hpeek hb => ⟨hsound.slot_eq_none hpeek hb,
        hsound.getElem?_offset hpeek hb⟩, ?_⟩
    intro s' hstep
    have hsound' : s'.reader.Sound x := Scans.sound (hs.tail hstep)
    exact Guarded.remaining_lt hsound hsound' (weight_of_stepBy hstep)

/-- A comment in front of a string: the space that is put back for it is read,
and then the string from its quote. -/
theorem guarded_minify_eq_some_comment :
    Guarded.minify {} (Bytes.ofAscii "a/**/'b'") =
      some (.ok (Bytes.ofAscii "a'b'")) ∧
      Reader.remaining (Bytes.ofAscii "a/**/'b'") ⟨5, none,
        Bytes.ofAscii "'b'"⟩ <
        Reader.remaining (Bytes.ofAscii "a/**/'b'") ⟨5, some space,
          Bytes.ofAscii "'b'"⟩ ∧
      (Bytes.ofAscii "a/**/'b'")[5]? = some singleQuote := by
  have hcut : segments {} [] (Bytes.ofAscii "a/**/'b'") =
      [.single 0x61, .run [.blockComment []], .literal singleQuote [0x62]] := by
        decide +kernel
  have hresult : minify {} (Bytes.ofAscii "a/**/'b'") =
      .ok (Bytes.ofAscii "a'b'") := by
    rw [minify_eq_ok_iff, hcut]
    decide
  have hcopy : step {} (.start (Bytes.ofAscii "a/**/'b'")) =
      some (.ok ⟨⟨1, none, Bytes.ofAscii "/**/'b'"⟩, [0x61]⟩) := rfl
  have hcomment : step {} ⟨⟨1, none, Bytes.ofAscii "/**/'b'"⟩, [0x61]⟩ =
      some (.ok ⟨⟨5, some space, Bytes.ofAscii "'b'"⟩, [0x61]⟩) := rfl
  have hread : Reader.collapse ⟨5, some space, Bytes.ofAscii "'b'"⟩ .space =
      (.ok .space, ⟨5, none, Bytes.ofAscii "'b'"⟩) := by
    have hstops : Stops (Bytes.ofAscii "'b'") := by
      refine ⟨fun b hb => ?_, rfl⟩
      obtain rfl : singleQuote = b := Option.some.inj hb
      rfl
    rw [collapse_eq rfl]
    exact collapse_of_stops hstops .space
  have hgap : step {} ⟨⟨5, some space, Bytes.ofAscii "'b'"⟩, [0x61]⟩ =
      some (.ok ⟨⟨5, none, Bytes.ofAscii "'b'"⟩, [0x61]⟩) := by
    rw [step_of_blank {} rfl rfl, State.writeGap, hread]
    rfl
  have hscans : Scans {} (Bytes.ofAscii "a/**/'b'")
      ⟨⟨5, some space, Bytes.ofAscii "'b'"⟩, [0x61]⟩ :=
    .tail (.single hcopy) hcomment
  obtain ⟨hguarded, hstates⟩ := guarded_minify_eq_some {}
    (Bytes.ofAscii "a/**/'b'")
  refine ⟨hguarded.trans (congrArg some hresult),
    (hstates _ hscans).2.2 _ hgap, ?_⟩
  exact ((hstates _ (hscans.tail hgap)).2.1 singleQuote (by decide)
    (by decide)).2

end Terse.Script
