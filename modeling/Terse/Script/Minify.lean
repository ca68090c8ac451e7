import Terse.Script.Reader
import Terse.Script.RegexPosition
import Terse.Text.Utf8

/-!
# Minification

One step of the machine looks at the next byte. A comment is left out, a literal
is copied, a run of blanks becomes at most one gap, and any other byte is
copied. The output is held newest byte first (`trail`), since both the gap rule
and the regular expression rule ask how it ends.

The machine is told after which outputs a slash opens a regular expression, and
`step`, `run` and `minify` are its cases for the rule `opensRegex`. Every step
makes the reader lighter (`weight_of_stepBy`), so the machine stops.
-/

namespace Terse.Script

/-- How sources are read. -/
structure Options where
  /-- Whether a slash after a keyword such as `return` opens a regular
  expression. -/
  regexAfterKeywords : Bool := false
  deriving DecidableEq, Repr

/-- The machine between two steps. -/
structure State where
  reader : Reader
  trail : Bytes := []
  deriving DecidableEq, Repr

namespace State

def start (x : Bytes) : State where reader := .ofBytes x

def output (s : State) : Bytes := s.trail.reverse

def copyLiteral (s : State) : Except Fault Unit × State :=
  let c := s.reader.literal
  (match c.fault? with
    | none => .ok ()
    | some f => .error f,
   { reader := c.reader, trail := c.bytes.reverse ++ s.trail })

def writeGap (s : State) : Except Fault Unit × State :=
  match s.reader.collapse .space with
  | (.error f, r) => (.error f, { s with reader := r })
  | (.ok g, r) =>
    (.ok (),
      { reader := r, trail := if g.kept s.trail.head? r.peek then
        g.byte :: s.trail else s.trail })

def settle : Except Fault Unit × State → Except Fault State
  | (.ok _, s) => .ok s
  | (.error f, _) => .error f

theorem settle_eq_ok {p : Except Fault Unit × State} {s : State}
    (h : settle p = .ok s) : p.2 = s := by
  obtain ⟨_ | _, t⟩ := p
  · simp [settle] at h
  · simpa [settle] using h

end State

/-- One step: `none` at the end of the source, else the next state or the fault
that ends the scan. A slash that starts no comment opens a regular expression
after the outputs that `opens` tells. -/
def stepBy (opens : Bytes → Bool) (s : State) :
    Option (Except Fault State) :=
  match s.reader.next? with
  | none => none
  | some (b, r) =>
    if b == slash then
      match s.reader.skipComment? with
      | .error f => some (.error f)
      | .ok (some r') => some (.ok { s with reader := r' })
      | .ok none =>
        if opens s.trail then some (State.settle s.copyLiteral)
        else some (.ok { reader := r, trail := b :: s.trail })
    else if isQuote b then some (State.settle s.copyLiteral)
    else if isBlank b then some (State.settle s.writeGap)
    else some (.ok { reader := r, trail := b :: s.trail })

theorem weight_copyLiteral_lt {s : State} {b : UInt8} {r : Reader}
    (h : s.reader.next? = some (b, r)) :
    s.copyLiteral.2.reader.weight < s.reader.weight :=
  Reader.weight_literal_lt h

theorem weight_writeGap_lt {s : State} {b : UInt8} {r : Reader}
    (h : s.reader.next? = some (b, r)) (hb : isBlank b = true) :
    s.writeGap.2.reader.weight < s.reader.weight := by
  have hw := Reader.weight_of_next? h
  have hc : (s.reader.collapse .space).2.weight ≤ r.weight := by
    rw [Reader.collapse]
    split
    · next hn => simp [h] at hn
    · next hn =>
      obtain ⟨rfl, rfl⟩ : b = _ ∧ r = _ := by simpa [h] using hn
      simp only [hb, if_true]
      exact Reader.weight_collapse_le ..
  unfold State.writeGap
  split
  · next hr => rw [hr] at hc; exact Nat.lt_of_le_of_lt hc hw
  · next hr => rw [hr] at hc; exact Nat.lt_of_le_of_lt hc hw

theorem weight_of_stepBy {opens : Bytes → Bool} {s s' : State}
    (h : stepBy opens s = some (.ok s')) :
    s'.reader.weight < s.reader.weight := by
  unfold stepBy at h
  split at h
  · simp at h
  · next b r hn =>
    have hw := Reader.weight_of_next? hn
    have hl := weight_copyLiteral_lt hn
    split at h
    · split at h
      · simp at h
      · next hc =>
        obtain rfl := by simpa using h
        exact Reader.weight_of_skipComment? hc
      · split at h
        · rwa [State.settle_eq_ok (Option.some.inj h)] at hl
        · obtain rfl := by simpa using h
          exact hw
    · split at h
      · rwa [State.settle_eq_ok (Option.some.inj h)] at hl
      · split at h
        · next hb =>
          have hg := weight_writeGap_lt hn hb
          rwa [State.settle_eq_ok (Option.some.inj h)] at hg
        · obtain rfl := by simpa using h
          exact hw

def runBy (opens : Bytes → Bool) (s : State) : Except Fault State :=
  match h : stepBy opens s with
  | none => .ok s
  | some (.error f) => .error f
  | some (.ok s') =>
    have := weight_of_stepBy h
    runBy opens s'
termination_by s.reader.weight

theorem runBy_eq (opens : Bytes → Bool) (s : State) :
    runBy opens s =
      match stepBy opens s with
      | none => .ok s
      | some (.error e) => .error e
      | some (.ok s') => runBy opens s' := by
  rw [runBy]
  split <;> simp_all

def minifyBy (opens : Bytes → Bool) (source : Bytes) : Except Fault Bytes :=
  (runBy opens (.start source)).map State.output

/-! ### The rule for slashes -/

def step (o : Options) : State → Option (Except Fault State) :=
  stepBy (opensRegex o.regexAfterKeywords)

def run (o : Options) : State → Except Fault State :=
  runBy (opensRegex o.regexAfterKeywords)

/-- The source without its comments and without the blanks that separate
nothing. -/
def minify (o : Options) : Bytes → Except Fault Bytes :=
  minifyBy (opensRegex o.regexAfterKeywords)

theorem minify_eq (o : Options) (source : Bytes) :
    minify o source = (run o (.start source)).map State.output := rfl

/-- `minify` for text. An output that is no text is shown with replacement
characters. -/
def minifyText (o : Options) (source : String) : Except Fault String :=
  (minify o (Bytes.ofString source)).map fun output =>
    (Text.Utf8.toString? output).getD (Text.Utf8.display output)

end Terse.Script
