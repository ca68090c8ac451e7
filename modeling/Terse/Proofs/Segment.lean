import Terse.Script.Minify

/-!
# Segments of a source

A source is cut from left to right into runs of blanks and comments, literals,
and single bytes. What a segment may be depends on what was written before it (a
slash opens a literal in some places only) and on what comes after it (a run
goes on as long as it can), so a segment is judged by `Fits` between the output
so far and the rest of the source. `IsCut` carries the output along from segment
to segment, and no index into the source is needed.

The last segment may be left open by the end of the source: a block comment
without its closing `*/`, or a literal without its second delimiter. These are
segments too, so that every source has a cut.
-/

namespace Terse.Script

theorem forall_byte {p : UInt8 → Prop} (h : ∀ k : Fin 256, p (UInt8.ofNat k))
    (b : UInt8) : p b := by
  have hb := h ⟨b.toNat, b.toNat_lt⟩
  rwa [UInt8.ofNat_toNat] at hb

/-! ### What a run is made of -/

/-- A piece of a run. -/
inductive Filler where
  | blank (b : UInt8)
  /-- `ended` tells whether the line feed is there, which is taken along. -/
  | lineComment (body : Bytes) (ended : Bool)
  | blockComment (body : Bytes)
  | openComment (body : Bytes)
  deriving DecidableEq, Repr

namespace Filler

def source : Filler → Bytes
  | .blank b => [b]
  | .lineComment body ended =>
    slash :: slash :: body ++ (if ended then [lineFeed] else [])
  | .blockComment body => slash :: star :: body ++ [star, slash]
  | .openComment body => slash :: star :: body

/-- Whether a piece may stand in front of `rest`. A comment goes through the
first thing that closes it, and only the end of the source leaves it without. -/
def Fits (rest : Bytes) : Filler → Prop
  | .blank b => isBlank b = true
  | .lineComment body ended => lineFeed ∉ body ∧ (ended = false → rest = [])
  | .blockComment body => ¬ [star, slash] <:+: body
  | .openComment body => ¬ [star, slash] <:+: body ∧ rest = []

/-- Whether a line ends in the piece. A block comment counts as a space,
whatever it holds. -/
def breaksLine : Filler → Bool
  | .blank b => b == lineFeed || b == carriageReturn
  | .lineComment .. => true
  | .blockComment _ => false
  | .openComment _ => false

def isComment : Filler → Bool
  | .blank _ => false
  | _ => true

/-- Whether a piece is closed, or needs no closing. -/
def closes : Filler → Bool
  | .openComment _ => false
  | _ => true

/-- The fault of a piece that starts at `offset`. -/
def fault? (offset : Nat) : Filler → Option Fault
  | .openComment _ => some (.openComment offset)
  | _ => none

theorem source_ne_nil (f : Filler) : f.source ≠ [] := by
  cases f <;> simp [source]

end Filler

def startsComment : Bytes → Bool
  | a :: b :: _ => a == slash && (b == slash || b == star)
  | _ => false

/-- Whether a run has to stop here. -/
def Stops (rest : Bytes) : Prop :=
  (∀ b, rest.head? = some b → isBlank b = false) ∧ startsComment rest = false

namespace Run

def source (fs : List Filler) : Bytes := fs.flatMap Filler.source

/-- Whether the pieces fit, each in front of the later ones and of `rest`. -/
def Fits : List Filler → Bytes → Prop
  | [], _ => True
  | f :: fs, rest => f.Fits (source fs ++ rest) ∧ Fits fs rest

def gap (fs : List Filler) : Gap :=
  if fs.any Filler.breaksLine then .line else .space

/-- The fault of a run that starts at `offset`. -/
def fault? : Nat → List Filler → Option Fault
  | _, [] => none
  | n, f :: fs => f.fault? n <|> fault? (n + f.source.length) fs

@[simp] theorem source_nil : source [] = [] := rfl

@[simp] theorem source_cons (f : Filler) (fs : List Filler) :
    source (f :: fs) = f.source ++ source fs := rfl

@[simp] theorem fits_nil (rest : Bytes) : Fits [] rest := trivial

@[simp] theorem fault?_nil (n : Nat) : fault? n [] = none := rfl

theorem fault?_cons (n : Nat) (f : Filler) (fs : List Filler) :
    fault? n (f :: fs) = (f.fault? n <|> fault? (n + f.source.length) fs) := rfl

end Run

/-! ### Where a literal opens -/

/-- Whether a slash after the output `out` opens a regular expression: nothing
has been written, or an operand is expected after the last byte, or after the
last word, where keywords are tracked. -/
def RegexPosition (o : Options) (out : Bytes) : Prop :=
  out = [] ∨ (∃ b, out.getLast? = some b ∧ expectsOperand b = true) ∨
    (o.regexAfterKeywords = true ∧ ∃ k ∈ operandKeywords, ∃ before,
      out = before ++ k ∧
      ∀ b, before.getLast? = some b → isWord b = false ∧ b ≠ dot)

/-- Whether `d` in front of `rest` opens a literal. -/
def OpensLiteral (o : Options) (out : Bytes) (d : UInt8) (rest : Bytes) :
    Prop :=
  isQuote d = true ∨
    (d = slash ∧ startsComment (d :: rest) = false ∧ RegexPosition o out)

/-- What may stand in a literal before its delimiter `d` closes it: a backslash
takes the next byte along, any other byte stands for itself. -/
inductive LiteralBody (d : UInt8) : Bytes → Prop
  | nil : LiteralBody d []
  | plain {b : UInt8} {s : Bytes} : b ≠ d → b ≠ backslash → LiteralBody d s →
    LiteralBody d (b :: s)
  | escape (b : UInt8) {s : Bytes} : LiteralBody d s →
    LiteralBody d (backslash :: b :: s)

/-- What stands in a literal that the end of the source leaves open. The last
byte may be a backslash with nothing to take along. -/
def OpenBody (d : UInt8) (s : Bytes) : Prop :=
  LiteralBody d s ∨ ∃ u, LiteralBody d u ∧ s = u ++ [backslash]

/-! ### Segments -/

inductive Segment where
  | run (fillers : List Filler)
  | literal (d : UInt8) (body : Bytes)
  | openLiteral (d : UInt8) (body : Bytes)
  | single (b : UInt8)
  deriving DecidableEq, Repr

namespace Segment

def source : Segment → Bytes
  | .run fs => Run.source fs
  | .literal d body => d :: body ++ [d]
  | .openLiteral d body => d :: body
  | .single b => [b]

/-- Whether a segment may stand after the output `out` and in front of
`rest`. -/
def Fits (o : Options) (out rest : Bytes) : Segment → Prop
  | .run fs => fs ≠ [] ∧ Run.Fits fs rest ∧ Stops rest
  | .literal d body =>
    OpensLiteral o out d (body ++ d :: rest) ∧ LiteralBody d body
  | .openLiteral d body =>
    OpensLiteral o out d body ∧ OpenBody d body ∧ rest = []
  | .single b =>
    isBlank b = false ∧ startsComment (b :: rest) = false ∧
    ¬ OpensLiteral o out b rest

/-- What a segment adds to the output. A run adds its gap where the gap keeps
its neighbours apart, and nothing elsewhere; everything else is copied. -/
def written (out rest : Bytes) : Segment → Bytes
  | .run fs =>
    if (Run.gap fs).kept out.getLast? rest.head? then
      [(Run.gap fs).byte] else []
  | .literal d body => d :: body ++ [d]
  | .openLiteral d body => d :: body
  | .single b => [b]

def isRun : Segment → Bool
  | .run _ => true
  | _ => false

theorem exists_eq_run {g : Segment} (h : g.isRun = true) :
    ∃ fs, g = .run fs := by
  cases g with
  | run fs => exact ⟨fs, rfl⟩
  | literal d body => simp [isRun] at h
  | openLiteral d body => simp [isRun] at h
  | single b => simp [isRun] at h

theorem written_eq_source {g : Segment} (h : g.isRun = false)
    (out rest : Bytes) :
    g.written out rest = g.source := by
  cases g with
  | run fs => simp [isRun] at h
  | literal d body => rfl
  | openLiteral d body => rfl
  | single b => rfl

/-- Whether a segment is closed before the end of the source. -/
def closes : Segment → Bool
  | .run fs => fs.all Filler.closes
  | .openLiteral .. => false
  | _ => true

/-- The fault of a segment that starts at `offset`. -/
def fault? (offset : Nat) : Segment → Option Fault
  | .run fs => Run.fault? offset fs
  | .openLiteral d _ => some (.openLiteral offset d)
  | _ => none

end Segment

namespace Segments

def source (ss : List Segment) : Bytes := ss.flatMap Segment.source

/-- What the segments add to the output `out`. -/
def written : Bytes → List Segment → Bytes
  | _, [] => []
  | out, s :: ss =>
    s.written out (source ss) ++ written (out ++ s.written out (source ss)) ss

/-- The fault of the first segment that has one, for segments that start at an
offset. -/
def fault? : Nat → List Segment → Option Fault
  | _, [] => none
  | n, s :: ss => s.fault? n <|> fault? (n + s.source.length) ss

@[simp] theorem source_nil : source [] = [] := rfl

@[simp] theorem source_cons (s : Segment) (ss : List Segment) :
    source (s :: ss) = s.source ++ source ss := rfl

@[simp] theorem written_nil (out : Bytes) : written out [] = [] := rfl

theorem written_cons (out : Bytes) (s : Segment) (ss : List Segment) :
    written out (s :: ss) =
      s.written out (source ss) ++
        written (out ++ s.written out (source ss)) ss := rfl

@[simp] theorem fault?_nil (n : Nat) : fault? n [] = none := rfl

theorem fault?_cons (n : Nat) (s : Segment) (ss : List Segment) :
    fault? n (s :: ss) = (s.fault? n <|> fault? (n + s.source.length) ss) := rfl

end Segments

/-- Whether the segments, one after the other, fit after the output `out`. -/
def IsCut (o : Options) : Bytes → List Segment → Prop
  | _, [] => True
  | out, s :: ss =>
    s.Fits o out (Segments.source ss) ∧
      IsCut o (out ++ s.written out (Segments.source ss)) ss

@[simp] theorem isCut_nil (o : Options) (out : Bytes) : IsCut o out [] :=
  trivial

/-- The segments are a cut of the whole source `x`. -/
def IsCutOf (o : Options) (x : Bytes) (ss : List Segment) : Prop :=
  Segments.source ss = x ∧ IsCut o [] ss

end Terse.Script
