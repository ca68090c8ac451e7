import Terse.Yaml.Token

/-!
# From text to tokens

Two things make YAML hard to cut into words. Block collections are marked by
indentation, so the columns of the open ones are kept, innermost first. And a
mapping key may carry no mark of its own: only the colon after it shows what it
was. The scanner therefore remembers where a key could have started
(`Candidate`), one candidate for each flow collection that is open, and puts the
missing token in at that place when the colon comes.

A candidate is good for one line and 1024 characters. In a block mapping a text
at the column of the mapping can only be a key, so there a candidate is
`required`, and losing it is an error.
-/

namespace Terse.Yaml

/-- A place where a key may have started. -/
structure Candidate where
  required : Bool
  /-- How many tokens came before it. -/
  position : Nat
  index : Nat
  line : Nat
  column : Nat

structure Scanner where
  source : Source
  /-- The tokens so far, newest first. -/
  tokens : List Token := []
  /-- The column of the innermost open block collection. -/
  indent : Int := -1
  /-- The columns of the ones around it. -/
  outer : List Int := []
  /-- Whether a key may start here. -/
  keyAllowed : Bool := true
  /-- The candidate of the innermost flow collection, or of the block if none is
  open. -/
  candidate : Option Candidate := none
  /-- The candidates around it, one for each open flow collection. -/
  around : List (Option Candidate) := []

namespace Scanner

def flow (s : Scanner) : Bool := !s.around.isEmpty

def emit (s : Scanner) (t : Token) : Scanner :=
  { s with tokens := t :: s.tokens }

def emitAt (s : Scanner) (n : Nat) (t : Token) : Scanner :=
  let k := s.tokens.length - n
  { s with tokens := s.tokens.take k ++ t :: s.tokens.drop k }

def skip (s : Scanner) (n : Nat) : Scanner :=
  { s with source := s.source.skip n }

/-! ### Candidates -/

def isStale (s : Scanner) (c : Candidate) : Bool :=
  c.line < s.source.line || c.index + 1024 < s.source.index

def refresh? (s : Scanner) (c : Option Candidate) : Option (Option Candidate) :=
  match c with
  | none => some none
  | some c =>
    if s.isStale c then (if c.required then none else some none)
      else some (some c)

def dropStale? (s : Scanner) : Option Scanner := do
  return { s with
    candidate := ← s.refresh? s.candidate
    around := ← s.around.mapM s.refresh? }

def dropCandidate? (s : Scanner) : Option Scanner :=
  if s.candidate.any (·.required) then
    none else some { s with candidate := none }

def saveCandidate? (s : Scanner) : Option Scanner :=
  if s.keyAllowed then do
    let s ← s.dropCandidate?
    let candidate : Candidate :=
      { required := !s.flow && s.indent == s.source.column
        position := s.tokens.length
        index := s.source.index
        line := s.source.line
        column := s.source.column }
    return { s with candidate := some candidate }
  else some s

/-! ### Indentation -/

/-- Opens a block collection at a column further right than the current one. -/
def openBlock (s : Scanner) (column : Nat) (position : Nat) (t : Token) :
    Scanner :=
  if !s.flow && s.indent < column then
    { s.emitAt position t with indent := column, outer := s.indent :: s.outer }
  else s

def closeBlocks (column : Int) : List Int → Scanner → Scanner
  | [], s => s
  | i :: outer, s =>
    if column < s.indent then
      closeBlocks column outer { s.emit .blockEnd with indent := i, outer }
    else s

def unwind (s : Scanner) (column : Int) : Scanner :=
  if s.flow then s else closeBlocks column s.outer s

/-! ### White space -/

/-- Passes over white space and comments. Tabs do not indent, so they are passed
over only where no key may start. -/
def skipToWord : Nat → Scanner → Scanner
  | 0, s => s
  | n + 1, s =>
    let s :=
      if s.source.column == 0 && s.source.peek == some '\uFEFF' then s.skip 1
      else s
    let tabs := s.flow || !s.keyAllowed
    let source := s.source.skipWhile fun c => c == ' ' || (tabs && c == '\t')
    let source := if source.peek == some '#' then source.skipLine else source
    if source.peek.any isBreak then
      skipToWord n { s with
        source := source.skipBreak
        keyAllowed := s.keyAllowed || !s.flow }
    else { s with source }

/-! ### Words -/

def closeAll? (s : Scanner) : Option Scanner := do
  return { ← (s.unwind (-1)).dropCandidate? with keyAllowed := false }

def directive? (s : Scanner) : Option Scanner := do
  let s ← s.closeAll?
  let (token, source) ← readDirective s.source
  return { s.emit token with source }

def marker? (s : Scanner) (t : Token) : Option Scanner := do
  return (← s.closeAll?).emit t |>.skip 3

def flowStart? (s : Scanner) (t : Token) : Option Scanner := do
  let s ← s.saveCandidate?
  return { s.emit t with
    candidate := none
    around := s.candidate :: s.around
    keyAllowed := true } |>.skip 1

def flowEnd? (s : Scanner) (t : Token) : Option Scanner := do
  let s ← s.dropCandidate?
  let s := match s.around with
    | [] => s
    | c :: around => { s with candidate := c, around }
  return { s.emit t with keyAllowed := false } |>.skip 1

def flowEntry? (s : Scanner) : Option Scanner := do
  return { (← s.dropCandidate?).emit .flowEntry with keyAllowed := true }
    |>.skip 1

def blockEntry? (s : Scanner) : Option Scanner :=
  if !s.flow && !s.keyAllowed then none
  else do
    let s ←
      (s.openBlock s.source.column s.tokens.length
        .blockSequenceStart).dropCandidate?
    return { s.emit .blockEntry with keyAllowed := true } |>.skip 1

def key? (s : Scanner) : Option Scanner :=
  if !s.flow && !s.keyAllowed then none
  else do
    let s ←
      (s.openBlock s.source.column s.tokens.length
        .blockMappingStart).dropCandidate?
    return { s.emit .key with keyAllowed := !s.flow } |>.skip 1

def value? (s : Scanner) : Option Scanner :=
  match s.candidate with
  | some c =>
    let s :=
      (s.emitAt c.position .key).openBlock c.column c.position
        .blockMappingStart
    some ({ s.emit .value with candidate := none, keyAllowed := false }.skip 1)
  | none =>
    if !s.flow && !s.keyAllowed then none
    else
      let s := s.openBlock s.source.column s.tokens.length .blockMappingStart
      some ({ s.emit .value with keyAllowed := !s.flow }.skip 1)

def keyWord? (s : Scanner) (read : Source → Option (Token × Source)) :
    Option Scanner := do
  let s ← s.saveCandidate?
  let (token, source) ← read s.source
  return { s.emit token with source, keyAllowed := false }

def quoted? (s : Scanner) (single : Bool) : Option Scanner :=
  s.keyWord? fun source => do
    let (text, source) ← readQuoted single (source.rest.length + 1) []
      (source.skip 1)
    return (.scalar (if single then .singleQuoted else .doubleQuoted) text,
      source)

def block? (s : Scanner) (isLiteral : Bool) : Option Scanner := do
  let s ← s.dropCandidate?
  let (text, source) ← readBlock isLiteral s.indent s.source
  return { s.emit (.scalar (if isLiteral then .literal else .folded) text) with
    source
    keyAllowed := true }

def plain? (s : Scanner) : Option Scanner := do
  let s ← s.saveCandidate?
  let (p, source) ← readPlain s.flow (s.indent + 1) (s.source.rest.length + 1)
    [] {} s.source
  return { s.emit (.scalar .plain p.text) with
    source
    keyAllowed := p.lineEnded }

/-- Whether a plain scalar may start with `c` when `next` follows. -/
def startsPlain (flow : Bool) (c : Char) (next : Option Char) : Bool :=
  let indicator := c == '-' || c == '?' || c == ':' || isFlowIndicator c ||
    c == '#' || c == '&' || c == '*' ||
    c == '!' || c == '|' || c == '>' || c == '\'' || c == '"' || c == '%' ||
      c == '@' || c.toNat == 0x60
  !(isBlank c || isBreak c || indicator) || (c == '-' && !next.any isBlank) ||
    (!flow && (c == '?' || c == ':') && !endsWord next)

def word? (s : Scanner) (c : Char) : Option Scanner :=
  let next := s.source.ahead 1
  if s.source.column == 0 && c == '%' then s.directive?
  else if s.source.atDocumentMarker then
    s.marker? (if c == '-' then .documentStart else .documentEnd)
  else if c == '[' then s.flowStart? .flowSequenceStart
  else if c.toNat == 0x7b then s.flowStart? .flowMappingStart
  else if c == ']' then s.flowEnd? .flowSequenceEnd
  else if c.toNat == 0x7d then s.flowEnd? .flowMappingEnd
  else if c == ',' then s.flowEntry?
  else if c == '-' && endsWord next then s.blockEntry?
  else if c == '?' && (s.flow || endsWord next) then s.key?
  else if c == ':' && (s.flow || endsWord next) then s.value?
  else if c == '*' then s.keyWord? fun source => do
    let (name, source) ← readName source
    return (.alias name, source)
  else if c == '&' then s.keyWord? fun source => do
    let (name, source) ← readName source
    return (.anchor name, source)
  else if c == '!' then s.keyWord? (readTag s.flow)
  else if c == '|' && !s.flow then s.block? true
  else if c == '>' && !s.flow then s.block? false
  else if c == '\'' then s.quoted? true
  else if c == '"' then s.quoted? false
  else if startsPlain s.flow c next then s.plain?
  else none

def words? : Nat → Scanner → Option (List Token)
  | 0, _ => none
  | n + 1, s => do
    let s := skipToWord (s.source.rest.length + 1) s
    let s ← s.dropStale?
    let s := s.unwind s.source.column
    match s.source.peek with
    | none => return ((← s.closeAll?).emit .streamEnd).tokens.reverse
    | some c => words? n (← s.word? c)

end Scanner

def tokens? (text : List Char) : Option (List Token) :=
  if text.all isPrintable then Scanner.words? (text.length + 1)
    { source := { rest := text } } else none

end Terse.Yaml
