import Terse.Yaml.Scanner

/-!
# YAML nodes

A document is a tree of scalars, sequences and mappings. An anchor gives a node
a number under which aliases refer to it; an alias is a leaf, also where it
stands inside the node it refers to, so the tree is finite.

The parser reads the tokens from left to right. Its recursion is bounded by the
number of moves, which is taken from the number of tokens: every move but a
fixed number for each token takes one.
-/

namespace Terse.Yaml

inductive Node where
  | scalar (style : Style) (tag : Option Bytes) (text : List Char)
  | sequence (items : List Node)
  | mapping (members : List (Node × Node))
  | alias (target : Nat)

def Node.empty : Node := .scalar .plain none []

/-- A node together with the nodes its aliases refer to. -/
structure Document where
  root : Node
  anchored : List (Nat × Node)

def Document.resolve (d : Document) : Node → Option Node
  | .alias target => d.anchored.lookup target
  | n => some n

namespace Node

/-- What the parser goes by: the tokens to come, the tag handles of the
document, and its anchors. -/
structure Reading where
  tokens : List Token
  handles : List (List Char × Bytes) := []
  /-- The names of anchors, each with the number that an alias of that name
  refers to. -/
  names : List (List Char × Nat) := []
  /-- The numbers in the order they were given out, newest first; a number may
  be given out again. -/
  numbers : List Nat := []
  /-- The nodes that have been read, by how many numbers had been given out
  before theirs. -/
  anchored : List (Nat × Node) := []

abbrev Reader := StateT Reading Option

/-! ### Single tokens -/

def peek : Reader Token := do
  match (← get).tokens with
  | t :: _ => return t
  | [] => failure

def advance : Reader Unit :=
  modify fun r => { r with tokens := r.tokens.drop 1 }

def accept (t : Token) : Reader Bool := do
  if (← peek) == t then
    advance
    return true
  else return false

def atAny (ts : List Token) : Reader Bool := return ts.contains (← peek)

/-! ### Properties of a node -/

structure Properties where
  anchor : Option (List Char) := none
  tag : Option Bytes := none

def expandTag (handle : List Char) (suffix : Bytes) : Reader Bytes := do
  if handle.isEmpty then return suffix
  else match (← get).handles.lookup handle with
    | some expansion => return expansion ++ suffix
    | none => failure

def takeAnchor (p : Properties) : Reader Properties := do
  match ← peek with
  | .anchor name =>
    advance
    return { p with anchor := some name }
  | _ => return p

def takeTag (p : Properties) : Reader Properties := do
  match ← peek with
  | .tag handle suffix =>
    advance
    return { p with tag := some (← expandTag handle suffix) }
  | _ => return p

def takeProperties : Reader Properties := do
  let p ← takeAnchor {}
  let p ← takeTag p
  if p.anchor.isSome then return p else takeAnchor p

/-- Numbers an anchor by how many names there are. A name that is given anew
adds none, so the next new name is numbered alike. -/
def declare (name : List Char) : Reader Nat := do
  let r ← get
  let number := r.names.length
  set { r with
    names := (name, number) :: r.names.filter (·.1 != name)
    numbers := number :: r.numbers }
  return r.numbers.length

/-- Reads the content of a node after its anchor has been numbered, and keeps
it. -/
def keep (p : Properties) (content : Reader Node) : Reader Node := do
  match p.anchor with
  | none => content
  | some name =>
    let position ← declare name
    let n ← content
    modify fun r => { r with anchored := (position, n) :: r.anchored }
    return n

/-- The nodes by number. Of those that share a number the last to start is
meant. -/
def Reading.byNumber (r : Reading) : List (Nat × Node) :=
  (r.numbers.reverse.zipIdx.reverse).filterMap fun (number, position) =>
    (r.anchored.lookup position).map (number, ·)

def scalarTag (tag : Option Bytes) : Option Bytes :=
  tag.filter (· != Bytes.ofAscii "!")

/-! ### Nodes -/

mutual

/-- Reads a node. In a block mapping a sequence may stand at the column of the
mapping, and then has no tokens to start and end it. -/
def node (n : Nat) (inBlock indentless : Bool) : Reader Node :=
  match n with
  | 0 => failure
  | n + 1 => do
    match ← peek with
    | .alias name =>
      advance
      match (← get).names.lookup name with
      | some target => return .alias target
      | none => failure
    | _ =>
      let p ← takeProperties
      keep p do
        match ← peek with
        | .blockEntry =>
          if indentless then return .sequence (← bareSequence n) else missing p
        | .scalar style text =>
          advance
          return .scalar style (scalarTag p.tag) text
        | .flowSequenceStart =>
          advance
          return .sequence (← flowSequence n true)
        | .flowMappingStart =>
          advance
          return .mapping (← flowMapping n true)
        | .blockSequenceStart =>
          if inBlock then
            advance
            return .sequence (← blockSequence n)
          else missing p
        | .blockMappingStart =>
          if inBlock then
            advance
            return .mapping (← blockMapping n)
          else missing p
        | _ => missing p
where
  /-- A node may be left out if it has an anchor or a tag. -/
  missing (p : Properties) : Reader Node :=
    if p.anchor.isSome || p.tag.isSome then return .scalar .plain p.tag []
    else failure

/-- Reads a node, or nothing if one of the tokens `ends` comes next. -/
def nodeUnless (n : Nat) (ends : List Token) (inBlock indentless : Bool) :
    Reader Node :=
  match n with
  | 0 => failure
  | n + 1 =>
    do if ← atAny ends then return .empty else node n inBlock indentless

def blockSequence (n : Nat) : Reader (List Node) :=
  match n with
  | 0 => failure
  | n + 1 => do
    if ← accept .blockEntry then
      let item ← nodeUnless n [.blockEntry, .blockEnd] true false
      return item :: (← blockSequence n)
    else if ← accept .blockEnd then return []
    else failure

def bareSequence (n : Nat) : Reader (List Node) :=
  match n with
  | 0 => failure
  | n + 1 => do
    if ← accept .blockEntry then
      let item ← nodeUnless n [.blockEntry, .key, .value, .blockEnd] true false
      return item :: (← bareSequence n)
    else return []

def blockMapping (n : Nat) : Reader (List (Node × Node)) :=
  match n with
  | 0 => failure
  | n + 1 => do
    if ← accept .key then
      let k ← nodeUnless n [.key, .value, .blockEnd] true true
      let v ← if ← accept .value then
        nodeUnless n [.key, .value, .blockEnd] true true else pure .empty
      return (k, v) :: (← blockMapping n)
    else if ← accept .blockEnd then return []
    else failure

def flowSequence (n : Nat) (first : Bool) : Reader (List Node) :=
  match n with
  | 0 => failure
  | n + 1 => do
    if ← accept .flowSequenceEnd then return []
    else
      if !first then if !(← accept .flowEntry) then failure
      if ← accept .key then
        let item ← flowPair n
        return item :: (← flowSequence n false)
      else if ← accept .flowSequenceEnd then return []
      else
        let item ← node n false false
        return item :: (← flowSequence n false)

/-- Reads a mapping of one member inside a flow sequence, after the mark of its
key. Where the key is left out, the token that shows it is taken as well. -/
def flowPair (n : Nat) : Reader Node :=
  match n with
  | 0 => failure
  | n + 1 => do
    let k ←
      if ← atAny [.value, .flowEntry, .flowSequenceEnd] then
        advance
        pure .empty
      else node n false false
    let v ←
      if ← accept .value then
        nodeUnless n [.flowEntry, .flowSequenceEnd] false false
      else pure .empty
    return .mapping [(k, v)]

def flowMapping (n : Nat) (first : Bool) : Reader (List (Node × Node)) :=
  match n with
  | 0 => failure
  | n + 1 => do
    if ← accept .flowMappingEnd then return []
    else
      if !first then if !(← accept .flowEntry) then failure
      if ← accept .key then
        let k ← nodeUnless n [.value, .flowEntry, .flowMappingEnd] false false
        let v ←
          if ← accept .value then
            nodeUnless n [.flowEntry, .flowMappingEnd] false false
          else pure .empty
        return (k, v) :: (← flowMapping n false)
      else if ← accept .flowMappingEnd then return []
      else
        let k ← node n false false
        return (k, .empty) :: (← flowMapping n false)

end

/-! ### Documents -/

def standardHandles : List (List Char × Bytes) :=
  [(['!'], Bytes.ofAscii "!"), (['!', '!'], Bytes.ofAscii "tag:yaml.org,2002:")]

/-- Reads the directives before a document. At most one may tell the version,
and only a version that is understood; a handle may be given one meaning. -/
def directives :
    Nat → Bool → List (List Char × Bytes) →
      Reader (Bool × List (List Char × Bytes))
  | 0, _, _ => failure
  | n + 1, versioned, handles => do
    match ← peek with
    | .version major minor =>
      if versioned || major != 1 || (minor != 1 && minor != 2) then failure
      advance
      directives n true handles
    | .tagHandle handle expansion =>
      if (handles.lookup handle).isSome then failure
      advance
      directives n versioned ((handle, expansion) :: handles)
    | _ => return (versioned, handles)

def stream (n : Nat) : Reader (Option Node) := do
  let (versioned, handles) ← directives n false []
  let marked := versioned || !handles.isEmpty
  modify fun r => { r with handles := handles ++ standardHandles }
  if marked || (← peek) == .documentStart then
    if !(← accept .documentStart) then failure
    let root ← nodeUnless n [.documentStart, .documentEnd,
      .streamEnd] true false
    finish n root
  else if (← peek) == .streamEnd then return none
  else finish n (← node n true false)
where
  /-- After a document only end markers may come. -/
  finish (n : Nat) (root : Node) : Reader (Option Node) :=
    match n with
    | 0 => failure
    | n + 1 => do
      if ← accept .documentEnd then finish n root
      else if (← peek) == .streamEnd then return some root
      else failure

end Node

/-- The document in a text; `some none` if the text holds none. A text with more
than one document is not understood. -/
def document? (text : List Char) : Option (Option Document) := do
  let tokens ← tokens? text
  let (root, r) ← (Node.stream (4 * tokens.length + 8)).run { tokens }
  return root.map fun root => { root, anchored := r.byNumber }

end Terse.Yaml
