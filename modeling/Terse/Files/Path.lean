import Terse.Bytes

/-!
# Paths as text

A path is whatever bytes it was given as, and is kept that way: joining adds a
separator only where none is, and nothing is normalised before it is printed.
`parts` is the reading of a path as a list of names; it ignores repeated
separators and dots that name the directory they stand in, except for a leading
one.
-/

namespace Terse.Files.Path

abbrev separator : UInt8 := 0x2f

def here : Bytes := [0x2e]

def above : Bytes := [0x2e, 0x2e]

def isAbsolute (p : Bytes) : Bool := p.head? == some separator

/-- The path `p` seen from `base`. An absolute path is the same from
everywhere. -/
def join (base p : Bytes) : Bytes :=
  if isAbsolute p then p
  else match base.getLast? with
    | none => p
    | some b => if b == separator then base ++ p else base ++ separator :: p

@[simp] theorem join_nil_left (p : Bytes) : join [] p = p := by
  unfold join
  split <;> rfl

/-- The pieces between separators, empty ones included; there is always at least
one. -/
def split : Bytes → List Bytes
  | [] => [[]]
  | b :: s =>
    match split s with
    | [] => [[b]]
    | piece :: pieces =>
      if b == separator then [] :: piece :: pieces else (b :: piece) :: pieces

def parts (p : Bytes) : List Bytes :=
  match split p with
  | [] => []
  | first :: rest =>
    (if first.isEmpty then [] else [first]) ++
      rest.filter fun c => !c.isEmpty && c != here

def ofParts (absolute : Bool) (names : List Bytes) : Bytes :=
  (if absolute then [separator] else []) ++ [separator].intercalate names

/-- The paths of the directories above, nearest first, for names given last one
first. -/
def aboveParts (absolute : Bool) : List Bytes → List Bytes
  | [] => []
  | _ :: names => ofParts absolute names.reverse :: aboveParts absolute names

/-- The path itself and then the paths of the directories above it, nearest
first. -/
def ancestors (p : Bytes) : List Bytes :=
  p :: aboveParts (isAbsolute p) (parts p).reverse

def parent? (p : Bytes) : Option Bytes :=
  (aboveParts (isAbsolute p) (parts p).reverse).head?

def fileName? (p : Bytes) : Option Bytes :=
  match (parts p).getLast? with
  | none => none
  | some c => if c == above || c == here then none else some c

def withFileName (p name : Bytes) : Bytes :=
  match fileName? p, parent? p with
  | some _, some up => join up name
  | _, _ => join p name

/-- What follows the last dot of a name. A name that has no dot, or only the one
it starts with, has no extension. -/
def extension? (name : Bytes) : Option Bytes :=
  let after := name.reverse.takeWhile (· != 0x2e)
  if after.length + 1 < name.length && name != above then
    some after.reverse else none

end Terse.Files.Path
