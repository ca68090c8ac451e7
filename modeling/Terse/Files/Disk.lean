import Terse.Files.Cause
import Terse.Files.Path
import Terse.Files.Tree

/-!
# Operations on a file tree

Each operation takes a path as text, walks it from the working place (or from
the top, if it is absolute) and acts on the tree or reports a cause. Every
directory on the way has to be there; a trailing separator asks the thing itself
to be a directory.

An operation that can fail half way leaves what it has done: `Disk` is the monad
of computations that keep the tree also when they fail.

What stands at the path is the only reason to fail. There are no permissions, no
locks and no links, and there is always room for what is written.
-/

namespace Terse.Files

abbrev Disk (ε : Type) := EStateM ε Tree

def Node.read : Node → Except Cause Bytes
  | .file content => .ok content
  | .directory => .error .isDirectory
  | .device => .ok []

namespace Tree

/-- Follows the names `cs` from `place`, checking that each step leaves from a
directory. What the last step leads to need not be there. -/
def follow (t : Tree) (place : Place) : List Bytes → Except Cause Place
  | [] => .ok place
  | c :: cs =>
    match t.node? place with
    | none => .error .missing
    | some .directory =>
      if c.isEmpty || c == Path.here then t.follow place cs
      else if c == Path.above then t.follow place.dropLast cs
      else t.follow (place ++ [c]) cs
    | some _ => .error .notDirectory

def start (t : Tree) (p : Bytes) : Place :=
  if Path.isAbsolute p then [] else t.cwd

def locate (t : Tree) (p : Bytes) : Except Cause Place :=
  if p.contains 0 then .error .zeroByte
  else if p.isEmpty then .error .missing
  else t.follow (t.start p) (Path.split p)

def find (t : Tree) (p : Bytes) : Except Cause (Place × Node) := do
  let place ← t.locate p
  match t.node? place with
  | none => .error .missing
  | some n => .ok (place, n)

def isFile (t : Tree) (p : Bytes) : Bool :=
  match t.find p with
  | .ok (_, .file _) => true
  | _ => false

def isDirectory (t : Tree) (p : Bytes) : Bool :=
  match t.find p with
  | .ok (_, .directory) => true
  | _ => false

def read (t : Tree) (p : Bytes) : Except Cause Bytes := do
  (← t.find p).2.read

def list (t : Tree) (l : Listing) (p : Bytes) : Except Cause (List Bytes) := do
  match ← t.find p with
  | (place, .directory) => .ok (t.namesBy l place)
  | _ => .error .notDirectory

/-- Where something new would go: a directory that is there, and the name to
give in it. There is no name if the path ends in a dot name or is the top. -/
def site (t : Tree) (p : Bytes) : Except Cause (Place × Option Bytes) := do
  if p.contains 0 then .error .zeroByte
  else if p.isEmpty then .error .missing
  else
    let pieces := ((Path.split p).reverse.dropWhile List.isEmpty).reverse
    let place ← t.follow (t.start p) pieces.dropLast
    match t.node? place with
    | none => .error .missing
    | some .directory =>
      match pieces.getLast? with
      | none => .ok (place, none)
      | some c =>
        .ok (place, if c == Path.here || c == Path.above then none else some c)
    | some _ => .error .notDirectory

def makeDirectory (t : Tree) (p : Bytes) : Except Cause Tree := do
  match ← t.site p with
  | (_, none) => .error .occupied
  | (place, some name) =>
    match t.node? (place ++ [name]) with
    | some _ => .error .occupied
    | none => .ok (t.set (place ++ [name]) .directory)

def write (t : Tree) (p content : Bytes) : Except Cause Tree := do
  match ← t.site p with
  | (_, none) => .error .isDirectory
  | (place, some name) =>
    if p.getLast? == some Path.separator then .error .isDirectory
    else match t.node? (place ++ [name]) with
      | some .directory => .error .isDirectory
      | _ => .ok (t.fill (place ++ [name]) content)

/-- Gives a file or device a new path, in place of one that may be there. -/
def rename (t : Tree) (p q : Bytes) : Except Cause Tree := do
  match ← t.find p with
  | (_, .directory) => .error .isDirectory
  | (place, n) =>
    match ← t.site q with
    | (_, none) => .error .isDirectory
    | (up, some name) =>
      match t.node? (up ++ [name]) with
      | some .directory => .error .isDirectory
      | _ => .ok ((t.erase place).set (up ++ [name]) n)

def remove (t : Tree) (p : Bytes) : Except Cause Tree := do
  let (place, _) ← t.find p
  .ok (t.erase place)

end Tree

namespace Disk

def change (f : Tree → Except Cause Tree) : Disk Cause Unit := fun t =>
  match f t with
  | .ok t' => .ok () t'
  | .error c => .error c t

def ask {α : Type} (f : Tree → Except Cause α) : Disk Cause α := fun t =>
  match f t with
  | .ok a => .ok a t
  | .error c => .error c t

/-- Makes a directory unless it is there; `ps` are its path and the paths above
it, nearest first. Directories above that are missing are made first, and stay
even if a later one cannot be made. -/
def makeDirectoriesFrom : List Bytes → Disk Cause Unit
  | [] => throw .missing
  | p :: ps => fun t =>
    if p.isEmpty then .ok () t
    else match t.makeDirectory p with
      | .ok t' => .ok () t'
      | .error .missing =>
        match makeDirectoriesFrom ps t with
        | .error c t' => .error c t'
        | .ok _ t' =>
          match t'.makeDirectory p with
          | .ok t'' => .ok () t''
          | .error c => if t'.isDirectory p then .ok () t' else .error c t'
      | .error c => if t.isDirectory p then .ok () t else .error c t

/-- Makes a directory and all that lead to it, unless it is there. -/
def makeDirectories (p : Bytes) : Disk Cause Unit :=
  makeDirectoriesFrom (Path.ancestors p)

end Disk

end Terse.Files
