import Terse.Failure
import Terse.Files.Disk
import Terse.Store.EntryFormat

/-!
# The store of outputs

A store is a directory. The output for a key is kept in the directory named by
the key's shard, in a file named by the whole key, and beside it stands the
entry that describes it. Files are written under a name of the writer's own
first and then renamed, so nobody ever finds a file half written under its
proper name.

`clear` takes away exactly the directories whose names are two hexadecimal
digits, which is where outputs of derived keys are; `entries` looks into every
directory, whatever its name. Both are cases of an operation that takes the
directories in the order they happen to be listed in. They are found by their
paths, one at a time, so a store whose own path leads through one of its shards
is out of reach once that shard is gone.
-/

namespace Terse

open Files

/-- Who writes, and when: the number keeps the names of temporary files apart,
the time goes into entries. -/
structure Writer where
  id : Nat
  now : String
  deriving DecidableEq, Repr

/-- A directory of stored outputs, as used by one writer. -/
structure Store where
  root : Bytes
  writer : Writer
  deriving DecidableEq, Repr

namespace Store

def outputExtension : Bytes := Bytes.ofAscii "js"

def entryExtension : Bytes := Bytes.ofAscii "json"

def shardPath (s : Store) (shard : Bytes) : Bytes := Path.join s.root shard

def filePath (s : Store) (shard : Bytes) (k : Key) (extension : Bytes) :
    Bytes :=
  Path.join (s.shardPath shard) (k.bytes ++ 0x2e :: extension)

def path? (s : Store) (k : Key) : Option Bytes :=
  k.shard?.map fun shard => s.filePath shard k outputExtension

/-! ### Looking up -/

def contains? (s : Store) (t : Tree) (k : Key) : Option Bool :=
  (s.path? k).map t.isFile

def get (s : Store) (t : Tree) (k : Key) : Except Failure (Option Bytes) :=
  match s.path? k with
  | none => .error (.shardless k)
  | some p =>
    if t.isFile p then
      match t.read p with
      | .ok content => .ok (some content)
      | .error c => .error (.file c)
    else .ok none

/-! ### Writing -/

def create (w : Writer) (root : Bytes) : Disk Failure Store := do
  EStateM.adaptExcept (fun c => Failure.store
    ("cannot create cache directory " ++ Text.Utf8.display root ++
      ": " ++ c.message))
    (Disk.makeDirectories root)
  return { root, writer := w }

def temporaryName (w : Writer) (name : Bytes) : Bytes :=
  name ++ 0x2e :: Bytes.ofAscii (toString w.id) ++ Bytes.ofAscii ".tmp"

/-- Writes a file so that it appears under its name only when complete. If the
last step fails, the file stays under its temporary name. -/
def writeWhole (w : Writer) (p content : Bytes) : Disk Cause Unit := do
  let temporary :=
    Path.withFileName p (temporaryName w ((Path.fileName? p).getD []))
  Disk.change (·.write temporary content)
  Disk.change (·.rename temporary p)

/-- Stores an output and its entry, and tells where the output is. -/
def put (s : Store) (k : Key) (sourceLength : Nat) (output : Bytes) :
    Disk Failure Bytes :=
  match k.shard? with
  | none => throw (.shardless k)
  | some shard => do
    let entry : Entry :=
      { key := k, sourceLength, outputLength := output.length,
        createdAt := s.writer.now }
    EStateM.adaptExcept Failure.file do
      Disk.makeDirectories (s.shardPath shard)
      writeWhole s.writer (s.filePath shard k outputExtension) output
      writeWhole s.writer (s.filePath shard k entryExtension) entry.render
    return s.filePath shard k outputExtension

/-! ### The whole store -/

def entryAt? (t : Tree) (directory name : Bytes) : Option Entry :=
  if Path.extension? name == some entryExtension then
    match t.read (Path.join directory name) with
    | .ok content => Entry.parse? content
    | .error _ => none
  else none

/-- The entries in the files of one directory; a file that holds none is passed
over. -/
def entriesIn (l : Listing) (t : Tree) (directory : Bytes) :
    Except Cause (List Entry) := do
  let names ← t.list l directory
  return names.filterMap (entryAt? t directory)

def entriesBy (s : Store) (l : Listing) (t : Tree) :
    Except Failure (List Entry) :=
  let collected : Except Cause (List (List Entry)) := do
    let names ← t.list l s.root
    (names.filter fun name => t.isDirectory (Path.join s.root name)).mapM
      fun name =>
      entriesIn l t (Path.join s.root name)
  match collected with
  | .ok found => .ok (found.flatten.mergeSort fun a b => a.key.le b.key)
  | .error c => .error (.file c)

def entries (s : Store) (t : Tree) : Except Failure (List Entry) :=
  s.entriesBy .byName t

def isHexDigit (b : UInt8) : Bool :=
  (0x30 ≤ b && b ≤ 0x39) || (0x61 ≤ b && b ≤ 0x66) || (0x41 ≤ b && b ≤ 0x46)

/-- Whether a directory of this name holds outputs of derived keys. -/
def isShardName (name : Bytes) : Bool := name.length == 2 && name.all isHexDigit

def outputsIn (l : Listing) (t : Tree) (p : Place) : List Bytes :=
  (t.namesBy l p).filter fun name => Path.extension? name ==
    some outputExtension

/-- Takes away the shard of this name, if there is one, and counts the outputs
that were in it. -/
def clearShard (s : Store) (l : Listing) (t : Tree) (name : Bytes) :
    Nat × Tree :=
  if isShardName name then
    match t.find (s.shardPath name) with
    | .ok (p, .directory) => ((outputsIn l t p).length, t.erase p)
    | _ => (0, t)
  else (0, t)

def clearShards (s : Store) (l : Listing) : List Bytes → Tree → Nat × Tree
  | [], t => (0, t)
  | name :: names, t =>
    let first := s.clearShard l t name
    let others := s.clearShards l names first.2
    (first.1 + others.1, others.2)

/-- Takes away all shards, and counts the outputs that were in them. -/
def clearBy (s : Store) (l : Listing) : Disk Failure Nat := fun t =>
  match t.list l s.root with
  | .error c => .error (.file c) t
  | .ok names =>
    let cleared := s.clearShards l names t
    .ok cleared.1 cleared.2

def clear (s : Store) : Disk Failure Nat := s.clearBy .byName

end Store

end Terse
