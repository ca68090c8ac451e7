import Std.Time
import Terse.Command.Shell

/-!
# The program

The outer layer: it looks at the part of the disk that a command is about, runs
the command on that picture, and carries out on the disk what has changed. What
a command does is decided in `Terse.Command.Shell`.
-/

namespace Terse.Program

open Files Command

def placeOf (cwd : Place) (p : Bytes) : Place :=
  (Path.split p).foldl
    (fun place name =>
      if name.isEmpty || name == Path.here then place
      else if name == Path.above then place.dropLast
      else place ++ [name])
    (if Path.isAbsolute p then [] else cwd)

def pathOf (p : Place) : String := Text.Utf8.display (Path.ofParts true p)

/-- Takes what is at a place into the picture, and `depth` levels below it. -/
def look (place : Place) : Nat → Tree → IO Tree
  | depth, t => do
    let path := (← IO.currentDir) / pathOf place
    if ← path.isDir then
      let t := if place.isEmpty then t else t.set place .directory
      match depth with
      | 0 => return t
      | depth + 1 =>
        (← path.readDir).foldlM
          (fun t e => look (place ++ [Bytes.ofString e.fileName]) depth t) t
    else if ← path.pathExists then
      match (← path.metadata).type with
      | .file => return t.set place (.file (← IO.FS.readBinFile path).toList)
      | _ => return t.set place .device
    else return t

def lookAt (p : Bytes) (depth : Nat) (t : Tree) : IO Tree := do
  let t ← ((Path.ancestors p).drop 1).foldlM
    (fun t up => look (placeOf t.cwd up) 0 t) t
  look (placeOf t.cwd p) depth t

def carryOut (w : Writer) (before : Tree) (place : Place) (n : Node) :
    IO Unit := do
  let path := pathOf place
  match n with
  | .directory => IO.FS.createDirAll path
  | .file content =>
    let data : ByteArray := ⟨content.toArray⟩
    if (before.node? place).isSome then IO.FS.writeBinFile path data
    else
      -- a new file appears under its name only when it is complete
      let temporary := path ++ "." ++ toString w.id ++ ".tmp"
      IO.FS.writeBinFile temporary data
      IO.FS.rename temporary path
  | .device => pure ()

/-- Makes the disk agree with the picture `after`, given that it agreed with
`before`. -/
def commit (w : Writer) (before after : Tree) : IO Unit := do
  let byDepth (nodes : List (Place × Node)) :=
    nodes.mergeSort fun a b => a.1.length ≤ b.1.length
  for (place, _) in byDepth before.nodes do
    if (after.node? place).isNone then
      let path := (← IO.currentDir) / pathOf place
      if ← path.isDir then IO.FS.removeDirAll path
      else if ← path.pathExists then IO.FS.removeFile path
  for (place, n) in byDepth after.nodes do
    if before.node? place != some n then carryOut w before place n

def readVariable (name : String) : IO (Option Bytes) :=
  return (← IO.getEnv name).map Bytes.ofString

/-- The home directory on record for the account that the program runs for. -/
def accountHome : IO (Option Bytes) := do
  try
    let status ← IO.FS.lines "/proc/self/status"
    let user? := status.findSome? fun line =>
      match line.splitOn "\t" with
      | "Uid:" :: user :: _ => some user
      | _ => none
    let accounts ← IO.FS.lines "/etc/passwd"
    return accounts.findSome? fun line =>
      match line.splitOn ":" with
      | [_, _, user, _, _, home, _] =>
        if some user = user? then some (Bytes.ofString home) else none
      | _ => none
  catch _ => return none

/-- All that a stream has, in at most the given number of pieces. -/
def readAll (s : IO.FS.Stream) : Nat → ByteArray → IO ByteArray
  | 0, data => return data
  | n + 1, data => do
    let chunk ← s.read 65536
    if chunk.isEmpty then return data else readAll s n (data ++ chunk)

/-- The files a request names, and the directory it keeps its store in. -/
def paths (r : Request) : List Bytes × Location :=
  match r with
  | .minify m =>
    ([m.inputFile, m.output, m.config].filterMap id,
      ⟨m.cacheDirectory, m.config⟩)
  | .cachePath location | .cacheList location | .cacheClear location _ =>
    (location.config.toList, location)

def needsInput (r : Request) : Bool :=
  match r with
  | .minify m => m.inputFile.isNone
  | .cacheClear _ yes => !yes
  | _ => false

def now : IO String := do
  let t := Std.Time.DateTime.ofTimestamp (← Std.Time.Timestamp.now)
    Std.Time.TimeZone.ZoneRules.UTC
  return t.format "uuuu-MM-dd'T'HH:mm:ss.SSSSSSSSSxxx"

def usage : String :=
  "Usage: jsqueeze [-q] [-d] [--disable-debug] minify [-i FILE] [-o FILE] " ++
  "[--config FILE] [--cache-dir DIR]\n" ++
  "                [--dry-run] [--no-cache] [--suppress-result] " ++
  "[--regex-after-keywords] [--stats]\n" ++
  "       jsqueeze cache path|list|clear [--cache-dir DIR] [--config FILE] " ++
  "[-y]\n"

def refuse (r : Refusal) : IO Nat := do
  match r with
  | .helpWanted => IO.print usage
  | .versionWanted => IO.println "jsqueeze 0.1.0"
  | _ => IO.eprint usage
  return r.exitStatus

def perform (i : Invocation) : IO Nat := do
  let writer : Writer := { id := ← IO.rand 1 999999, now := ← now }
  let cwd := placeOf [] (Bytes.ofString (← IO.currentDir).toString)
  let environment : Environment :=
    { cacheDirectory := ← readVariable "JSQUEEZE_CACHE_DIR"
      userCaches := ← readVariable "XDG_CACHE_HOME"
      home := ← readVariable "HOME"
      accountHome := ← accountHome }
  let (files, location) := paths i.request
  let tree ← look cwd 0 { cwd }
  let tree ← files.foldlM (fun t p => lookAt p 0 t) tree
  let host : Host := { tree, environment, writer }
  let tree ← match Shell.cacheDirectory location host with
    | .ok root _ => lookAt root 2 tree
    | .error _ _ => pure tree
  let input ← if needsInput i.request then
      readAll (← IO.getStdin) 0x100000000 .empty
    else pure .empty
  let (status, after) :=
    Shell.execute i { host with tree, input := input.toList }
  commit writer tree after.tree
  let out ← IO.getStdout
  out.write ⟨after.output.toArray⟩
  out.flush
  (← IO.getStderr).write ⟨after.messages.toArray⟩
  return status

end Terse.Program

def main (args : List String) : IO UInt32 := do
  let words := args.map Terse.Bytes.ofString
  let status ← match Terse.Command.Invocation.ofWords words with
    | .error r => Terse.Program.refuse r
    | .ok i => Terse.Program.perform i
  return UInt32.ofNat status
