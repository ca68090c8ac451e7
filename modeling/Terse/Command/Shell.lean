import Terse.Command.Arguments
import Terse.Command.Confirmation
import Terse.Command.Diagnosis
import Terse.Job
import Terse.Report.Notice
import Terse.Settings.Document

/-!
# Running commands

A command sees a host: a file tree, an environment, and the three standard
streams. It is a computation that changes the host and may give up with a
diagnosis; what it has done and printed until then stays.
-/

namespace Terse.Command

open Files Report

/-- Where a command runs. -/
structure Host where
  tree : Tree
  environment : Environment
  writer : Writer
  /-- What is left to read from the standard input. -/
  input : Bytes := []
  /-- What was written to the standard output. -/
  output : Bytes := []
  /-- What was written to the standard error. -/
  messages : Bytes := []

abbrev Shell := EStateM Diagnosis Host

namespace Shell

def disk {ε α : Type} (f : ε → Diagnosis) (x : Disk ε α) : Shell α := fun h =>
  match x h.tree with
  | .ok a t => .ok a { h with tree := t }
  | .error e t => .error (f e) { h with tree := t }

def ofFailure (f : Failure) : Diagnosis := { trouble := .failure f }

/-- The diagnosis for a file operation that failed while doing something. -/
def ofCause (context : String) (c : Cause) : Diagnosis :=
  { trouble := .file c, contexts := [context] }

def print (s : Bytes) : Shell Unit :=
  modify fun h => { h with output := h.output ++ s }

def warn (s : String) : Shell Unit :=
  modify fun h => { h with messages := h.messages ++ Bytes.ofString s }

def notify (quiet : Bool) (n : Notice) (text : String) : Shell Unit :=
  if quiet then pure () else warn (n.render false text)

/-! ### Settings -/

def readSettings (p : Bytes) : Shell Settings := do
  let content ← disk
    (ofCause ("Failed to read config file " ++ Text.Utf8.display p))
    (Disk.ask (·.read p))
  match Text.Utf8.toString? content with
  | none =>
    throw { trouble := .notText
            contexts := ["Failed to read config file " ++ Text.Utf8.display p] }
  | some text =>
    match Settings.ofDocument? text with
    | none =>
      throw
        { trouble := .malformed
          contexts := ["Failed to parse config file " ++ Text.Utf8.display p] }
    | some s => return s

/-- The defaults, with the settings of a file laid over them if one is named. -/
def loadSettings (p : Option Bytes) : Shell Settings :=
  match p with
  | none => return Settings.default.merged none
  | some p => return Settings.default.merged (some (← readSettings p))

def requestedSettings (r : MinifyRequest) : Settings where
  dryRun := if r.dryRun then some true else none
  suppressResult := if r.suppressResult then some true else none
  cacheEnabled := if r.noCache then some false else none
  cacheDirectory := r.cacheDirectory
  regexAfterKeywords := if r.regexAfterKeywords then some true else none

/-! ### Minifying -/

def readSource (p : Option Bytes) : Shell Bytes :=
  match p with
  | some p =>
    disk (ofCause ("Failed to read input file " ++ Text.Utf8.display p))
      (Disk.ask (·.read p))
  | none => fun h => .ok h.input { h with input := [] }

/-- Delivers an outcome: to the file named, or to the standard output. Of a
suppressed result only the path is printed. -/
def deliver (o : Outcome) (target : Option Bytes) (quiet : Bool) : Shell Unit :=
  match o.payload, target with
  | some text, some p => do
    disk (ofCause ("Failed to write output file " ++ Text.Utf8.display p))
      (Disk.change (·.write p text))
    notify quiet .success ("Minified output written to " ++ Text.Utf8.display p)
  | some text, none => print text
  | none, target => do
    match o.storedAt with
    | some p => print (Bytes.ofString (Text.Utf8.display p ++ "\n"))
    | none => pure ()
    if target.isSome then
      notify quiet .info "Result suppressed; the output file was not written."

def summary (j : Job) (o : Outcome) : Summary where
  engine := j.engine.name
  sourceLength := o.sourceLength
  outputLength := o.outputLength
  key := o.key
  usage := o.usage

def runJob (j : Job) (source : Bytes) (target : Option Bytes)
    (stats quiet : Bool) : Shell Outcome := do
  let o ← disk ofFailure (j.run source)
  deliver o target quiet
  if stats then warn (summary j o).table.render
  return o

def minify (r : MinifyRequest) (quiet : Bool) : Shell Unit := do
  let settings := (requestedSettings r).laidOver (← loadSettings r.config)
  let h ← get
  let job ← disk ofFailure (Job.ofSettings h.writer h.environment settings)
  let source ← readSource r.inputFile
  let o ← runJob job source r.output r.stats quiet
  if o.hit then notify quiet .info "Served from cache."

/-! ### Looking after the store -/

/-- The directory a `cache` command is about. A directory that is named makes it
needless to read settings. -/
def cacheDirectory (location : Location) : Shell Bytes :=
  match location.cacheDirectory with
  | some p => return p
  | none => do
    let settings ← loadSettings location.config
    match settings.cacheDirectory? (← get).environment with
    | some p => return p
    | none =>
      throw { trouble := .plain ("No cache directory is available on this " ++
        "platform; pass --cache-dir.") }

def openStore (location : Location) : Shell Store := do
  let root ← cacheDirectory location
  disk ofFailure (Store.create (← get).writer root)

def cachePath (location : Location) : Shell Unit := do
  print (Bytes.ofString (Text.Utf8.display (← cacheDirectory location) ++ "\n"))

def cacheList (location : Location) (quiet : Bool) : Shell Unit := do
  let store ← openStore location
  match store.entries (← get).tree with
  | .error f => throw (ofFailure f)
  | .ok [] =>
    notify quiet .info ("Cache at " ++ Text.Utf8.display store.root ++
      " is empty.")
  | .ok entries => print (Bytes.ofString (listing entries).render)

/-- Asks a question on the standard error and reads the answer from the standard
input. -/
def confirm (question : String) : Shell Bool := do
  warn (prompt question)
  let h ← get
  let (line, rest) := firstLine h.input
  set { h with input := rest }
  match answer? line with
  | some answer => return answer
  | none =>
    throw { trouble := .notText, contexts := ["Failed to read confirmation"] }

def cacheClear (location : Location) (yes quiet : Bool) : Shell Unit := do
  let store ← openStore location
  let agreed ← if yes then pure true
    else confirm ("Remove every cached output under " ++
      Text.Utf8.display store.root ++ "?")
  if agreed then
    let removed ← disk ofFailure store.clear
    notify quiet .success ("Removed " ++ toString removed ++
      " cached output(s).")
  else notify quiet .info "Cache left untouched."

/-! ### The whole program -/

def run (i : Invocation) : Shell Unit :=
  match i.request with
  | .minify r => minify r i.quiet
  | .cachePath location => cachePath location
  | .cacheList location => cacheList location i.quiet
  | .cacheClear location yes => cacheClear location yes i.quiet

/-- Runs a command; a diagnosis is shown even if nothing else is. Gives the exit
status and the host left behind. -/
def execute (i : Invocation) (h : Host) : Nat × Host :=
  match run i h with
  | .ok _ h => (0, h)
  | .error d h =>
    (d.exitStatus,
      { h with
        messages :=
          h.messages ++ Bytes.ofString (Notice.error.render false d.text) })

end Shell

end Terse.Command
