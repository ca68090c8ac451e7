import Terse.Text.Utf8

/-!
# The command line

The words after the program's name are read level by level: the program itself,
then the command, then for `cache` what to do with it. Each level understands
its own switches, and the three switches for verbosity are understood on every
level. A switch may be given once on a level.

A switch that takes a value is held back (`Held`) until the next switch, so that
a missing value is noticed when something else comes in its place. After the
word `--` nothing is a switch or a command any more.

The first word that cannot be understood decides what is reported, and a request
for help counts as such a word.
-/

namespace Terse.Command

inductive Level where
  | program
  | minify
  | cache
  | cachePath
  | cacheList
  | cacheClear
  deriving DecidableEq, Repr

inductive Switch where
  | quiet
  | debug
  | disableDebug
  | help
  | version
  | inputFile
  | output
  | config
  | cacheDirectory
  | dryRun
  | noCache
  | suppressResult
  | regexAfterKeywords
  | stats
  | yes
  deriving DecidableEq, Repr

/-- Why the words could not be taken as a command. -/
inductive Refusal where
  | unknownArgument
  | invalidSubcommand
  | missingSubcommand
  | invalidValue
  | tooManyValues
  | conflict
  | helpWanted
  | versionWanted
  /-- Nothing was asked for where something is needed. -/
  | nothingGiven
  deriving DecidableEq, Repr

def Refusal.exitStatus : Refusal → Nat
  | .helpWanted | .versionWanted => 0
  | _ => 2

namespace Switch

def long : Switch → String
  | .quiet => "quiet"
  | .debug => "debug"
  | .disableDebug => "disable-debug"
  | .help => "help"
  | .version => "version"
  | .inputFile => "input-file"
  | .output => "output"
  | .config => "config"
  | .cacheDirectory => "cache-dir"
  | .dryRun => "dry-run"
  | .noCache => "no-cache"
  | .suppressResult => "suppress-result"
  | .regexAfterKeywords => "regex-after-keywords"
  | .stats => "stats"
  | .yes => "yes"

def short? : Switch → Option Char
  | .quiet => some 'q'
  | .debug => some 'd'
  | .help => some 'h'
  | .version => some 'V'
  | .inputFile => some 'i'
  | .output => some 'o'
  | .yes => some 'y'
  | _ => none

def takesValue : Switch → Bool
  | .inputFile | .output | .config | .cacheDirectory => true
  | _ => false

end Switch

namespace Level

/-- The switches a level understands besides the ones for verbosity and help. -/
def ownSwitches : Level → List Switch
  | .program => [.version]
  | .minify =>
    [.inputFile, .output, .config, .dryRun, .noCache, .cacheDirectory,
      .suppressResult,
      .regexAfterKeywords, .stats]
  | .cache => []
  | .cachePath | .cacheList => [.cacheDirectory, .config]
  | .cacheClear => [.cacheDirectory, .config, .yes]

def switches (l : Level) : List Switch :=
  [.quiet, .debug, .disableDebug, .help] ++ l.ownSwitches

/-- The commands a level leads to. A level that leads to any also understands
`help`. -/
def commands : Level → List (String × Level)
  | .program => [("minify", .minify), ("cache", .cache)]
  | .cache =>
    [("path", .cachePath), ("list", .cacheList), ("clear", .cacheClear)]
  | _ => []

def longSwitch? (l : Level) (name : String) : Option Switch :=
  l.switches.find? (·.long == name)

def shortSwitch? (l : Level) (c : Char) : Option Switch :=
  l.switches.find? (·.short? == some c)

def command? (l : Level) (word : Bytes) : Option Level :=
  (l.commands.find? fun e => Bytes.ofAscii e.1 == word).map (·.2)

def isHelpWord (l : Level) (word : Bytes) : Bool :=
  !l.commands.isEmpty && word == Bytes.ofAscii "help"

end Level

/-! ### Switches of one level -/

abbrev Given := List (Switch × Option Bytes)

/-- A switch whose value is not settled yet: it may still be missing. -/
abbrev Held := Option (Switch × Option Bytes)

def note (g : Given) (s : Switch) (value : Option Bytes) :
    Except Refusal Given :=
  if s = .help then .error .helpWanted
  else if s = .version then .error .versionWanted
  else if g.any (·.1 == s) then .error .conflict
  else if value == some [] then .error .invalidValue
  else .ok ((s, value) :: g)

def release (g : Given) : Held → Except Refusal Given
  | none => .ok g
  | some (_, none) => .error .invalidValue
  | some (s, some v) => note g s (some v)

def readLong (l : Level) (g : Given) (h : Held) (word : Bytes) :
    Except Refusal (Given × Held) :=
  let name := word.takeWhile (· != 0x3d)
  let value := match word.dropWhile (· != 0x3d) with
    | [] => none
    | _ :: v => some v
  match (Text.Utf8.toString? name).bind l.longSwitch?, value with
  | none, _ => .error .unknownArgument
  | some s, value =>
    if s.takesValue then do
      let g ← release g h
      match value with
      | some v => return (← note g s (some v), none)
      | none => return (g, some (s, none))
    else match value with
      | some _ => .error .tooManyValues
      | none => do return (← note (← release g h) s none, none)

/-- One or more switches written as `-abc`. The first that takes a value takes
the rest of the word, without an equals sign that may stand between. -/
def readShort (l : Level) (g : Given) (h : Held) :
    Bytes → Except Refusal (Given × Held)
  | [] => .ok (g, h)
  | b :: rest =>
    match hn : Text.Utf8.next b rest with
    | (none, _) => .error .unknownArgument
    | (some c, rest') =>
      match l.shortSwitch? c with
      | none => .error .unknownArgument
      | some s =>
        if s.takesValue then do
          let g ← release g h
          match rest' with
          | [] => return (g, some (s, none))
          | 0x3d :: v => return (← note g s (some v), none)
          | v => return (← note g s (some v), none)
        else do
          have shorter : rest'.length ≤ rest.length := by
            have := Text.Utf8.length_next_le b rest
            rwa [hn] at this
          let g ← note (← release g h) s none
          readShort l g none rest'
termination_by s => s.length
decreasing_by exact Nat.lt_succ_of_le shorter

/-! ### All levels -/

/-- What to say to a word that is no switch and that the level has no place
for. -/
def strayWord (l : Level) (afterDashes : Bool) (word : Bytes) : Refusal :=
  if l.commands.isEmpty then .unknownArgument
  else if afterDashes && ((l.command? word).isSome || l.isHelpWord word) then
    .unknownArgument
  else .invalidSubcommand

/-- Follows the words after `help`. All of them have to name commands. -/
def readHelp (l : Level) : List Bytes → Refusal
  | [] => .helpWanted
  | word :: words =>
    match l.command? word with
    | some l' => readHelp l' words
    | none =>
      if l.isHelpWord word && words.isEmpty then
        .helpWanted else .invalidSubcommand

def finish (l : Level) (g : Given) (h : Held) : Except Refusal Given := do
  let g ← release g h
  if l.commands.isEmpty then return g
  else if g.isEmpty then throw .nothingGiven
  else throw .missingSubcommand

/-- Reads the words on level `l` and below. The result lists the levels passed
through, innermost first. -/
def readWords (l : Level) (above : List (Level × Given)) (g : Given) (h : Held)
    (afterDashes : Bool) :
    List Bytes → Except Refusal (List (Level × Given))
  | [] => do return (l, ← finish l g h) :: above
  | word :: words => do
    let waiting := match h with
      | some (_, none) => true
      | _ => false
    if afterDashes then throw (strayWord l true word)
    else
      match if waiting then none else l.command? word with
      | some l' => readWords l' ((l, g) :: above) [] none false words
      | none =>
        if !waiting && l.isHelpWord word then throw (readHelp l words)
        else match word with
          | [0x2d, 0x2d] => readWords l above g h true words
          | 0x2d :: 0x2d :: name => do
            let (g, h) ← readLong l g h name
            readWords l above g h false words
          | 0x2d :: b :: rest => do
            let (g, h) ← readShort l g h (b :: rest)
            readWords l above g h false words
          | _ =>
            match h with
            | some (s, none) =>
              readWords l above g (some (s, some word)) false words
            | _ => throw (strayWord l false word)

/-! ### Commands -/

/-- What `minify` was asked to do. -/
structure MinifyRequest where
  inputFile : Option Bytes := none
  output : Option Bytes := none
  config : Option Bytes := none
  cacheDirectory : Option Bytes := none
  dryRun : Bool := false
  noCache : Bool := false
  suppressResult : Bool := false
  regexAfterKeywords : Bool := false
  stats : Bool := false
  deriving DecidableEq, Repr

/-- Which store a `cache` command is about. -/
structure Location where
  cacheDirectory : Option Bytes := none
  config : Option Bytes := none
  deriving DecidableEq, Repr

inductive Request where
  | minify (r : MinifyRequest)
  | cachePath (location : Location)
  | cacheList (location : Location)
  | cacheClear (location : Location) (yes : Bool)
  deriving DecidableEq, Repr

/-- A command line that was understood. -/
structure Invocation where
  quiet : Bool := false
  debug : Bool := false
  disableDebug : Bool := false
  request : Request
  deriving DecidableEq, Repr

inductive LogLevel where
  | off
  | info
  | debug
  deriving DecidableEq, Repr

def Invocation.logLevel? (i : Invocation) : Option LogLevel :=
  if i.quiet then some .off
  else if i.disableDebug then some .info
  else if i.debug then some .debug
  else none

def Given.has (g : Given) (s : Switch) : Bool := g.any (·.1 == s)

def Given.value? (g : Given) (s : Switch) : Option Bytes := (g.lookup s).join

def Given.location (g : Given) : Location where
  cacheDirectory := g.value? .cacheDirectory
  config := g.value? .config

def Given.minifyRequest (g : Given) : MinifyRequest where
  inputFile := g.value? .inputFile
  output := g.value? .output
  config := g.value? .config
  cacheDirectory := g.value? .cacheDirectory
  dryRun := g.has .dryRun
  noCache := g.has .noCache
  suppressResult := g.has .suppressResult
  regexAfterKeywords := g.has .regexAfterKeywords
  stats := g.has .stats

def Level.request? (l : Level) (g : Given) : Option Request :=
  match l with
  | .minify => some (.minify g.minifyRequest)
  | .cachePath => some (.cachePath g.location)
  | .cacheList => some (.cacheList g.location)
  | .cacheClear => some (.cacheClear g.location (g.has .yes))
  | .program | .cache => none

/-- Reads the words after the program's name. Verbosity may be set on any
level. -/
def Invocation.ofWords (words : List Bytes) : Except Refusal Invocation := do
  match ← readWords .program [] [] none false words with
  | [] => throw .nothingGiven
  | (l, g) :: above =>
    match l.request? g with
    | none => throw .missingSubcommand
    | some request =>
      let all := g ++ above.flatMap (·.2)
      return { quiet := Given.has all .quiet, debug := Given.has all .debug,
               disableDebug := Given.has all .disableDebug, request }

end Terse.Command
