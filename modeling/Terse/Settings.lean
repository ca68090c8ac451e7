import Terse.Files.Path
import Terse.Script.Minify

/-!
# Settings

What a user may ask for. A setting that is not given is `none`, so one set of
settings can be laid over another and the defaults are applied only when a
setting is used. Where the store is kept also depends on the environment.
-/

namespace Terse

structure Settings where
  /-- Pass sources through unchanged. -/
  dryRun : Option Bool := none
  /-- Store the output and do not show it. -/
  suppressResult : Option Bool := none
  cacheEnabled : Option Bool := none
  cacheDirectory : Option Bytes := none
  regexAfterKeywords : Option Bool := none
  deriving DecidableEq, Repr

/-- The variables that are looked at, and what is known of the account. -/
structure Environment where
  cacheDirectory : Option Bytes := none
  userCaches : Option Bytes := none
  home : Option Bytes := none
  /-- The home directory that is on record for the account. -/
  accountHome : Option Bytes := none
  deriving DecidableEq, Repr

namespace Settings

def default : Settings where
  dryRun := some false
  suppressResult := some false
  cacheEnabled := some true
  regexAfterKeywords := some false

def laidOver (s base : Settings) : Settings where
  dryRun := s.dryRun <|> base.dryRun
  suppressResult := s.suppressResult <|> base.suppressResult
  cacheEnabled := s.cacheEnabled <|> base.cacheEnabled
  cacheDirectory := s.cacheDirectory <|> base.cacheDirectory
  regexAfterKeywords := s.regexAfterKeywords <|> base.regexAfterKeywords

def merged (base : Settings) : Option Settings → Settings
  | none => base
  | some s => s.laidOver base

/-! ### Reading a setting -/

def isDryRun (s : Settings) : Bool := s.dryRun.getD false

def suppressesResult (s : Settings) : Bool := s.suppressResult.getD false

def usesCache (s : Settings) : Bool := s.cacheEnabled.getD true

def options (s : Settings) : Script.Options where
  regexAfterKeywords := s.regexAfterKeywords.getD false

/-- The home directory: what the variable for it says, else what is on record
for the account. An empty path is none. -/
def homeDirectory? (env : Environment) : Option Bytes :=
  env.home.filter (!·.isEmpty) <|> env.accountHome.filter (!·.isEmpty)

/-- The directory that user caches are kept in. A relative path in the variable
for it is not to be followed. -/
def userCacheDirectory? (env : Environment) : Option Bytes :=
  env.userCaches.filter Files.Path.isAbsolute <|>
    (homeDirectory? env).map fun p => Files.Path.join p (Bytes.ofAscii ".cache")

/-- Where outputs are stored: where the settings say, else where the environment
says, else with the user's other caches. -/
def cacheDirectory? (s : Settings) (env : Environment) : Option Bytes :=
  s.cacheDirectory <|> env.cacheDirectory.filter (!·.isEmpty) <|>
    (userCacheDirectory? env).map fun p => Files.Path.join p
      (Bytes.ofAscii "jsqueeze")

/-! ### Contradictions -/

inductive Contradiction where
  /-- The result would be neither shown nor stored. -/
  | suppressedWithoutCache
  /-- A dry run stores nothing. -/
  | suppressedDryRun
  deriving DecidableEq, Repr

def Contradiction.message : Contradiction → String
  | .suppressedWithoutCache =>
    "`suppress_result` requires the cache to be enabled; " ++
      "the result would be lost."
  | .suppressedDryRun =>
    "`suppress_result` cannot be combined with `dry_run`; " ++
      "a dry run never writes the cache."

def contradiction? (s : Settings) : Option Contradiction :=
  if s.suppressesResult && !s.usesCache then some .suppressedWithoutCache
  else if s.suppressesResult && s.isDryRun then some .suppressedDryRun
  else none

theorem contradiction?_eq_none_iff (s : Settings) :
    s.contradiction? = none ↔
      (s.suppressesResult = true → s.usesCache = true ∧
        s.isDryRun = false) := by
  unfold contradiction?
  cases s.suppressesResult <;> cases s.usesCache <;> cases s.isDryRun <;> simp

end Settings

end Terse
