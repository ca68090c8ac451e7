import Terse.Engine
import Terse.Report.Summary
import Terse.Store

/-!
# Jobs

A job is an engine with, maybe, a store of its outputs. Running it on a source
first looks for a stored output under the key of the source; only if there is
none is the engine applied, and its output stored. A job may suppress its
result: the output is then stored and the outcome only tells where. Without a
store there is nowhere else to leave the output, so it is given whatever the job
says.
-/

namespace Terse

open Files

structure Job where
  engine : Engine
  store : Option Store := none
  suppress : Bool := false

/-- What became of a source. -/
structure Outcome where
  key : Store.Key
  /-- The output, unless suppressed. -/
  payload : Option Bytes
  /-- Whether the output was found in the store. -/
  hit : Bool
  /-- Where the output is stored. -/
  storedAt : Option Bytes
  sourceLength : Nat
  outputLength : Nat
  deriving DecidableEq, Repr

def Outcome.usage (o : Outcome) : Report.Usage := .of o.storedAt.isSome o.hit

namespace Job

/-- The job that the settings describe. It has a store unless the cache is off
or the run is dry. -/
def ofSettings (w : Writer) (env : Environment) (s : Settings) :
    Disk Failure Job :=
  match s.contradiction? with
  | some c => throw (.settings c.message)
  | none => do
    let job : Job := { engine := .ofSettings s, suppress := s.suppressesResult }
    if s.isDryRun || !s.usesCache then return job
    else match s.cacheDirectory? env with
      | none => throw (.store "no cache directory available on this platform")
      | some root => return { job with store := some (← Store.create w root) }

def activeStore (j : Job) : Option Store :=
  if j.engine.storesOutput then j.store else none

def produce (j : Job) (s : Store) (k : Store.Key) (source : Bytes) :
    Disk Failure Bytes := do
  match j.engine.apply source with
  | .error f => throw f
  | .ok output =>
    let _ ← s.put k source.length output
    return output

def run (j : Job) (source : Bytes) : Disk Failure Outcome := do
  let key := Store.Key.derive j.engine.options source
  match j.activeStore with
  | none =>
    match j.engine.apply source with
    | .error f => throw f
    | .ok output =>
      return { key
               payload := some output
               hit := false
               storedAt := none
               sourceLength := source.length
               outputLength := output.length }
  | some s =>
    match s.get (← get) key with
    | .error f => throw f
    | .ok found =>
      let output ← match found with
        | some output => pure output
        | none => j.produce s key source
      return { key
               payload := if j.suppress then none else some output
               hit := found.isSome
               storedAt := s.path? key
               sourceLength := source.length
               outputLength := output.length }

end Job

end Terse
