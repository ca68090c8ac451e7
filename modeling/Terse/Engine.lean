import Terse.Failure
import Terse.Settings

/-!
# Engines

What is done to a source. An engine is any function on sources, together with
what a job has to know about it. There are two built-in ones: the minifier, and
the engine of dry runs, which passes sources through unchanged. Outputs of a dry
run are not worth storing, and they do not depend on how sources are read.
-/

namespace Terse

structure Engine where
  name : String
  /-- The reading options that the output depends on. -/
  options : Script.Options
  /-- Whether outputs are worth storing. -/
  storesOutput : Bool := true
  apply : Bytes → Except Failure Bytes

namespace Engine

def passthrough : Engine where
  name := "passthrough"
  options := {}
  storesOutput := false
  apply := .ok

def minifier (o : Script.Options) : Engine where
  name := "transducer"
  options := o
  apply source :=
    match Script.minify o source with
    | .ok output => .ok output
    | .error f => .error (.rejected f)

theorem apply_minifier (o : Script.Options) (source : Bytes) :
    (minifier o).apply source =
      match Script.minify o source with
      | .ok output => .ok output
      | .error f => .error (.rejected f) := rfl

def ofSettings (s : Settings) : Engine :=
  if s.isDryRun then passthrough else minifier s.options

theorem exists_rejected_of_apply {s : Settings} {source : Bytes} {f : Failure}
    (h : (ofSettings s).apply source = .error f) :
    ∃ fault, f = .rejected fault := by
  rw [ofSettings] at h
  split at h
  · cases h
  · rw [apply_minifier] at h
    split at h
    · cases h
    · exact ⟨_, (Except.error.inj h).symm⟩

end Engine

def Settings.transform (s : Settings) (source : Bytes) : Except Failure Bytes :=
  (Engine.ofSettings s).apply source

def Settings.transformText (s : Settings) (source : String) :
    Except Failure String :=
  match s.transform (Bytes.ofString source) with
  | .error f => .error f
  | .ok output =>
    match Text.Utf8.toString? output with
    | some text => .ok text
    | none => .error (.system (Text.Utf8.flaw 0 output).message)

end Terse
