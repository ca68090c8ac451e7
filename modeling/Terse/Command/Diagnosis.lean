import Terse.Failure

/-!
# Diagnoses

What a command reports when it gives up: the error that was met, and around it
what was being done at the time, outermost first. Its text is the whole chain on
one line.
-/

namespace Terse.Command

/-- The error at the end of the chain. -/
inductive Trouble where
  | failure (f : Failure)
  | fault (f : Script.Fault)
  | file (c : Files.Cause)
  /-- Bytes that should have been text are not UTF-8. -/
  | notText
  /-- A text has not the form it should have. What was being done says all there
  is to say. -/
  | malformed
  | plain (text : String)
  deriving DecidableEq, Repr

def Trouble.chain : Trouble → List String
  | .failure f => f.chain
  | .fault f => [f.message]
  | .file c => [c.message]
  | .notText => ["stream did not contain valid UTF-8"]
  | .malformed => []
  | .plain text => [text]

structure Diagnosis where
  trouble : Trouble
  contexts : List String := []
  deriving DecidableEq, Repr

namespace Diagnosis

def during (d : Diagnosis) (context : String) : Diagnosis :=
  { d with contexts := context :: d.contexts }

def text (d : Diagnosis) : String :=
  ": ".intercalate (d.contexts ++ d.trouble.chain)

def malformedSource : Nat := 2

def otherFailure : Nat := 1

/-- The exit status tells a malformed source from everything else. -/
def exitStatus (d : Diagnosis) : Nat :=
  match d.trouble with
  | .failure (.rejected _) => malformedSource
  | _ => otherFailure

theorem exitStatus_eq_malformedSource_iff (d : Diagnosis) :
    d.exitStatus = malformedSource ↔
      ∃ f, d.trouble = .failure (.rejected f) := by
  unfold exitStatus
  split
  · next f h => simp [h]
  · next h =>
    constructor
    · intro h'; exact absurd h' (by decide)
    · rintro ⟨f, hf⟩; exact absurd hf (h f)

end Diagnosis

end Terse.Command
