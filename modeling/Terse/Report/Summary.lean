import Terse.Report.Savings
import Terse.Report.Table
import Terse.Store.Entry

/-!
# The size summary and the listing of the store

Both are tables; numbers stand to the right.
-/

namespace Terse.Report

/-- What part the store played in a run. -/
inductive Usage where
  | hit
  | miss
  | disabled
  deriving DecidableEq, Repr

namespace Usage

/-- A run that names no stored file did not use the store, whatever it says of a
hit. -/
def of (stored hit : Bool) : Usage :=
  if stored then (if hit then .hit else .miss) else .disabled

def label : Usage → String
  | .hit => "hit"
  | .miss => "miss"
  | .disabled => "disabled"

end Usage

/-- What the summary of one run shows. -/
structure Summary where
  engine : String
  sourceLength : Nat
  outputLength : Nat
  key : Store.Key
  usage : Usage

def Summary.table (s : Summary) : Table where
  header := ["Metric", "Value"]
  rows :=
    [[.left "Engine", .left s.engine],
     [.left "Original bytes", .right (toString s.sourceLength)],
     [.left "Minified bytes", .right (toString s.outputLength)],
     [.left "Saved",
       .right (savedPercent s.sourceLength s.outputLength ++ "%")],
     [.left "Cache key", .left s.key.text],
     [.left "Cache", .left s.usage.label]]

def listing (entries : List Store.Entry) : Table where
  header := ["Key", "Source bytes", "Minified bytes", "Created"]
  rows := entries.map fun e =>
    [.left e.key.text, .right (toString e.sourceLength),
      .right (toString e.outputLength),
      .left e.createdAt]

end Terse.Report
