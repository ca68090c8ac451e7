/-!
# Savings

The share of bytes saved, in tenths of a percent. It is computed in double
precision and rounded half away from zero; both lengths are machine words, so
converting them may already round. A source that grew saved nothing, and of an
empty source nothing can be saved.
-/

namespace Terse.Report

/-- Tenths of a percent saved by an output of a source, from their lengths. -/
def savedTenths (source output : Nat) : Nat :=
  if source = 0 then 0
  else
    let saved := (UInt64.ofNat (source - output)).toFloat
    (saved * 1000.0 / (UInt64.ofNat source).toFloat).round.toUInt64.toNat

def savedPercent (source output : Nat) : String :=
  let tenths := savedTenths source output
  toString (tenths / 10) ++ "." ++ toString (tenths % 10)

end Terse.Report
