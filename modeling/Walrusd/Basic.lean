import Mathlib.Algebra.Group.Nat.Defs
import Mathlib.Data.Int.Notation
import Mathlib.Data.Nat.Notation

/-!
# Scalars of the runtime

Instants and durations are integers, in nanoseconds; `time.Duration` and the instants the runtime
compares are 64-bit counts of nanoseconds in the source. TXIDs are natural numbers: the source
has them as 64-bit counters that start at `1` and grow by one per transaction.
-/

namespace Walrusd

/-- The contents of a stored lease record. -/
abbrev Bytes := List UInt8

/-- One second. -/
def second : ℤ := 1000000000

/-- One millisecond. -/
def millisecond : ℤ := 1000000

end Walrusd
