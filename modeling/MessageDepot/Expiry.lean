/-!
# Timeouts

A timeout is a number of seconds and a part of a second. What is older than the clock less
the timeout has expired; the difference stops at the ends of the 64-bit range.
-/
namespace MessageDepot

/-- Whole seconds and nanoseconds below one second. -/
structure Timeout where
  seconds : UInt64
  nanos : Nat
  nanos_lt : nanos < 1000000000
  deriving DecidableEq, Repr

namespace Timeout

/-- Whole milliseconds, rounded down (`as_millis`). -/
def millis (t : Timeout) : Nat := t.seconds.toNat * 1000 + t.nanos / 1000000

end Timeout

/-- The clock before which things have expired (`expiry_cutoff`). -/
def expiryCutoff (now : Int64) (t : Timeout) : Int64 :=
  let ms := Int64.ofIntClamp t.millis
  Int64.ofIntClamp (now.toInt - ms.toInt)

end MessageDepot
