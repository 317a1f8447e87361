import MessageDepot.Binary64
import MessageDepot.Quote.Basic

/-!
# Volume-weighted summaries

A summary of quotes counts them, adds up their quantities and their prices times quantities
in 64 bits, and gives the price weighted by volume.
-/
namespace MessageDepot

structure QuoteSummary where
  count : Nat
  quantity : UInt64
  notional : UInt64
  deriving DecidableEq, Repr

namespace QuoteSummary

def empty : QuoteSummary := ⟨0, 0, 0⟩

/-- Counts one more quote (`QuoteSummary.add`). -/
def add (s : QuoteSummary) (q : Quote) : QuoteSummary where
  count := s.count + 1
  quantity := s.quantity + q.quantity.toUInt64
  notional := s.notional + q.price.toUInt64 * q.quantity.toUInt64

/-- The summary of a batch (`QuoteSummary.from_iter`). -/
def ofQuotes (qs : List Quote) : QuoteSummary := qs.foldl add empty

/-- The double nearest to the quotient of the doubles nearest to the two totals, unless nothing
was offered (`QuoteSummary.vwap`). -/
def vwap? (s : QuoteSummary) : Option Binary64 :=
  if s.quantity = 0 then none
  else some (Binary64.ofQuotient (Binary64.nearest s.notional.toNat)
    (Binary64.nearest s.quantity.toNat))

/-- The summary as a line of text (`QuoteSummary.fmt`). -/
def text (s : QuoteSummary) : String :=
  match s.vwap? with
  | some v => s!"{s.count} quotes, quantity {s.quantity.toNat} @ vwap {v.fixedTwo}"
  | none => "no quotes"

end QuoteSummary

end MessageDepot
