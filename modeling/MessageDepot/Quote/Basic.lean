/-!
# Quotes

A quote offers a quantity of an instrument at a price.
-/
namespace MessageDepot

structure Quote where
  symbol : String
  price : UInt32
  quantity : UInt32
  quotedAt : Int64
  deriving DecidableEq, Repr

namespace Quote

/-- Message header with the symbol of a quote (`SYMBOL_HEADER`). -/
def symbolHeader : String := "symbol"

/-- The symbol of a quote that no symbol was given for. -/
def unknownSymbol : String := "UNKNOWN"

/-- What chance decides about a quote: a place in the list of symbols, a price in whole units
and a quantity counted from one. -/
structure Draw where
  place : Nat
  price : UInt32
  quantity : Fin 100

/-- A drawn quote for one of the symbols, at a price of one or more (`Quote.random`). -/
def ofDraw (symbols : List String) (d : Draw) (now : Int64) : Quote where
  symbol := symbols.getD (d.place % symbols.length) unknownSymbol
  price := max 1 d.price
  quantity := UInt32.ofNat (d.quantity.val + 1)
  quotedAt := now

end Quote

end MessageDepot
