import MessageDepot.Json.Value
import MessageDepot.Message
import MessageDepot.Quote.Basic

/-!
# Quotes as JSON

A quote is written as an object of its four fields in order, without space, and travels as
the payload of a message whose header names the symbol. It is read from an object with the
fields in any order, other members passed over, or from a list of the four values in order.
-/
namespace MessageDepot.Quote

open MessageDepot.Json

/-! ## Writing -/

def integerBytes (i : Int) : Bytes := Bytes.ofText (Decimal.text i)

def member (name : String) (value : Bytes) : Bytes := writeString name ++ 0x3a :: value

/-- The compact object (`serde_json.to_vec`). -/
def write (q : Quote) : Bytes :=
  0x7b :: member "symbol" (writeString q.symbol)
    ++ 0x2c :: member "price" (integerBytes q.price.toNat)
    ++ 0x2c :: member "quantity" (integerBytes q.quantity.toNat)
    ++ 0x2c :: member "quoted_at" (integerBytes q.quotedAt.toInt)
    ++ [0x7d]

/-- The message that carries a quote (`Quote.to_message`). -/
def toMessage (q : Quote) (id : Uuid) (now : Int64) : Message :=
  (Message.create id now q.write).withHeader symbolHeader q.symbol

/-! ## Values -/

/-- Reads an integer that `accept` takes. -/
def readInteger {α : Type} (accept : Number → Option α) (b : Bytes) : Except Fault (α × Bytes) :=
  match skipSpace b with
  | [] => .error .endOfInput
  | c :: rest =>
    if c = 0x2d ∨ isDigit c then
      match readNumber (c :: rest) with
      | .error f => .error f
      | .ok (n, rest) =>
        match accept n with
        | some a => .ok (a, rest)
        | none => .error .wrongShape
    else .error (unwanted (c :: rest))

def uint32? : Number → Option UInt32
  | .natural n => if n < 4294967296 then some (UInt32.ofNat n) else none
  | _ => none

def int64? : Number → Option Int64
  | .natural n => Decimal.word? n
  | .negative n => Decimal.word? (-n)
  | .float => none

/-- Reads a string value. -/
def readSymbol (b : Bytes) : Except Fault (String × Bytes) :=
  match skipSpace b with
  | [] => .error .endOfInput
  | c :: rest => if c = 0x22 then readString rest else .error (unwanted (c :: rest))

/-! ## Objects -/

/-- The fields read so far. -/
structure Draft where
  symbol : Option String
  price : Option UInt32
  quantity : Option UInt32
  quotedAt : Option Int64
  deriving DecidableEq, Repr

namespace Draft

def empty : Draft := ⟨none, none, none, none⟩

/-- The quote, once no field is missing. -/
def finish : Draft → Except Fault Quote
  | ⟨some s, some p, some q, some t⟩ => .ok ⟨s, p, q, t⟩
  | _ => .error .wrongShape

end Draft

/-- Reads the colon and value of a field that must not be there yet, and puts it in. -/
def readOnce {α : Type} (present : Option α) (read : Bytes → Except Fault (α × Bytes))
    (put : α → Draft) (b : Bytes) : Except Fault (Draft × Bytes) :=
  if present.isSome then .error .wrongShape
  else
    match readMark 0x3a b with
    | .error f => .error f
    | .ok rest =>
      match read rest with
      | .error f => .error f
      | .ok (a, rest) => .ok (put a, rest)

/-- Reads the rest of a member after its name. -/
def readField (d : Draft) (name : String) (b : Bytes) : Except Fault (Draft × Bytes) :=
  if name = "symbol" then readOnce d.symbol readSymbol (fun s => { d with symbol := some s }) b
  else if name = "price" then
    readOnce d.price (readInteger uint32?) (fun n => { d with price := some n }) b
  else if name = "quantity" then
    readOnce d.quantity (readInteger uint32?) (fun n => { d with quantity := some n }) b
  else if name = "quoted_at" then
    readOnce d.quotedAt (readInteger int64?) (fun t => { d with quotedAt := some t }) b
  else
    match readMark 0x3a b with
    | .error f => .error f
    | .ok rest =>
      match skipValue rest with
      | .error f => .error f
      | .ok rest => .ok (d, rest)

/-- Reads a member from its name on. -/
def readMember (d : Draft) (b : Bytes) : Except Fault (Draft × Bytes) :=
  match readMark 0x22 b with
  | .error f => .error f
  | .ok rest =>
    match readString rest with
    | .error f => .error f
    | .ok (name, rest) => readField d name rest

/-- Reads members up to the closing brace; `first` is whether none has been read. Every member
takes a byte or more, so the input's length is fuel enough. -/
def readMembers : Nat → Bool → Draft → Bytes → Except Fault (Quote × Bytes)
  | 0, _, _, _ => .error .endOfInput
  | fuel + 1, first, d, b =>
    match skipSpace b with
    | [] => .error .endOfInput
    | c :: rest =>
      if c = 0x7d then
        match d.finish with
        | .error f => .error f
        | .ok q => .ok (q, rest)
      else
        let next := if first then some (c :: rest) else if c = 0x2c then some rest else none
        match next with
        | none => .error .illFormed
        | some b =>
          match readMember d b with
          | .error f => .error f
          | .ok (d, rest) => readMembers fuel false d rest

/-! ## Lists -/

/-- Reads an element of a list that must have one more; `first` is whether none has been
read. -/
def readElement {α : Type} (first : Bool) (read : Bytes → Except Fault (α × Bytes)) (b : Bytes) :
    Except Fault (α × Bytes) :=
  match skipSpace b with
  | [] => .error .endOfInput
  | c :: rest =>
    if c = 0x5d then .error .wrongShape
    else if first then read (c :: rest)
    else if c = 0x2c then
      match skipSpace rest with
      | [] => .error .endOfInput
      | d :: rest => if d = 0x5d then .error .illFormed else read (d :: rest)
    else .error .illFormed

/-- Reads the four values of a list and its closing bracket. -/
def readElements (b : Bytes) : Except Fault (Quote × Bytes) :=
  match readElement true readSymbol b with
  | .error f => .error f
  | .ok (symbol, b) =>
    match readElement false (readInteger uint32?) b with
    | .error f => .error f
    | .ok (price, b) =>
      match readElement false (readInteger uint32?) b with
      | .error f => .error f
      | .ok (quantity, b) =>
        match readElement false (readInteger int64?) b with
        | .error f => .error f
        | .ok (quotedAt, b) =>
          match readMark 0x5d b with
          | .error f => .error f
          | .ok rest => .ok (⟨symbol, price, quantity, quotedAt⟩, rest)

/-! ## Quotes -/

/-- Reads an object or a list from the start of the bytes. -/
def readValue (b : Bytes) : Except Fault (Quote × Bytes) :=
  match skipSpace b with
  | [] => .error .endOfInput
  | c :: rest =>
    if c = 0x5b then readElements rest
    else if c = 0x7b then readMembers (rest.length + 1) true Draft.empty rest
    else .error (unwanted (c :: rest))

/-- Reads all bytes as one quote (`serde_json.from_slice`). -/
def read (b : Bytes) : Except Fault Quote :=
  match readValue b with
  | .error f => .error f
  | .ok (q, rest) => if skipSpace rest = [] then .ok q else .error .illFormed

/-- The quote that a message carries (`Quote.from_message`). -/
def ofMessage (m : Message) : Except Fault Quote := read m.payload

end MessageDepot.Quote
