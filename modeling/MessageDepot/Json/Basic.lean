import MessageDepot.Bytes

/-!
# JSON text: faults, space and literals

JSON is read from bytes, left to right, and the first thing that is wrong decides the fault.
Readers take the input and give what they read together with the rest of the input.
-/
namespace MessageDepot.Json

/-- What is wrong with a JSON text. -/
inductive Fault where
  /-- The input ends too soon. -/
  | endOfInput
  /-- The input is not JSON. -/
  | illFormed
  /-- The input is JSON of another shape than the one asked for. -/
  | wrongShape
  deriving DecidableEq, Repr

/-- Space, tab, line feed and carriage return. -/
def isSpace (b : UInt8) : Bool := b = 0x20 || b = 0x09 || b = 0x0a || b = 0x0d

def skipSpace (b : Bytes) : Bytes := b.dropWhile isSpace

/-- Reads the bytes of a literal, one by one. -/
def readLiteral : Bytes → Bytes → Except Fault Bytes
  | [], rest => .ok rest
  | _ :: _, [] => .error .endOfInput
  | e :: es, b :: rest => if b = e then readLiteral es rest else .error .illFormed

/-- Reads one punctuation byte after space. -/
def readMark (mark : UInt8) (b : Bytes) : Except Fault Bytes :=
  match skipSpace b with
  | [] => .error .endOfInput
  | c :: rest => if c = mark then .ok rest else .error .illFormed

/-- What is left of a literal after its first letter. -/
def literalTail? : UInt8 → Option Bytes
  | 0x6e => some [0x75, 0x6c, 0x6c]
  | 0x74 => some [0x72, 0x75, 0x65]
  | 0x66 => some [0x61, 0x6c, 0x73, 0x65]
  | _ => none

end MessageDepot.Json
