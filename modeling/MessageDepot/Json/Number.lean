import MessageDepot.Binary64
import MessageDepot.Json.Basic

/-!
# JSON numbers

A number that is kept is an integer when it has neither fraction nor exponent and fits in 64
bits, with or without a sign; any other number is a float, and so is minus zero. A float is
refused when it lies beyond every double: its digits count as long as they fit in 64 bits, and
what follows them only moves the decimal point. A number that is passed over is checked for
its grammar alone.
-/
namespace MessageDepot.Json

/-- A number that was read. -/
inductive Number where
  /-- A number of 64 bits without a sign. -/
  | natural (n : Nat)
  /-- The negative of a positive number of up to 2 ^ 63. -/
  | negative (n : Nat)
  | float
  deriving DecidableEq, Repr

def isDigit (b : UInt8) : Bool := 0x30 ≤ b && b ≤ 0x39

def digitValue (b : UInt8) : Nat := b.toNat - 0x30

/-- The value of a run of digits. -/
def digitsValue (ds : Bytes) : Nat := ds.foldl (fun n d => 10 * n + digitValue d) 0

/-- Adds digits to a number as long as it fits in 64 bits; gives how many are left over. -/
def absorb : Nat → Bytes → Nat × Nat
  | n, [] => (n, 0)
  | n, d :: ds =>
    if 10 * n + digitValue d < 18446744073709551616 then absorb (10 * n + digitValue d) ds
    else (n, ds.length + 1)

/-- Reads the whole part: a zero, or digits that do not start with one. -/
def readWhole : Bytes → Except Fault (Bytes × Bytes)
  | [] => .error .endOfInput
  | d :: rest =>
    if d = 0x30 then
      match rest with
      | e :: _ => if isDigit e then .error .illFormed else .ok ([d], rest)
      | [] => .ok ([d], rest)
    else if isDigit d then .ok (d :: rest.takeWhile isDigit, rest.dropWhile isDigit)
    else .error .illFormed

/-- Reads digits, of which there has to be one. -/
def readDigits (b : Bytes) : Except Fault (Bytes × Bytes) :=
  match b with
  | [] => .error .endOfInput
  | d :: _ =>
    if isDigit d then .ok (b.takeWhile isDigit, b.dropWhile isDigit) else .error .illFormed

/-- Reads the fraction behind a point, if there is one. -/
def readFraction : Bytes → Except Fault (Option Bytes × Bytes)
  | 0x2e :: rest =>
    match readDigits rest with
    | .error f => .error f
    | .ok (ds, rest) => .ok (some ds, rest)
  | rest => .ok (none, rest)

/-- Reads a sign and gives whether it is a minus. -/
def readSign : Bytes → Bool × Bytes
  | 0x2b :: rest => (false, rest)
  | 0x2d :: rest => (true, rest)
  | rest => (false, rest)

/-- Reads the exponent behind its letter, if there is one. -/
def readExponent : Bytes → Except Fault (Option Int × Bytes)
  | [] => .ok (none, [])
  | c :: rest =>
    if c = 0x65 ∨ c = 0x45 then
      let (minus, rest) := readSign rest
      match readDigits rest with
      | .error f => .error f
      | .ok (ds, rest) =>
        .ok (some (if minus then -(digitsValue ds : Int) else digitsValue ds), rest)
    else .ok (none, c :: rest)

/-- An integer of 64 bits, if its sign allows it. -/
def integer (minus : Bool) (n : Nat) : Number :=
  if !minus then .natural n
  else if 1 ≤ n ∧ n ≤ 9223372036854775808 then .negative n
  else .float

/-- The number of a whole part, a fraction and an exponent. -/
def classify (minus : Bool) (whole : Bytes) (fraction : Option Bytes) (exponent : Option Int) :
    Except Fault Number :=
  let (n, excess) := absorb 0 whole
  if excess = 0 ∧ fraction = none ∧ exponent = none then .ok (integer minus n)
  else
    let ds := fraction.getD []
    let (m, left) := absorb n ds
    let point : Int := excess - (ds.length - left : Nat)
    if Binary64.overflows m (point + exponent.getD 0) then .error .illFormed else .ok .float

/-- Reads a number, which starts with a minus or a digit. -/
def readNumber (b : Bytes) : Except Fault (Number × Bytes) :=
  let (minus, rest) := match b with
    | 0x2d :: rest => (true, rest)
    | _ => (false, b)
  match readWhole rest with
  | .error f => .error f
  | .ok (whole, rest) =>
    match readFraction rest with
    | .error f => .error f
    | .ok (fraction, rest) =>
      match readExponent rest with
      | .error f => .error f
      | .ok (exponent, rest) =>
        match classify minus whole fraction exponent with
        | .error f => .error f
        | .ok n => .ok (n, rest)

/-- Passes over a number. What is missing from it, at the end of the input too, makes it
ill-formed. -/
def skipNumber (b : Bytes) : Except Fault Bytes :=
  let rest := match b with
    | 0x2d :: rest => rest
    | _ => b
  match readWhole rest with
  | .error _ => .error .illFormed
  | .ok (_, rest) =>
    match readFraction rest with
    | .error _ => .error .illFormed
    | .ok (_, rest) =>
      match readExponent rest with
      | .error _ => .error .illFormed
      | .ok (_, rest) => .ok rest

end MessageDepot.Json
