import MessageDepot.Json.Number
import MessageDepot.Json.Text

/-!
# JSON values that are passed over

A value of any kind and depth is passed over with the brackets that are open kept in a list,
the innermost first. A value that is not of the kind asked for is read as far as its own
fault, if it has one, before its kind is held against it.
-/
namespace MessageDepot.Json

/-- An open bracket. -/
inductive Bracket where
  | list
  | object
  deriving DecidableEq, Repr

namespace Bracket

/-- The byte that closes a bracket. -/
def closing : Bracket → UInt8
  | list => 0x5d
  | object => 0x7d

end Bracket

/-- Passes over the name of a member and the colon behind it. -/
def skipName (b : Bytes) : Except Fault Bytes :=
  match readMark 0x22 b with
  | .error f => .error f
  | .ok rest =>
    match skipString rest with
    | .error f => .error f
    | .ok rest => readMark 0x3a rest

/-- Passes over what stands before the next value within a bracket. -/
def enter : Bracket → Bytes → Except Fault Bytes
  | .list, b => .ok b
  | .object, b => skipName b

/-- Goes on after a value: passes over closed brackets up to a comma, or up to the end of the
outermost value, when no bracket is left. -/
def resume : List Bracket → Bytes → Except Fault (List Bracket × Bytes)
  | [], b => .ok ([], b)
  | br :: outer, b =>
    match skipSpace b with
    | [] => .error .endOfInput
    | c :: rest =>
      if c = 0x2c then
        match enter br rest with
        | .error f => .error f
        | .ok rest => .ok (br :: outer, rest)
      else if c = br.closing then resume outer rest
      else .error .illFormed

/-- The bracket that a byte opens. -/
def opening? : UInt8 → Option Bracket
  | 0x5b => some .list
  | 0x7b => some .object
  | _ => none

/-- Passes over a value that is no list or object; `c` is its first byte. -/
def skipScalar (c : UInt8) (rest : Bytes) : Except Fault Bytes :=
  match literalTail? c with
  | some tail => readLiteral tail rest
  | none =>
    if c = 0x22 then skipString rest
    else if c = 0x2d ∨ isDigit c then skipNumber (c :: rest)
    else .error .illFormed

/-- Passes over one step of a value within open brackets: a value without brackets, an empty
pair of brackets, or an opening bracket and what stands before its first value. -/
def skipStep (open' : List Bracket) (b : Bytes) : Except Fault (List Bracket × Bytes) :=
  match skipSpace b with
  | [] => .error .endOfInput
  | c :: rest =>
    match opening? c with
    | none =>
      match skipScalar c rest with
      | .error f => .error f
      | .ok rest => resume open' rest
    | some br =>
      match skipSpace rest with
      | [] => .error .endOfInput
      | d :: after =>
        if d = br.closing then resume open' after
        else
          match enter br (d :: after) with
          | .error f => .error f
          | .ok rest => .ok (br :: open', rest)

/-- Passes over values until no bracket is open. Every step takes a byte or more, so the
input's length is fuel enough. -/
def skipOpen : Nat → List Bracket → Bytes → Except Fault Bytes
  | 0, _, _ => .error .endOfInput
  | fuel + 1, open', b =>
    match skipStep open' b with
    | .error f => .error f
    | .ok ([], rest) => .ok rest
    | .ok (open', rest) => skipOpen fuel open' rest

/-- Passes over one value. -/
def skipValue (b : Bytes) : Except Fault Bytes := skipOpen (b.length + 1) [] b

/-- The fault of a value that is not of the kind asked for; `b` starts with the value. -/
def unwanted (b : Bytes) : Fault :=
  match b with
  | [] => .endOfInput
  | c :: rest =>
    match literalTail? c with
    | some tail =>
      match readLiteral tail rest with
      | .error f => f
      | .ok _ => .wrongShape
    | none =>
      if c = 0x22 then
        match readString rest with
        | .error f => f
        | .ok _ => .wrongShape
      else if c = 0x2d ∨ isDigit c then
        match readNumber b with
        | .error f => f
        | .ok _ => .wrongShape
      else if (opening? c).isSome then .wrongShape
      else .illFormed

end MessageDepot.Json
