import MessageDepot.Wire.Varint

/-!
# Fields on the wire

A record is a run of fields. Each starts with a key, a number that holds the field's number
and the wire type of its value; the wire type alone says where the value ends, so a reader
can pass over fields it does not know. Groups hold fields of their own up to an end key with
the same number, and may be nested up to a depth.

Results:
* `readDelimited?_write`, `FieldKey.read?_write`: what was written is read back.
-/
namespace MessageDepot.Wire

inductive WireType where
  | varint
  | fixed64
  | delimited
  | groupStart
  | groupEnd
  | fixed32
  deriving DecidableEq, Repr

namespace WireType

def code : WireType → Nat
  | varint => 0
  | fixed64 => 1
  | delimited => 2
  | groupStart => 3
  | groupEnd => 4
  | fixed32 => 5

def ofCode? : Nat → Option WireType
  | 0 => some varint
  | 1 => some fixed64
  | 2 => some delimited
  | 3 => some groupStart
  | 4 => some groupEnd
  | 5 => some fixed32
  | _ => none

@[simp] theorem ofCode?_code (t : WireType) : ofCode? t.code = some t := by cases t <;> rfl

theorem code_lt (t : WireType) : t.code < 8 := by cases t <;> decide

end WireType

/-- A field's number and the wire type of its value. -/
structure FieldKey where
  number : Nat
  type : WireType
  deriving DecidableEq, Repr

namespace FieldKey

def write (k : FieldKey) : Bytes := Varint.write (8 * k.number + k.type.code)

/-- Reads a key: a number of 32 bits with a wire type below 6 and a field number of 1 or more. -/
def read? (b : Bytes) : Option (FieldKey × Bytes) :=
  match Varint.read? b with
  | some (n, rest) =>
    if 8 ≤ n ∧ n < 4294967296 then
      match WireType.ofCode? (n % 8) with
      | some t => some (⟨n / 8, t⟩, rest)
      | none => none
    else none
  | none => none

theorem read?_write {k : FieldKey} (h1 : 1 ≤ k.number) (h2 : k.number < 536870912) (rest : Bytes) :
    read? (k.write ++ rest) = some (k, rest) := by
  have hc := k.type.code_lt
  have hm : (8 * k.number + k.type.code) % 8 = k.type.code := by omega
  have hd : (8 * k.number + k.type.code) / 8 = k.number := by omega
  rw [read?, write, Varint.read?_write (by omega)]
  simp only [hm, hd, WireType.ofCode?_code]
  rw [if_pos (by omega)]

end FieldKey

/-! ## Length-delimited values -/

/-- Bytes behind their length. -/
def writeDelimited (b : Bytes) : Bytes := Varint.write b.length ++ b

/-- The number of bytes of a length-delimited value of `n` bytes. -/
def delimitedSize (n : Nat) : Nat := Varint.size n + n

/-- Reads a length and that many bytes. -/
def readDelimited? (b : Bytes) : Option (Bytes × Bytes) :=
  match Varint.read? b with
  | some (n, rest) => if n ≤ rest.length then some (rest.take n, rest.drop n) else none
  | none => none

/-- Reads a length-delimited value that has to be UTF-8. -/
def readText? (b : Bytes) : Option (String × Bytes) :=
  match readDelimited? b with
  | some (v, rest) =>
    match v.text? with
    | some s => some (s, rest)
    | none => none
  | none => none

theorem length_writeDelimited (b : Bytes) : (writeDelimited b).length = delimitedSize b.length := by
  simp [writeDelimited, delimitedSize, Varint.length_write]

theorem readDelimited?_write {b : Bytes} (h : b.length < 18446744073709551616) (rest : Bytes) :
    readDelimited? (writeDelimited b ++ rest) = some (b, rest) := by
  rw [readDelimited?, writeDelimited, List.append_assoc, Varint.read?_write h]
  simp

/-! ## Passing over fields -/

/-- Passes over `n` bytes. -/
def skipBytes? (n : Nat) (b : Bytes) : Option Bytes := if n ≤ b.length then some (b.drop n) else none

/-- Passes over the fields of a group and its end key, `skip` passing over their values.
Every field takes a byte or more, so the input's length is fuel enough. -/
def skipMembers? (skip : FieldKey → Bytes → Option Bytes) (number : Nat) :
    Nat → Bytes → Option Bytes
  | 0, _ => none
  | fuel + 1, b =>
    match FieldKey.read? b with
    | none => none
    | some (key, rest) =>
      if key.type = .groupEnd then
        if key.number = number then some rest else none
      else
        match skip key rest with
        | none => none
        | some rest => skipMembers? skip number fuel rest

/-- Passes over the value of a field, within `depth` levels; the members of a group are one
level further in, and nothing is passed over at level 0. -/
def skipValue? : Nat → FieldKey → Bytes → Option Bytes
  | 0, _, _ => none
  | depth + 1, key, b =>
    match key.type with
    | .varint => (Varint.read? b).map (·.2)
    | .fixed64 => skipBytes? 8 b
    | .delimited => (readDelimited? b).map (·.2)
    | .groupStart => skipMembers? (skipValue? depth) key.number b.length b
    | .groupEnd => none
    | .fixed32 => skipBytes? 4 b

/-! ## Runs of fields -/

/-- Reads values one after another up to the end of the bytes. Every value takes a byte or
more, so the input's length is fuel enough. -/
def readRun? {α : Type} (read : Bytes → Option (α × Bytes)) : Nat → Bytes → Option (List α)
  | _, [] => some []
  | 0, _ :: _ => none
  | fuel + 1, b =>
    match read b with
    | none => none
    | some (a, rest) => (readRun? read fuel rest).map (a :: ·)

/-- Reads all bytes as values one after another. -/
def readAll? {α : Type} (read : Bytes → Option (α × Bytes)) (b : Bytes) : Option (List α) :=
  readRun? read b.length b

end MessageDepot.Wire
