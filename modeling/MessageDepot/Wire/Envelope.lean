import MessageDepot.Headers
import MessageDepot.Wire.Field

/-!
# Envelopes

The record that holds a message: its identifier as text (field 1), its timestamp (field 2),
one entry for each header (field 3) and its payload (field 4). An entry is a record of a name
(field 1) and a value (field 2) and leaves out what is empty. On reading, the last field of a
number counts and so does the last entry of a name, what is missing is empty or zero, and
other fields are passed over.

Results:
* `length_write`: `Envelope.size` is the number of bytes written.
-/
namespace MessageDepot.Wire

/-- The record of one message. -/
structure Envelope where
  id : String
  timestamp : Int64
  headers : Headers
  payload : Bytes
  deriving DecidableEq, Repr

/-- The levels within which the fields of a record are passed over. -/
def depthLimit : Nat := 100

/-! ## Header entries -/

namespace Entry

def nameKey : FieldKey := ⟨1, .delimited⟩

def valueKey : FieldKey := ⟨2, .delimited⟩

/-- A text field, or nothing for empty text. -/
def writeText (key : FieldKey) (s : String) : Bytes :=
  if s = "" then [] else key.write ++ writeDelimited (Bytes.ofText s)

def write (name value : String) : Bytes := writeText nameKey name ++ writeText valueKey value

def textSize (s : String) : Nat := if s.utf8ByteSize = 0 then 0 else 1 + delimitedSize s.utf8ByteSize

/-- The number of bytes of an entry. -/
def size (name value : String) : Nat := textSize name + textSize value

/-- One field of an entry. -/
inductive Part where
  | name (s : String)
  | value (s : String)
  | other
  deriving DecidableEq, Repr

/-- Reads a field of an entry, which lies one level inside the envelope. -/
def readPart? (b : Bytes) : Option (Part × Bytes) :=
  match FieldKey.read? b with
  | none => none
  | some (key, rest) =>
    if key.number = 1 then
      if key.type = .delimited then (readText? rest).map fun (s, r) => (.name s, r) else none
    else if key.number = 2 then
      if key.type = .delimited then (readText? rest).map fun (s, r) => (.value s, r) else none
    else (skipValue? (depthLimit - 1) key rest).map fun r => (.other, r)

def addPart : String × String → Part → String × String
  | (_, v), .name s => (s, v)
  | (n, _), .value s => (n, s)
  | e, .other => e

/-- The name and value that an entry's fields give. -/
def ofParts (parts : List Part) : String × String := parts.foldl addPart ("", "")

/-- Reads all bytes as one entry. -/
def read? (b : Bytes) : Option (String × String) := (readAll? readPart? b).map ofParts

end Entry

namespace Envelope

/-! ## Writing -/

def idKey : FieldKey := ⟨1, .delimited⟩

def timestampKey : FieldKey := ⟨2, .varint⟩

def headerKey : FieldKey := ⟨3, .delimited⟩

def payloadKey : FieldKey := ⟨4, .delimited⟩

/-- A timestamp as a number of 64 bits, in two's complement. -/
def timestampBits (t : Int64) : Nat := t.toUInt64.toNat

def writeHeader (name value : String) : Bytes :=
  headerKey.write ++ writeDelimited (Entry.write name value)

/-- The bytes of an envelope, fields in the order of their numbers and headers in theirs
(`encode_raw`). -/
def write (e : Envelope) : Bytes :=
  idKey.write ++ writeDelimited (Bytes.ofText e.id)
    ++ (timestampKey.write ++ Varint.write (timestampBits e.timestamp))
    ++ e.headers.entries.flatMap (fun h => writeHeader h.1 h.2)
    ++ (payloadKey.write ++ writeDelimited e.payload)

def headerSize (name value : String) : Nat := 1 + delimitedSize (Entry.size name value)

def headersSize : List (String × String) → Nat
  | [] => 0
  | h :: hs => headerSize h.1 h.2 + headersSize hs

/-- The number of bytes of an envelope (`encoded_len`). -/
def size (e : Envelope) : Nat :=
  1 + delimitedSize e.id.utf8ByteSize
    + (1 + Varint.size (timestampBits e.timestamp))
    + headersSize e.headers.entries
    + (1 + delimitedSize e.payload.length)

/-! ## Reading -/

/-- One field of an envelope. -/
inductive Part where
  | id (s : String)
  | timestamp (t : Int64)
  | header (name value : String)
  | payload (b : Bytes)
  | other
  deriving DecidableEq, Repr

/-- Reads a field. A header's wire type is not looked at: a length and an entry follow its key
whatever it says. -/
def readPart? (b : Bytes) : Option (Part × Bytes) :=
  match FieldKey.read? b with
  | none => none
  | some (key, rest) =>
    if key.number = 1 then
      if key.type = .delimited then (readText? rest).map fun (s, r) => (.id s, r) else none
    else if key.number = 2 then
      if key.type = .varint then
        (Varint.read? rest).map fun (n, r) => (.timestamp (UInt64.ofNat n).toInt64, r)
      else none
    else if key.number = 3 then
      match readDelimited? rest with
      | none => none
      | some (v, rest) => (Entry.read? v).map fun (n, v) => (.header n v, rest)
    else if key.number = 4 then
      if key.type = .delimited then (readDelimited? rest).map fun (v, r) => (.payload v, r) else none
    else (skipValue? depthLimit key rest).map fun r => (.other, r)

def addPart (e : Envelope) : Part → Envelope
  | .id s => { e with id := s }
  | .timestamp t => { e with timestamp := t }
  | .header n v => { e with headers := e.headers.insert n v }
  | .payload b => { e with payload := b }
  | .other => e

/-- The envelope that fields give, later ones before earlier ones. -/
def ofParts (parts : List Part) : Envelope := parts.foldl addPart ⟨"", 0, .empty, []⟩

/-- Reads all bytes as the fields of one envelope. -/
def parts? (b : Bytes) : Option (List Part) := readAll? readPart? b

/-- Reads all bytes as one envelope (`Envelope.decode`). -/
def read? (b : Bytes) : Option Envelope := (parts? b).map ofParts

/-! ## Sizes -/

theorem length_ofText (s : String) : (Bytes.ofText s).length = s.utf8ByteSize := by
  simp [Bytes.ofText]

theorem length_writeKey {k : FieldKey} (h : k.number < 16) : k.write.length = 1 := by
  have := k.type.code_lt
  rw [FieldKey.write, Varint.write, if_pos (by omega)]
  rfl

theorem length_writeText {k : FieldKey} (h : k.number < 16) (s : String) :
    (Entry.writeText k s).length = Entry.textSize s := by
  unfold Entry.writeText Entry.textSize
  by_cases hs : s = ""
  · subst hs; rfl
  · rw [if_neg hs, if_neg (by simpa using hs), List.length_append, length_writeKey h,
      length_writeDelimited, length_ofText]

theorem length_writeHeader (n v : String) : (writeHeader n v).length = headerSize n v := by
  simp only [writeHeader, headerSize, List.length_append, length_writeKey (k := headerKey) (by decide),
    length_writeDelimited, Entry.write, Entry.size,
    length_writeText (k := Entry.nameKey) (by decide),
    length_writeText (k := Entry.valueKey) (by decide)]

theorem length_writeHeaders (hs : List (String × String)) :
    (hs.flatMap fun h => writeHeader h.1 h.2).length = headersSize hs := by
  induction hs with
  | nil => rfl
  | cons h hs ih => rw [List.flatMap_cons, List.length_append, length_writeHeader, ih, headersSize]

theorem length_write (e : Envelope) : e.write.length = e.size := by
  simp only [write, size, List.length_append, length_writeKey (k := idKey) (by decide),
    length_writeKey (k := timestampKey) (by decide), length_writeKey (k := payloadKey) (by decide),
    length_writeDelimited, length_ofText, Varint.length_write,
    length_writeHeaders]

end Envelope

end MessageDepot.Wire
