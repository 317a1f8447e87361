import MessageDepot.Message
import MessageDepot.Uuid.Text
import MessageDepot.Wire.Envelope

/-!
# Stored form of a message

A stored message is a frame of five bytes, a format version and the length of what follows,
and then its envelope. A codec refuses to write envelopes above its size limit; on reading, the
frame has to fit the bytes exactly before anything of the envelope is looked at.
-/
namespace MessageDepot

/-- Why a message could not be written. -/
inductive EncodeError where
  | tooLarge (length limit : Nat)
  deriving DecidableEq, Repr

namespace EncodeError

def message : EncodeError → String
  | tooLarge length limit => s!"message too large: {length} bytes, at most {limit} allowed"

end EncodeError

/-- Why bytes could not be read as a message. -/
inductive DecodeError where
  /-- The bytes end within the frame, or before its length is reached. -/
  | truncated (expected found : Nat)
  /-- Bytes follow the frame. -/
  | trailingBytes (expected found : Nat)
  | unsupportedVersion (found : UInt8)
  /-- The frame does not hold an envelope. -/
  | malformed
  /-- The envelope's identifier spells no identifier. -/
  | invalidId
  deriving DecidableEq, Repr

namespace DecodeError

def message : DecodeError → String
  | truncated expected found => s!"truncated message: expected {expected} bytes, found {found}"
  | trailingBytes expected found => s!"trailing bytes: expected {expected} bytes, found {found}"
  | unsupportedVersion found => s!"unsupported format version: found {found}"
  | malformed => "malformed envelope"
  | invalidId => "invalid message id"

end DecodeError

/-- Writes and reads stored messages, with a limit on what it writes (`ProstCodec`). -/
structure Codec where
  maxSize : Nat
  maxSize_lt : maxSize < 4294967296
  deriving DecidableEq, Repr

namespace Codec

/-- Bytes before the envelope: the version and four bytes of length (`HEADER_SIZE`). -/
def headerSize : Nat := 5

/-- The version that is written and the only one that is read (`FORMAT_VERSION`). -/
def formatVersion : UInt8 := 1

/-- The largest envelope whose length fits in four bytes (`MAX_ENVELOPE_SIZE`). -/
def maxEnvelopeSize : Nat := 4294967295

/-- A codec with a limit of its own, which cannot exceed what a frame can hold
(`ProstCodec.with_max_size`). -/
def withMaxSize (n : Nat) : Codec :=
  ⟨min n maxEnvelopeSize, Nat.lt_of_le_of_lt (Nat.min_le_right ..) (by decide)⟩

/-- The codec that writes whatever a frame can hold (`ProstCodec.new`). -/
def standard : Codec := withMaxSize maxEnvelopeSize

/-- The envelope of a message (`ProstCodec.to_envelope`). -/
def envelope (m : Message) : Wire.Envelope := ⟨m.id.text, m.timestamp, m.headers, m.payload⟩

/-- The message in an envelope (`ProstCodec.from_envelope`). -/
def ofEnvelope (e : Wire.Envelope) : Except DecodeError Message :=
  match Uuid.ofText? e.id with
  | some id => .ok ⟨id, e.timestamp, e.headers, e.payload⟩
  | none => .error .invalidId

/-- A length as four bytes, highest first. -/
def lengthBytes (n : Nat) : Bytes :=
  [(n / 16777216).toUInt8, (n / 65536).toUInt8, (n / 256).toUInt8, n.toUInt8]

/-- The stored form of a message (`ProstCodec.encode`). -/
def encode (c : Codec) (m : Message) : Except EncodeError Bytes :=
  let e := envelope m
  if c.maxSize < e.size then .error (.tooLarge e.size c.maxSize)
  else .ok (formatVersion :: lengthBytes e.size ++ e.write)

/-- Reads an envelope and its identifier: what `ProstCodec.decode` does behind the frame. -/
def decodeBody (body : Bytes) : Except DecodeError Message :=
  match Wire.Envelope.read? body with
  | some e => ofEnvelope e
  | none => .error .malformed

/-- Reads a stored message (`ProstCodec.decode`). Every codec reads alike: the limit is for
writing. -/
def decode (_ : Codec) (b : Bytes) : Except DecodeError Message :=
  match b with
  | version :: a :: b :: c :: d :: body =>
    if version ≠ formatVersion then .error (.unsupportedVersion version)
    else
      let length := ((a.toNat * 256 + b.toNat) * 256 + c.toNat) * 256 + d.toNat
      if body.length < length then
        .error (.truncated (headerSize + length) (headerSize + body.length))
      else if length < body.length then
        .error (.trailingBytes (headerSize + length) (headerSize + body.length))
      else decodeBody body
  | short => .error (.truncated headerSize short.length)

end Codec

end MessageDepot
