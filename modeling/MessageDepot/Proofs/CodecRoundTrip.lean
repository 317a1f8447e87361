import MessageDepot.Codec
import MessageDepot.Proofs.EnvelopeRoundTrip

/-!
# Stored messages are read back as they were written

A message that its codec takes is stored as a frame (`Codec.frame`): the version, the length of
the envelope and the envelope. The limit decides only whether there is a frame, so a frame that
one codec wrote is read by every other. The four bytes of length give the length back because a
limit, and with it every stored envelope, is below 2^32.

Results:
* `encode_eq`: a codec writes the frame of a message, or refuses it for its length alone.
* `decode_frame`: a frame is read back by any codec.
* `encode_decode`: both in terms of the bytes, for a codec of any limit.
-/
namespace MessageDepot.Codec

/-- The stored form of a message. -/
def frame (m : Message) : Bytes :=
  formatVersion :: lengthBytes (envelope m).size ++ (envelope m).write

theorem encode_eq (c : Codec) (m : Message) :
    c.encode m = if c.maxSize < (envelope m).size
      then .error (.tooLarge (envelope m).size c.maxSize) else .ok (frame m) := rfl

/-- Four base-256 digits give their number back. -/
theorem length_of_digits {n : Nat} (h : n < 4294967296) :
    (((n / 16777216).toUInt8.toNat * 256 + (n / 65536).toUInt8.toNat) * 256
      + (n / 256).toUInt8.toNat) * 256 + n.toUInt8.toNat = n := by
  simp only [Nat.toUInt8_eq, UInt8.toNat_ofNat']
  omega

theorem ofEnvelope_envelope (m : Message) : ofEnvelope (envelope m) = .ok m := by
  simp [ofEnvelope, envelope]

theorem decode_frame (c : Codec) {m : Message} (h : (envelope m).size < 4294967296) :
    c.decode (frame m) = .ok m := by
  have hl := length_of_digits h
  have hb : (envelope m).write.length = (envelope m).size := Wire.Envelope.length_write _
  simp only [frame, lengthBytes, List.cons_append, List.nil_append, decode, hl, hb]
  rw [if_neg (by simp), if_neg (Nat.lt_irrefl _), if_neg (Nat.lt_irrefl _), decodeBody,
    Wire.Envelope.read?_write (by omega)]
  exact ofEnvelope_envelope m

/-- A codec made for the limit `n` refuses a message, telling its length and the limit, when its
envelope is longer than the limit or than a frame can hold. Every other message it writes as the
version, four bytes of length, highest first, and an envelope of just that length, and any codec
reads the same message from that. -/
theorem encode_decode (n : Nat) (reader : Codec) (m : Message) :
    if min n (4294967295) < (envelope m).size then
      (withMaxSize n).encode m = .error (.tooLarge (envelope m).size (min n (4294967295)))
    else
      ∃ a b c d body, (withMaxSize n).encode m = .ok (1 :: a :: b :: c :: d :: body) ∧
        ((a.toNat * 256 + b.toNat) * 256 + c.toNat) * 256 + d.toNat = (envelope m).size ∧
        body = (envelope m).write ∧ body.length = (envelope m).size ∧
        reader.decode (1 :: a :: b :: c :: d :: body) = .ok m := by
  have hm : (withMaxSize n).maxSize = min n (4294967295) := rfl
  rw [encode_eq, hm]
  split
  · rfl
  · rename_i hs
    have hs : (envelope m).size < 4294967296 := by omega
    exact ⟨_, _, _, _, _, rfl, length_of_digits hs, rfl, Wire.Envelope.length_write _,
      decode_frame reader hs⟩

end MessageDepot.Codec
