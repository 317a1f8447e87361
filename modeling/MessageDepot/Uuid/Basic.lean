import MessageDepot.Bytes

/-!
# 128-bit identifiers

A UUID is sixteen bytes. Four bits of byte 6 say how it was made (its version) and the top
bits of byte 8 which layout it follows (its variant); any sixteen bytes are allowed.

Results:
* `length_stamp`: stamping version and variant keeps sixteen bytes.
-/
namespace MessageDepot

/-- Sixteen bytes. -/
structure Uuid where
  bytes : Bytes
  length_bytes : bytes.length = 16
  deriving DecidableEq, Repr

namespace Uuid

/-- The high half of byte 6. -/
def version (u : Uuid) : Nat := (u.bytes.getD 6 0).toNat / 16

/-- Whether byte 8 starts with the bits `10`. -/
def isStandardVariant (u : Uuid) : Bool := (u.bytes.getD 8 0).toNat / 64 = 2

/-- Puts a version into byte 6 and the standard variant into byte 8. -/
def stamp (version : UInt8) (b : Bytes) : Bytes :=
  (b.modify 6 fun x => x &&& 0x0f ||| version <<< (4 : UInt8)).modify 8 fun x => x &&& 0x3f ||| 0x80

@[simp] theorem length_stamp (v : UInt8) (b : Bytes) : (stamp v b).length = b.length := by
  simp [stamp]

/-- The identifier of version 4 that sixteen random bytes give (`Uuid.new_v4`). -/
def ofRandom (entropy : Bytes) (h : entropy.length = 16) : Uuid :=
  ⟨stamp 4 entropy, by simp [h]⟩

end Uuid

end MessageDepot
