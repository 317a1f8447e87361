import MessageDepot.Digest.Sha1
import MessageDepot.Uuid.Basic

/-!
# Identifiers made from names

A name within a namespace is hashed with SHA-1; the first sixteen bytes of the digest,
stamped with version 5, are its identifier.

Results:
* `version_named`, `isStandardVariant_named`: the stamp shows on every named identifier.
-/
namespace MessageDepot.Uuid

/-- The version 5 identifier of a name in a namespace (`Uuid.new_v5`). -/
def named (space : Uuid) (name : Bytes) : Uuid :=
  ⟨stamp 5 ((Sha1.digest (space.bytes ++ name)).take 16), by simp⟩

theorem stamped_version : ∀ n < 256, (n &&& 15 ||| 80) / 16 = 5 := by decide +kernel

theorem stamped_variant : ∀ n < 256, (n &&& 63 ||| 128) / 64 = 2 := by decide +kernel

theorem version_named (space : Uuid) (name : Bytes) : (named space name).version = 5 := by
  have h := Sha1.length_digest (space.bytes ++ name)
  simp [version, named, stamp, h, stamped_version _ (UInt8.toNat_lt _)]

theorem isStandardVariant_named (space : Uuid) (name : Bytes) :
    (named space name).isStandardVariant = true := by
  have h := Sha1.length_digest (space.bytes ++ name)
  simp [isStandardVariant, named, stamp, h, stamped_variant _ (UInt8.toNat_lt _)]

end MessageDepot.Uuid
