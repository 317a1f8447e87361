import MessageDepot.Bytes

/-!
# Bytes in hexadecimal

Every byte is written as two lower-case digits, the high half first; digits of either case
are read.

Results:
* `bytes?_ofBytes`: reading undoes writing.
-/
namespace MessageDepot.Hex

/-- The two lower-case digits of a byte. -/
def ofByte (b : UInt8) : List Char := [Nat.digitChar (b.toNat / 16), Nat.digitChar (b.toNat % 16)]

def ofBytes (b : Bytes) : List Char := b.flatMap ofByte

/-- The value of a hex digit of either case. -/
def digit? (c : Char) : Option Nat :=
  if '0' ≤ c ∧ c ≤ '9' then some (c.toNat - '0'.toNat)
  else if 'a' ≤ c ∧ c ≤ 'f' then some (c.toNat - 'a'.toNat + 10)
  else if 'A' ≤ c ∧ c ≤ 'F' then some (c.toNat - 'A'.toNat + 10)
  else none

/-- Two digits to a byte. -/
def bytes? : List Char → Option Bytes
  | [] => some []
  | [_] => none
  | h :: l :: rest =>
    match digit? h, digit? l, bytes? rest with
    | some h, some l, some bs => some ((16 * h + l).toUInt8 :: bs)
    | _, _, _ => none

theorem digit?_digitChar : ∀ n < 16, digit? (Nat.digitChar n) = some n := by decide

theorem digit?_high (b : UInt8) : digit? (Nat.digitChar (b.toNat / 16)) = some (b.toNat / 16) :=
  digit?_digitChar _ (by have := b.toNat_lt; omega)

theorem digit?_low (b : UInt8) : digit? (Nat.digitChar (b.toNat % 16)) = some (b.toNat % 16) :=
  digit?_digitChar _ (by omega)

@[simp] theorem bytes?_ofBytes (b : Bytes) : bytes? (ofBytes b) = some b := by
  induction b with
  | nil => rfl
  | cons x xs ih =>
    have e : ofBytes (x :: xs) = Nat.digitChar (x.toNat / 16) :: Nat.digitChar (x.toNat % 16)
        :: ofBytes xs := rfl
    rw [e, bytes?, digit?_high, digit?_low, ih]
    simp [show 16 * (x.toNat / 16) + x.toNat % 16 = x.toNat by omega]

@[simp] theorem length_ofBytes (b : Bytes) : (ofBytes b).length = 2 * b.length := by
  induction b with
  | nil => rfl
  | cons x xs ih => simp [ofBytes, ofByte] at ih ⊢; omega

end MessageDepot.Hex
