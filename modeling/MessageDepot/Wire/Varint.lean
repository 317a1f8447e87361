import MessageDepot.Bytes

/-!
# Variable-length numbers

A number is written seven bits to a byte, lowest first, and every byte but the last has its
high bit set. Reading takes at most ten bytes, of which the tenth is at most 1, so that every
number read fits in 64 bits; a number may be read from more bytes than it needs.

Results:
* `read?_write`: what was written is read back, whatever follows it.
* `length_write`: `size` is the number of bytes written.
-/
namespace MessageDepot.Wire.Varint

/-- The bytes of a number. -/
def write (n : Nat) : Bytes :=
  if n < 128 then [n.toUInt8] else (n % 128 + 128).toUInt8 :: write (n / 128)

/-- The number of bytes of a number: one for every seven bits. -/
def size (n : Nat) : Nat := n.log2 / 7 + 1

/-- Reads a number of at most `limit` more bytes, the last of them at most 1 at the limit. -/
def readWithin : Nat → Bytes → Option (Nat × Bytes)
  | 0, _ => none
  | _, [] => none
  | limit + 1, b :: rest =>
    if b.toNat < 128 then
      if limit = 0 ∧ 1 < b.toNat then none else some (b.toNat, rest)
    else
      match readWithin limit rest with
      | some (n, rest) => some (b.toNat - 128 + 128 * n, rest)
      | none => none

/-- Reads the number at the start of the bytes. -/
def read? (b : Bytes) : Option (Nat × Bytes) := readWithin 10 b

theorem toNat_toUInt8 {n : Nat} (h : n < 256) : n.toUInt8.toNat = n := by
  simp [Nat.mod_eq_of_lt h]

theorem readWithin_write {limit n : Nat} (h : n < Nat.pow 2 (7 * limit + 1)) (rest : Bytes) :
    readWithin (limit + 1) (write n ++ rest) = some (n, rest) := by
  induction limit generalizing n with
  | zero =>
    have hn : n < 2 := by simpa using h
    have hb : n.toUInt8.toNat = n := toNat_toUInt8 (by omega)
    rw [write, if_pos (by omega)]
    simp only [List.cons_append, List.nil_append, readWithin, hb]
    rw [if_pos (by omega), if_neg (by omega)]
  | succ k ih =>
    rw [write]
    split
    · have hb : n.toUInt8.toNat = n := toNat_toUInt8 (by omega)
      simp only [List.cons_append, List.nil_append, readWithin, hb]
      rw [if_pos (by omega), if_neg (by omega)]
    · have hb : (n % 128 + 128).toUInt8.toNat = n % 128 + 128 := toNat_toUInt8 (by omega)
      have h : n < 2 ^ (7 * (k + 1) + 1) := h
      have hd : n / 128 < 2 ^ (7 * k + 1) := by
        rw [Nat.div_lt_iff_lt_mul (by decide)]
        have e : 2 ^ (7 * k + 1) * 128 = 2 ^ (7 * (k + 1) + 1) := by
          rw [show 7 * (k + 1) + 1 = 7 * k + 1 + 7 by omega, Nat.pow_add 2 (7 * k + 1) 7]
        omega
      simp only [List.cons_append]
      rw [readWithin, hb, if_neg (by omega), ih hd]
      simp only [Option.some.injEq, Prod.mk.injEq, and_true]
      omega

theorem read?_write {n : Nat} (h : n < 18446744073709551616) (rest : Bytes) :
    read? (write n ++ rest) = some (n, rest) :=
  @readWithin_write 9 n h rest

theorem length_write (n : Nat) : (write n).length = size n := by
  induction n using Nat.strongRecOn with
  | ind n ih =>
    rw [write]
    split
    · rename_i h
      have : n.log2 < 7 := by
        by_cases h0 : n = 0
        · subst h0; decide
        · exact (Nat.log2_lt h0).2 (by omega)
      simp [size]; omega
    · rename_i h
      have hl : n.log2 = (n / 128).log2 + 7 := by
        have h1 : n / 128 = n >>> 7 := by simp [Nat.shiftRight_eq_div_pow]
        have e1 := Nat.log2_self_le (n := n / 128) (by omega)
        have e2 := Nat.lt_log2_self (n := n / 128)
        refine Nat.le_antisymm ?_ ?_
        · have : n.log2 < (n / 128).log2 + 8 := by
            apply (Nat.log2_lt (by omega)).2
            have : n < 128 * 2 ^ ((n / 128).log2 + 1) := by omega
            rw [show (n / 128).log2 + 8 = (n / 128).log2 + 1 + 7 by omega, Nat.pow_add]
            omega
          omega
        · apply (Nat.le_log2 (by omega)).2
          rw [Nat.pow_add]
          omega
      rw [List.length_cons, ih (n / 128) (by omega), size, size, hl]
      omega

end MessageDepot.Wire.Varint
