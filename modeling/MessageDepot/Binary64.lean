/-!
# Double-precision quotients

The double nearest to a whole number or to a quotient, ties to even, as a whole number of up
to 53 bits times a power of two. All numbers here are positive and within the range where
doubles keep 53 bits; beyond it, `overflows` tells when a product is no longer finite.

Results:
* `roundDiv_bounds`: a rounded quotient is within half a unit of the exact one.
-/
namespace MessageDepot

/-- The whole number nearest to `a / b`, a half going to the even neighbour. -/
def roundDiv (a b : Nat) : Nat :=
  let q := a / b
  let r := a % b
  if 2 * r < b then q else if b < 2 * r then q + 1 else q + q % 2

theorem roundDiv_bounds (a : Nat) {b : Nat} (h : 0 < b) :
    2 * a ≤ 2 * (roundDiv a b * b) + b ∧ 2 * (roundDiv a b * b) ≤ 2 * a + b := by
  have hd := Nat.div_add_mod a b
  have hr := Nat.mod_lt a h
  rw [Nat.mul_comm] at hd
  have e1 : (a / b + 1) * b = a / b * b + b := by rw [Nat.add_mul, Nat.one_mul]
  unfold roundDiv
  simp only
  split
  · omega
  · split
    · rw [e1]; omega
    · rcases Nat.mod_two_eq_zero_or_one (a / b) with e | e
      · rw [e, Nat.add_zero]; omega
      · rw [e, e1]; omega

/-- The number `significand * 2 ^ exponent`. -/
structure Binary64 where
  significand : Nat
  exponent : Int
  deriving DecidableEq, Repr

namespace Binary64

/-- The whole number that the double nearest to `n` stands for, `n` itself below 2 ^ 53. -/
def nearest (n : Nat) : Nat :=
  let unit := Nat.pow 2 (n.log2 - 52)
  if n < 9007199254740992 then n else roundDiv n unit * unit

/-- The double nearest to `a / b`: the power of two is chosen so that 53 bits are kept. -/
def ofQuotient (a b : Nat) : Binary64 :=
  if a = 0 then ⟨0, 0⟩
  else
    let scaled (e : Int) : Nat × Nat := (a * Nat.pow 2 (-e).toNat, b * Nat.pow 2 e.toNat)
    let low : Int := (a.log2 : Int) - b.log2 - 53
    let (n, d) := scaled low
    let e := if n / d < 9007199254740992 then low else low + 1
    let (n, d) := scaled e
    ⟨roundDiv n d, e⟩

/-- Sign, exponent and fraction fields. A significand of 2 ^ 53 carries into the exponent. -/
def bits (x : Binary64) : Nat :=
  if x.significand = 0 then 0
  else (x.exponent + 1075).toNat * 4503599627370496 + x.significand - 4503599627370496

/-- The value in hundredths, rounded to the nearest, ties to even. -/
def hundredths (x : Binary64) : Nat :=
  roundDiv (100 * x.significand * Nat.pow 2 x.exponent.toNat) (Nat.pow 2 (-x.exponent).toNat)

/-- The value with two decimals. -/
def fixedTwo (x : Binary64) : String :=
  let h := x.hundredths
  s!"{h / 100}.{h / 10 % 10}{h % 10}"

/-- Whether the nearest doubles to `m` and `10 ^ e` have a product beyond every double. -/
def overflows (m : Nat) (e : Int) : Bool :=
  m ≠ 0 && (308 < e ||
    0 ≤ e && Nat.pow 2 1024 - Nat.pow 2 970 ≤ nearest m * nearest (Nat.pow 10 e.toNat))

end Binary64

end MessageDepot
