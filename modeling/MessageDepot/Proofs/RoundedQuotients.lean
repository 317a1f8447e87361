import Mathlib.Algebra.Order.Field.Basic
import Mathlib.Algebra.Order.Field.Rat
import Mathlib.Tactic.FieldSimp
import Mathlib.Tactic.Linarith
import MessageDepot.Binary64

/-!
# Rounded quotients

A whole number of more than 53 bits is rounded in units of a power of two, and a quotient in units
that leave 53 bits of it in front of the unit (`exists_scale`). A number is off by half a unit at
most (`roundDiv_bounds`), which is one part in `2 ^ 53` of it then. So the quotient of two numbers,
each of them rounded and the quotient once more, is off by three such parts and a little.

Results:
* `isRounded_nearest`, `isRounded_ofQuotient`: numbers and quotients rounded once.
* `abs_sub_div_le`: a rounded quotient of rounded numbers.
-/
namespace MessageDepot.Binary64

/-! ## Rounded numbers -/

/-- The number that a double stands for. -/
def value (x : Binary64) : ℚ :=
  (x.significand * Nat.pow 2 x.exponent.toNat : Nat) / (Nat.pow 2 (-x.exponent).toNat : Nat)

/-- A number that was rounded to 53 bits: it is off by at most one part in `2 ^ 53`. -/
def IsRounded (x y : ℚ) : Prop := |x - y| * 9007199254740992 ≤ y

theorem isRounded_iff {x y : ℚ} : IsRounded x y ↔
    y * 9007199254740992 ≤ x * 9007199254740992 + y ∧
      x * 9007199254740992 ≤ y * 9007199254740992 + y := by
  rw [IsRounded, ← le_div_iff₀ (by norm_num), abs_le]
  constructor
  · rintro ⟨hlow, hhigh⟩
    constructor <;> linarith
  · rintro ⟨hlow, hhigh⟩
    constructor <;> linarith

theorem IsRounded.pos {x y : ℚ} (h : IsRounded x y) (hy : 0 < y) : 0 < x := by
  obtain ⟨hlow, -⟩ := isRounded_iff.1 h
  linarith

theorem IsRounded.div {x y c : ℚ} (h : IsRounded x y) (hc : 0 < c) : IsRounded (x / c) (y / c) := by
  rw [IsRounded, ← sub_div, abs_div, abs_of_pos hc, div_mul_eq_mul_div]
  exact div_le_div_of_nonneg_right h hc.le

/-- Half a unit is at most one part in `2 ^ 53` of what has 53 bits in front of the unit. -/
theorem isRounded_roundDiv {a b : ℕ} (hb : 0 < b) (h : 4503599627370496 * b ≤ a) :
    IsRounded (roundDiv a b * b : ℕ) a := by
  obtain ⟨hlow, hhigh⟩ := roundDiv_bounds a hb
  rw [isRounded_iff]
  generalize roundDiv a b * b = r at hlow hhigh
  have hunit : (4503599627370496 * b : ℚ) ≤ a := by exact_mod_cast h
  have hlow' : (2 * a : ℚ) ≤ 2 * r + b := by exact_mod_cast hlow
  have hhigh' : (2 * r : ℚ) ≤ 2 * a + b := by exact_mod_cast hhigh
  constructor <;> linarith

theorem isRounded_nearest (n : ℕ) : IsRounded (nearest n) n := by
  unfold nearest
  simp only
  split
  · rw [IsRounded, sub_self, abs_zero, zero_mul]
    exact Nat.cast_nonneg n
  · rename_i h
    have hne : n ≠ 0 := by omega
    have hlog : 53 ≤ n.log2 := (Nat.le_log2 hne).2 (by omega)
    refine isRounded_roundDiv (Nat.pow_pos (by decide)) ?_
    calc 4503599627370496 * 2 ^ (n.log2 - 52)
      _ = 2 ^ (52 + (n.log2 - 52)) := by rw [Nat.pow_add]
      _ = 2 ^ n.log2 := by rw [Nat.add_sub_cancel' (by omega)]
      _ ≤ n := Nat.log2_self_le hne

/-! ## The unit of a quotient -/

/-- The first exponent to be tried leaves 53 bits of the quotient, or 54. -/
theorem scale_log2 {a b : ℕ} (ha : 0 < a) {low : Int} (hlow : (a.log2 : Int) - b.log2 - 53 = low) :
    4503599627370496 * (b * Nat.pow 2 low.toNat) ≤ a * Nat.pow 2 (-low).toNat := by
  have hup : b < 2 ^ (b.log2 + 1) := Nat.lt_log2_self
  have hdown : 2 ^ a.log2 ≤ a := Nat.log2_self_le (by omega)
  calc 4503599627370496 * (b * 2 ^ low.toNat)
    _ ≤ 4503599627370496 * (2 ^ (b.log2 + 1) * 2 ^ low.toNat) :=
      Nat.mul_le_mul_left _ (Nat.mul_le_mul_right _ hup.le)
    _ = 2 ^ (52 + (b.log2 + 1 + low.toNat)) := by rw [Nat.pow_add 2 52, Nat.pow_add 2 (b.log2 + 1)]
    _ = 2 ^ (a.log2 + (-low).toNat) := by
      congr 1
      omega
    _ = 2 ^ a.log2 * 2 ^ (-low).toNat := Nat.pow_add ..
    _ ≤ a * 2 ^ (-low).toNat := Nat.mul_le_mul_right _ hdown

/-- The next exponent takes one bit away. -/
theorem scale_succ {a b : ℕ} {e : Int}
    (h : 9007199254740992 * (b * Nat.pow 2 e.toNat) ≤ a * Nat.pow 2 (-e).toNat) :
    4503599627370496 * (b * Nat.pow 2 (e + 1).toNat) ≤ a * Nat.pow 2 (-(e + 1)).toNat := by
  change 9007199254740992 * (b * 2 ^ e.toNat) ≤ a * 2 ^ (-e).toNat at h
  change 4503599627370496 * (b * 2 ^ (e + 1).toNat) ≤ a * 2 ^ (-(e + 1)).toNat
  -- one of the two powers is 1: the other one doubles, or is halved
  by_cases hsign : 0 ≤ e
  · have hup : (e + 1).toNat = e.toNat + 1 := by omega
    have hdown : (-(e + 1)).toNat = 0 ∧ (-e).toNat = 0 := by omega
    rw [hup, hdown.1, Nat.pow_succ, ← Nat.mul_assoc b]
    rw [hdown.2] at h
    omega
  · have hup : (e + 1).toNat = 0 ∧ e.toNat = 0 := by omega
    have hdown : (-e).toNat = (-(e + 1)).toNat + 1 := by omega
    rw [hup.1]
    rw [hup.2, hdown, Nat.pow_succ, ← Nat.mul_assoc a] at h
    omega

/-- The power of two leaves 53 bits of the quotient in front of the unit. -/
theorem exists_scale {a b : ℕ} (ha : 0 < a) (hb : 0 < b) : ∃ e : Int,
    ofQuotient a b = ⟨roundDiv (a * Nat.pow 2 (-e).toNat) (b * Nat.pow 2 e.toNat), e⟩ ∧
      4503599627370496 * (b * Nat.pow 2 e.toNat) ≤ a * Nat.pow 2 (-e).toNat := by
  unfold ofQuotient
  rw [if_neg (by omega)]
  generalize hlow : (a.log2 : Int) - b.log2 - 53 = low
  simp only
  split
  · exact ⟨low, rfl, scale_log2 ha hlow⟩
  · rename_i h
    have hpos : 0 < b * Nat.pow 2 low.toNat := Nat.mul_pos hb (Nat.pow_pos (by decide))
    rw [Nat.not_lt, Nat.le_div_iff_mul_le hpos] at h
    exact ⟨low + 1, rfl, scale_succ h⟩

theorem isRounded_ofQuotient (a : ℕ) {b : ℕ} (hb : 0 < b) :
    IsRounded (ofQuotient a b).value (a / b) := by
  by_cases ha : a = 0
  · subst ha
    norm_num [ofQuotient, value, IsRounded]
  obtain ⟨e, he, hbits⟩ := exists_scale (Nat.pos_of_ne_zero ha) hb
  have hup : 0 < Nat.pow 2 e.toNat := Nat.pow_pos (by decide)
  have hdown : 0 < Nat.pow 2 (-e).toNat := Nat.pow_pos (by decide)
  have hrounded := isRounded_roundDiv (Nat.mul_pos hb hup) hbits
  rw [he, value]
  generalize roundDiv (a * Nat.pow 2 (-e).toNat) (b * Nat.pow 2 e.toNat) = r at hrounded
  generalize Nat.pow 2 e.toNat = up at hup hrounded
  generalize Nat.pow 2 (-e).toNat = down at hdown hrounded
  have hb' : (0 : ℚ) < b := by exact_mod_cast hb
  have hdown' : (0 : ℚ) < down := by exact_mod_cast hdown
  have h := hrounded.div (mul_pos hdown' hb')
  have hvalue : ((r * (b * up) : ℕ) : ℚ) / (down * b) = (r * up : ℕ) / down := by
    push_cast
    field_simp
  have hexact : ((a * down : ℕ) : ℚ) / (down * b) = a / b := by
    push_cast
    field_simp
  rwa [hvalue, hexact] at h

/-! ## Three roundings -/

/-- The bounds of a rounded quotient, without its denominator. -/
theorem IsRounded.div_bounds {x a b : ℚ} (h : IsRounded x (a / b)) (hb : 0 < b) :
    a * 9007199254740991 ≤ x * b * 9007199254740992 ∧
      x * b * 9007199254740992 ≤ a * 9007199254740993 := by
  obtain ⟨hlow, hhigh⟩ := isRounded_iff.1 h
  have hlow' : a / b * 9007199254740991 ≤ x * 9007199254740992 := by linarith
  have hhigh' : x * 9007199254740992 ≤ a / b * 9007199254740993 := by linarith
  rw [div_mul_eq_mul_div, div_le_iff₀ hb] at hlow'
  rw [div_mul_eq_mul_div, le_div_iff₀ hb] at hhigh'
  constructor <;> linarith

/-- The quotient of two rounded numbers, rounded again, is off by at most one part in `2 ^ 51`. -/
theorem abs_sub_div_le {a b a' b' x : ℚ} (ha : IsRounded a' a) (hb : IsRounded b' b) (hpos : 0 < b)
    (hx : IsRounded x (a' / b')) : |x - a / b| * 2251799813685248 ≤ a / b := by
  have hb' := hb.pos hpos
  obtain ⟨hlow, hhigh⟩ := hx.div_bounds hb'
  rw [isRounded_iff] at ha hb
  have hx0 : 0 ≤ x := by
    have h : 0 * b' ≤ x * b' := by linarith
    exact le_of_mul_le_mul_right h hb'
  have hblow := mul_le_mul_of_nonneg_left hb.1 hx0
  have hbhigh := mul_le_mul_of_nonneg_left hb.2 hx0
  obtain ⟨y, rfl⟩ : ∃ y, a = y * b := ⟨a / b, (div_mul_cancel₀ a hpos.ne').symm⟩
  rw [mul_div_cancel_right₀ y hpos.ne', ← le_div_iff₀ (by norm_num), abs_le]
  constructor
  · have h : y * 9007199254740988 * (b * 9007199254740993) ≤
        x * 9007199254740992 * (b * 9007199254740993) := by linarith
    linarith [le_of_mul_le_mul_right h (by linarith)]
  · have h : x * 9007199254740992 * (b * 9007199254740991) ≤
        y * 9007199254740996 * (b * 9007199254740991) := by linarith
    linarith [le_of_mul_le_mul_right h (by linarith)]

end MessageDepot.Binary64
