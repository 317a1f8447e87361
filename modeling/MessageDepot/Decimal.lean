/-!
# Decimal numbers

Numbers are written with a minus sign when negative and without leading zeros. Reading
takes one sign at most, then digits only.

Results:
* `integer?_text`: reading undoes writing.
* `int64?_text`: so it does within the signed 64-bit range.
-/
namespace MessageDepot.Decimal

/-- The decimal text of a number. -/
def text (i : Int) : String := i.repr

/-- The value of a non-empty run of digits. -/
def natural? (ds : List Char) : Option Nat :=
  if ds ≠ [] ∧ ds.all Char.isDigit then some (Nat.ofDigitChars 10 ds 0) else none

/-- The value of a run of digits that may have a sign in front. -/
def signed? : List Char → Option Int
  | '-' :: ds => (natural? ds).map fun n : Nat => -(n : Int)
  | '+' :: ds => (natural? ds).map fun n : Nat => (n : Int)
  | ds => (natural? ds).map fun n : Nat => (n : Int)

def integer? (s : String) : Option Int := signed? s.toList

/-- A number as a signed 64-bit word, if it fits. -/
def word? (i : Int) : Option Int64 :=
  if h : Int64.minValue.toInt ≤ i ∧ i ≤ Int64.maxValue.toInt then
    some (Int64.ofIntLE i h.1 h.2)
  else none

/-- Reads a signed 64-bit number. -/
def int64? (s : String) : Option Int64 := (integer? s).bind word?

theorem natural?_toDigits (n : Nat) : natural? (Nat.toDigits 10 n) = some n := by
  have hd : (Nat.toDigits 10 n).all Char.isDigit = true :=
    List.all_eq_true.2 fun c hc => Nat.isDigit_of_mem_toDigits (by decide) (by decide) hc
  simp [natural?, hd, Nat.ofDigitChars_ten_toDigits]

theorem signed?_toDigits (n : Nat) : signed? (Nat.toDigits 10 n) = some (n : Int) := by
  have hn := natural?_toDigits n
  obtain ⟨c, cs, hc⟩ := List.exists_cons_of_ne_nil (Nat.toDigits_ne_nil (n := n) (b := 10))
  have hdig : c.isDigit :=
    Nat.isDigit_of_mem_toDigits (b := 10) (n := n) (by decide) (by decide) (by simp [hc])
  rw [hc] at hn ⊢
  unfold signed?
  split
  · rename_i e; simp only [List.cons.injEq] at e; rw [e.1] at hdig; simp at hdig
  · rename_i e; simp only [List.cons.injEq] at e; rw [e.1] at hdig; simp at hdig
  · simp [hn]

@[simp] theorem integer?_text (i : Int) : integer? (text i) = some i := by
  unfold integer? text
  rw [Int.repr_eq_if]
  split
  · rename_i h
    rw [Nat.repr_eq_ofList_toDigits, String.toList_ofList, signed?_toDigits,
      Int.toNat_of_nonneg h]
  · rename_i h
    have e : ("-" ++ (-i).toNat.repr).toList = '-' :: Nat.toDigits 10 (-i).toNat := by
      simp [Nat.repr_eq_ofList_toDigits]
    rw [e]
    simp only [signed?, natural?_toDigits, Option.map_some, Option.some.injEq]
    rw [Int.toNat_of_nonneg (by omega), Int.neg_neg]

theorem text_injective {i j : Int} (h : text i = text j) : i = j :=
  Option.some.inj (by rw [← integer?_text i, h, integer?_text])

@[simp] theorem word?_toInt (x : Int64) : word? x.toInt = some x := by
  have h : Int64.minValue.toInt ≤ x.toInt ∧ x.toInt ≤ Int64.maxValue.toInt :=
    ⟨Int64.minValue_le_toInt x, Int64.toInt_le x⟩
  simp only [word?, h, and_self, dite_true, Int64.ofIntLE_toInt]

@[simp] theorem int64?_text (x : Int64) : int64? (text x.toInt) = some x := by
  simp [int64?]

end MessageDepot.Decimal
