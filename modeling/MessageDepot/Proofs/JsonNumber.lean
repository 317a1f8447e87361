import MessageDepot.Json.Number
import MessageDepot.Proofs.JsonText

/-!
# Numbers in JSON

The grammar of numbers (`IsNumber`), and the decimal text of an integer as one of them. A number is
its own end only where what follows cannot belong to it (`Stops`): space, punctuation or the end of
the input. Of the digits of an integer the reader keeps a running value, which never passes the
integer itself, so it is kept exactly as long as the integer fits in 64 bits.

Results:
* `skipNumber_append`: every number is passed over.
* `isWhole_digitBytes`, `absorb_digitBytes`: the digits of a number, and their value.
* `readNumber_natural`, `readNumber_negative`: integers are read from their decimal texts.
-/
namespace MessageDepot.Json

/-! ## Grammar -/

/-- A zero, or digits of which the first is no zero. -/
inductive IsWhole : Bytes → Prop where
  | zero : IsWhole [0x30]
  | digits {d : UInt8} {ds : Bytes} : isDigit d = true → d ≠ 0x30 → (∀ x ∈ ds, isDigit x = true) →
    IsWhole (d :: ds)

/-- Digits, of which there has to be one. -/
def IsDigits (b : Bytes) : Prop := b ≠ [] ∧ ∀ x ∈ b, isDigit x = true

/-- Nothing, or digits behind a point. -/
inductive IsFraction : Bytes → Prop where
  | none : IsFraction []
  | some {ds : Bytes} : IsDigits ds → IsFraction (0x2e :: ds)

/-- Nothing, or digits behind a letter of either case, with or without a sign. -/
inductive IsExponent : Bytes → Prop where
  | none : IsExponent []
  | some {e : UInt8} {sign ds : Bytes} : e = 0x65 ∨ e = 0x45 → sign ∈ [[], [0x2b], [0x2d]] →
    IsDigits ds → IsExponent (e :: (sign ++ ds))

/-- Bytes are a number of any size. -/
inductive IsNumber : Bytes → Prop where
  | parts {sign whole fraction exponent : Bytes} : sign ∈ [[], [0x2d]] → IsWhole whole →
    IsFraction fraction → IsExponent exponent → IsNumber (sign ++ whole ++ fraction ++ exponent)

/-- No number goes on with these bytes. -/
def Stops (b : Bytes) : Prop :=
  ∀ c ∈ b.head?, isDigit c = false ∧ c ≠ 0x2e ∧ c ≠ 0x65 ∧ c ≠ 0x45

/-! ## Reading -/

theorem span_digits {ds rest : Bytes} (hds : ∀ x ∈ ds, isDigit x = true)
    (hrest : ∀ c ∈ rest.head?, isDigit c = false) :
    (ds ++ rest).takeWhile isDigit = ds ∧ (ds ++ rest).dropWhile isDigit = rest := by
  rw [List.takeWhile_append_of_pos hds, List.dropWhile_append_of_pos hds]
  cases rest with
  | nil => simp
  | cons c rest =>
    have hc := hrest c rfl
    simp [hc]

theorem readWhole_append {whole rest : Bytes} (h : IsWhole whole)
    (hrest : ∀ c ∈ rest.head?, isDigit c = false) :
    readWhole (whole ++ rest) = .ok (whole, rest) := by
  cases h with
  | zero =>
    cases rest with
    | nil => rfl
    | cons c rest =>
      have hc := hrest c rfl
      simp [readWhole, hc]
  | digits hd hzero hds =>
    obtain ⟨htake, hdrop⟩ := span_digits hds hrest
    unfold readWhole
    simp only [List.cons_append, if_neg hzero, if_pos hd, htake, hdrop]

theorem readDigits_append {ds rest : Bytes} (h : IsDigits ds)
    (hrest : ∀ c ∈ rest.head?, isDigit c = false) : readDigits (ds ++ rest) = .ok (ds, rest) := by
  obtain ⟨hne, hds⟩ := h
  obtain ⟨htake, hdrop⟩ := span_digits hds hrest
  obtain ⟨d, ds, rfl⟩ := List.exists_cons_of_ne_nil hne
  rw [List.cons_append] at htake hdrop ⊢
  rw [readDigits, if_pos (hds d (by simp)), htake, hdrop]

theorem readFraction_none {rest : Bytes} (h : ∀ c ∈ rest.head?, c ≠ 0x2e) :
    readFraction rest = .ok (none, rest) := by
  unfold readFraction
  split
  · exact absurd rfl (h _ rfl)
  · rfl

theorem readFraction_append {fraction rest : Bytes} (h : IsFraction fraction)
    (hrest : ∀ c ∈ rest.head?, isDigit c = false ∧ c ≠ 0x2e) :
    ∃ o, readFraction (fraction ++ rest) = .ok (o, rest) := by
  cases h with
  | none => exact ⟨none, readFraction_none fun c hc => (hrest c hc).2⟩
  | @some ds hds =>
    refine ⟨some ds, ?_⟩
    rw [List.cons_append, readFraction, readDigits_append hds fun c hc => (hrest c hc).1]

theorem readSign_append {sign : Bytes} (h : sign ∈ [[], [0x2b], [0x2d]]) {ds : Bytes}
    (hds : IsDigits ds) (rest : Bytes) :
    ∃ minus, readSign (sign ++ ds ++ rest) = (minus, ds ++ rest) := by
  obtain ⟨hne, hdigits⟩ := hds
  obtain ⟨d, ds, rfl⟩ := List.exists_cons_of_ne_nil hne
  have hd := hdigits d (by simp)
  simp only [List.mem_cons, List.not_mem_nil, or_false] at h
  rcases h with rfl | rfl | rfl
  · refine ⟨false, ?_⟩
    rw [List.nil_append, List.cons_append]
    unfold readSign
    split
    · rename_i he
      cases he
      cases hd
    · rename_i he
      cases he
      cases hd
    · rfl
  · exact ⟨false, rfl⟩
  · exact ⟨true, rfl⟩

theorem readExponent_none {rest : Bytes} (h : Stops rest) :
    readExponent rest = .ok (none, rest) := by
  cases rest with
  | nil => rfl
  | cons c rest =>
    have hc := h c rfl
    rw [readExponent, if_neg (by simp [hc])]

theorem readExponent_append {exponent rest : Bytes} (h : IsExponent exponent) (hrest : Stops rest) :
    ∃ o, readExponent (exponent ++ rest) = .ok (o, rest) := by
  cases h with
  | none => exact ⟨none, readExponent_none hrest⟩
  | some he hsign hds =>
    obtain ⟨minus, hread⟩ := readSign_append hsign hds rest
    rw [List.cons_append, readExponent, if_pos he, hread]
    simp only [readDigits_append hds fun c hc => (hrest c hc).1]
    exact ⟨_, rfl⟩

theorem IsWhole.head_digit {whole : Bytes} (h : IsWhole whole) (rest : Bytes) :
    ∃ d ds, whole ++ rest = d :: ds ∧ isDigit d = true := by
  cases h with
  | zero => exact ⟨_, _, rfl, rfl⟩
  | digits hd => exact ⟨_, _, rfl, hd⟩

theorem stops_digits {fraction exponent rest : Bytes} (hf : IsFraction fraction)
    (he : IsExponent exponent) (hr : Stops rest) :
    ∀ c ∈ (fraction ++ (exponent ++ rest)).head?, isDigit c = false := by
  cases hf with
  | none =>
    cases he with
    | none => exact fun c hc => (hr c hc).1
    | some he =>
      rintro c ⟨rfl⟩
      rcases he with rfl | rfl <;> rfl
  | some =>
    rintro c ⟨rfl⟩
    rfl

theorem stops_exponent {exponent rest : Bytes} (he : IsExponent exponent) (hr : Stops rest) :
    ∀ c ∈ (exponent ++ rest).head?, isDigit c = false ∧ c ≠ 0x2e := by
  cases he with
  | none => exact fun c hc => ⟨(hr c hc).1, (hr c hc).2.1⟩
  | some he =>
    rintro c ⟨rfl⟩
    rcases he with rfl | rfl <;> decide

/-- A whole part does not start with a minus. -/
theorem IsWhole.ne_minus {whole : Bytes} (h : IsWhole whole) (rest b : Bytes) :
    whole ++ rest ≠ 0x2d :: b := by
  obtain ⟨d, ds, he, hd⟩ := h.head_digit rest
  rw [he]
  rintro ⟨rfl⟩
  cases hd

/-- Every number is passed over, whatever its size. -/
theorem skipNumber_append {b rest : Bytes} (h : IsNumber b) (hr : Stops rest) :
    skipNumber (b ++ rest) = .ok rest := by
  obtain @⟨sign, whole, fraction, exponent, hsign, hw, hf, he⟩ := h
  obtain ⟨o, hfraction⟩ := readFraction_append hf (stops_exponent he hr)
  obtain ⟨o', hexponent⟩ := readExponent_append he hr
  have hwhole := readWhole_append hw (stops_digits hf he hr)
  simp only [List.mem_cons, List.not_mem_nil, or_false] at hsign
  simp only [List.append_assoc]
  unfold skipNumber
  rcases hsign with rfl | rfl
  · rw [List.nil_append]
    split
    · rename_i hminus
      exact absurd hminus (hw.ne_minus _ _)
    · simp only [hwhole, hfraction, hexponent]
  · simp only [List.cons_append, List.nil_append, hwhole, hfraction, hexponent]

theorem IsNumber.exists_head {b : Bytes} (h : IsNumber b) :
    ∃ c t, b = c :: t ∧ (c = 0x2d ∨ isDigit c = true) := by
  obtain @⟨sign, whole, fraction, exponent, hsign, hw, -, -⟩ := h
  obtain ⟨d, ds, he, hd⟩ := hw.head_digit (fraction ++ exponent)
  simp only [List.append_assoc, he]
  simp only [List.mem_cons, List.not_mem_nil, or_false] at hsign
  rcases hsign with rfl | rfl
  · exact ⟨d, ds, rfl, .inr hd⟩
  · exact ⟨0x2d, _, rfl, .inl rfl⟩

/-! ## Integers -/

/-- The decimal digits of a number. -/
def digitBytes (n : Nat) : Bytes := (Nat.toDigits 10 n).map fun c => c.toNat.toUInt8

theorem digitBytes_of_lt {n : Nat} (h : n < 10) : digitBytes n = [(48 + n).toUInt8] := by
  rw [digitBytes, Nat.toDigits_of_lt_base h, List.map_singleton, Nat.toNat_digitChar_of_lt_ten h]

theorem digitBytes_of_le {n : Nat} (h : 10 ≤ n) :
    digitBytes n = digitBytes (n / 10) ++ [(48 + n % 10).toUInt8] := by
  rw [digitBytes, Nat.toDigits_of_base_le (by decide) h, List.map_append, List.map_singleton,
    Nat.toNat_digitChar_of_lt_ten (Nat.mod_lt n (by decide)), digitBytes]

theorem toNat_digit {n : Nat} (h : n < 10) : (48 + n).toUInt8.toNat = 48 + n := by
  rw [Nat.toUInt8_eq, UInt8.toNat_ofNat']
  omega

theorem isDigit_digit {n : Nat} (h : n < 10) : isDigit (48 + n).toUInt8 = true := by
  have hall : ∀ k < 10, isDigit (48 + k).toUInt8 = true := by decide
  exact hall n h

theorem digitValue_digit {n : Nat} (h : n < 10) : digitValue (48 + n).toUInt8 = n := by
  rw [digitValue, toNat_digit h]
  exact Nat.add_sub_cancel_left ..

theorem isDigit_of_mem_digitBytes (n : Nat) : ∀ x ∈ digitBytes n, isDigit x = true := by
  induction n using Nat.strongRecOn with
  | ind n ih =>
    by_cases h : n < 10
    · rw [digitBytes_of_lt h]
      simp only [List.mem_singleton, forall_eq, isDigit_digit h]
    · rw [digitBytes_of_le (by omega)]
      intro x hx
      rcases List.mem_append.1 hx with hx | hx
      · exact ih (n / 10) (by omega) x hx
      · rw [List.mem_singleton.1 hx]
        exact isDigit_digit (Nat.mod_lt n (by decide))

theorem head_digitBytes {n : Nat} (h : 0 < n) :
    ∃ d ds, digitBytes n = d :: ds ∧ d ≠ 0x30 := by
  induction n using Nat.strongRecOn with
  | ind n ih =>
    by_cases h10 : n < 10
    · refine ⟨_, [], digitBytes_of_lt h10, fun he => ?_⟩
      have hnat := congrArg UInt8.toNat he
      rw [toNat_digit h10] at hnat
      change 48 + n = 48 at hnat
      omega
    · obtain ⟨d, ds, he, hd⟩ := ih (n / 10) (by omega) (by omega)
      rw [digitBytes_of_le (by omega), he]
      exact ⟨d, _, rfl, hd⟩

/-- The digits of a number are a whole part: only zero starts with one. -/
theorem isWhole_digitBytes (n : Nat) : IsWhole (digitBytes n) := by
  by_cases h : n = 0
  · rw [h]
    exact .zero
  · obtain ⟨d, ds, he, hd⟩ := head_digitBytes (Nat.pos_of_ne_zero h)
    have hdigits := isDigit_of_mem_digitBytes n
    rw [he] at hdigits ⊢
    exact .digits (hdigits d (by simp)) hd fun x hx => hdigits x (by simp [hx])

theorem digitsValue_concat (ds : Bytes) (d : UInt8) :
    digitsValue (ds ++ [d]) = 10 * digitsValue ds + digitValue d := by
  simp [digitsValue]

theorem digitsValue_digitBytes (n : Nat) : digitsValue (digitBytes n) = n := by
  induction n using Nat.strongRecOn with
  | ind n ih =>
    by_cases h : n < 10
    · rw [digitBytes_of_lt h, ← List.nil_append [_], digitsValue_concat, digitValue_digit h]
      exact Nat.zero_add n
    · rw [digitBytes_of_le (by omega), digitsValue_concat, ih _ (by omega),
        digitValue_digit (Nat.mod_lt n (by decide))]
      omega

/-- A running value never passes the whole one, so nothing is left over if that fits. -/
theorem absorb_eq {ds : Bytes} {m : Nat}
    (h : ds.foldl (fun n d => 10 * n + digitValue d) m < 18446744073709551616) :
    absorb m ds = (ds.foldl (fun n d => 10 * n + digitValue d) m, 0) := by
  have hge (ds : Bytes) : ∀ m, m ≤ ds.foldl (fun n d => 10 * n + digitValue d) m := by
    induction ds with
    | nil => exact fun m => Nat.le_refl m
    | cons d ds ih =>
      intro m
      have hrest := ih (10 * m + digitValue d)
      rw [List.foldl_cons]
      omega
  induction ds generalizing m with
  | nil => rfl
  | cons d ds ih =>
    rw [List.foldl_cons] at h ⊢
    rw [absorb, if_pos (Nat.lt_of_le_of_lt (hge ds _) h), ih h]

theorem absorb_digitBytes {n : Nat} (h : n < 18446744073709551616) :
    absorb 0 (digitBytes n) = (n, 0) := by
  have hvalue : (digitBytes n).foldl (fun n d => 10 * n + digitValue d) 0 = n :=
    digitsValue_digitBytes n
  rw [absorb_eq (by rwa [hvalue]), hvalue]

theorem classify_digitBytes {n : Nat} (h : n < 18446744073709551616) (minus : Bool) :
    classify minus (digitBytes n) none none = .ok (integer minus n) := by
  rw [classify, absorb_digitBytes h]
  exact if_pos ⟨rfl, rfl, rfl⟩

section Integers

variable {n : Nat} {rest : Bytes}

theorem readNumber_natural (h : n < 18446744073709551616) (hr : Stops rest) :
    readNumber (digitBytes n ++ rest) = .ok (.natural n, rest) := by
  have hw := isWhole_digitBytes n
  have hwhole := readWhole_append hw fun c hc => (hr c hc).1
  have hfraction := readFraction_none fun c hc => (hr c hc).2.1
  unfold readNumber
  split
  rename_i minus b hm
  split at hm
  · rename_i hminus
    exact absurd hminus (hw.ne_minus _ _)
  · cases hm
    simp only [hwhole, hfraction, readExponent_none hr, classify_digitBytes h]
    rfl

theorem readNumber_negative (h : 1 ≤ n) (hle : n ≤ 9223372036854775808) (hr : Stops rest) :
    readNumber (0x2d :: digitBytes n ++ rest) = .ok (.negative n, rest) := by
  have hwhole := readWhole_append (isWhole_digitBytes n) fun c hc => (hr c hc).1
  have hfraction := readFraction_none fun c hc => (hr c hc).2.1
  have hinteger : integer true n = .negative n := by
    rw [integer, if_neg (by decide), if_pos ⟨h, hle⟩]
  unfold readNumber
  simp only [List.cons_append, hwhole, hfraction, readExponent_none hr,
    classify_digitBytes (show n < 18446744073709551616 by omega), hinteger]

end Integers

end MessageDepot.Json
