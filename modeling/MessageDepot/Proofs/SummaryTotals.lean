import Mathlib.Algebra.Order.Field.Rat
import Mathlib.Data.Finset.Max
import Mathlib.Data.List.Basic
import MessageDepot.Proofs.RoundedQuotients
import MessageDepot.Quote.Summary

/-!
# Totals of summaries

A summary adds up in 64 bits what quotes offer. As long as the totals over all quotes fit in 64
bits, so does every partial sum on the way, since amounts are never negative, and every product,
since both factors fit in 32 bits. So a summary holds the exact totals (`IsTotal`): one step adds
the amounts of a quote, and by induction a run adds those of a list, whatever its start. Exact
totals are sums, to which order and grouping are nothing. Each quote gives its price times its
quantity to the one total and its quantity to the other, so bounds on the prices of what is offered
at all are bounds on the quotient.

Results:
* `IsTotal.add`, `IsTotal.foldl`: one quote that is added, and all quotes of a list.
* `total_perm`, `total_append`: totals in other orders and of two parts.
* `total_cost_bounds`: bounds on the prices of what is offered bound the totals.
* `abs_sub_vwap?_le`: the price that a summary gives, and the quotient of its totals.
* `volume_weighted`: the summary of quotes whose totals fit.
-/
namespace MessageDepot

namespace Quote

/-- What is offered. -/
def volume (q : Quote) : Nat := q.quantity.toNat

/-- What it costs. -/
def cost (q : Quote) : Nat := q.price.toNat * q.quantity.toNat

theorem toNat_product (q : Quote) :
    q.price.toNat * q.quantity.toNat < 18446744073709551616 ∧
      (q.price.toUInt64 * q.quantity.toUInt64).toNat = q.cost := by
  have hprice := q.price.toNat_lt
  have hquantity := q.quantity.toNat_lt
  have hlt : q.price.toNat * q.quantity.toNat < 18446744073709551616 :=
    calc q.price.toNat * q.quantity.toNat
      _ ≤ 4294967295 * 4294967295 := Nat.mul_le_mul (by omega) (by omega)
      _ < 18446744073709551616 := by decide
  refine ⟨hlt, ?_⟩
  rw [UInt64.toNat_mul, UInt32.toNat_toUInt64, UInt32.toNat_toUInt64, cost]
  exact Nat.mod_eq_of_lt hlt

end Quote

namespace QuoteSummary

/-! ## Totals -/

/-- The sum of an amount over quotes. -/
def total (amount : Quote → Nat) : List Quote → Nat
  | [] => 0
  | q :: qs => amount q + total amount qs

variable {amount : Quote → Nat}

theorem total_append (qs rs : List Quote) :
    total amount (qs ++ rs) = total amount qs + total amount rs := by
  induction qs with
  | nil => exact (Nat.zero_add _).symm
  | cons q qs ih =>
    rw [List.cons_append, total, total, ih]
    omega

theorem total_perm {qs rs : List Quote} (h : qs.Perm rs) : total amount qs = total amount rs := by
  induction h with
  | nil => rfl
  | cons q _ ih => rw [total, total, ih]
  | swap q r qs =>
    simp only [total]
    omega
  | trans _ _ ih ih' => rw [ih, ih']

theorem total_volume_eq_zero_iff {qs : List Quote} :
    total Quote.volume qs = 0 ↔ ∀ q ∈ qs, q.quantity = 0 := by
  induction qs with
  | nil => simp [total]
  | cons q qs ih =>
    have hq : q.volume = 0 ↔ q.quantity = 0 := by
      rw [Quote.volume, ← UInt32.toNat_inj]
      rfl
    rw [total, Nat.add_eq_zero_iff, ih, hq, List.forall_mem_cons]

theorem total_mono {amount' : Quote → Nat} {qs : List Quote}
    (h : ∀ q ∈ qs, amount q ≤ amount' q) : total amount qs ≤ total amount' qs := by
  induction qs with
  | nil => exact Nat.le_refl 0
  | cons q qs ih =>
    have hq := h q (by simp)
    have hrest := ih fun r hr => h r (by simp [hr])
    rw [total, total]
    omega

theorem total_mul (n : Nat) (qs : List Quote) :
    total (fun q => n * amount q) qs = n * total amount qs := by
  induction qs with
  | nil => rfl
  | cons q qs ih => rw [total, total, Nat.mul_add, ih]

/-- Quotes of nothing cost nothing, so their prices are no bounds and need none. -/
theorem total_cost_bounds {qs : List Quote} {low high : Nat}
    (h : ∀ q ∈ qs, 0 < q.quantity → low ≤ q.price.toNat ∧ q.price.toNat ≤ high) :
    low * total Quote.volume qs ≤ total Quote.cost qs ∧
      total Quote.cost qs ≤ high * total Quote.volume qs := by
  have hbounds : ∀ q ∈ qs, low * q.volume ≤ q.cost ∧ q.cost ≤ high * q.volume := by
    intro q hq
    rw [Quote.volume, Quote.cost]
    by_cases hpos : 0 < q.quantity
    · obtain ⟨hlow, hhigh⟩ := h q hq hpos
      exact ⟨Nat.mul_le_mul_right _ hlow, Nat.mul_le_mul_right _ hhigh⟩
    · have hzero : q.quantity.toNat = 0 := Nat.eq_zero_of_not_pos hpos
      simp only [hzero, Nat.mul_zero, Nat.le_refl, and_self]
  rw [← total_mul, ← total_mul]
  exact ⟨total_mono fun q hq => (hbounds q hq).1, total_mono fun q hq => (hbounds q hq).2⟩

/-! ## Summaries -/

/-- The totals of quotes fit in 64 bits. -/
def Fits (qs : List Quote) : Prop :=
  total Quote.volume qs < 18446744073709551616 ∧ total Quote.cost qs < 18446744073709551616

/-- A summary holds the exact totals of quotes. -/
structure IsTotal (s : QuoteSummary) (qs : List Quote) : Prop where
  count : s.count = qs.length
  quantity : s.quantity.toNat = total Quote.volume qs
  notional : s.notional.toNat = total Quote.cost qs

/-- Neither a sum nor the product leaves 64 bits when a quote is added. -/
structure HasRoom (s : QuoteSummary) (q : Quote) : Prop where
  quantity : s.quantity.toNat + q.quantity.toUInt64.toNat < 18446744073709551616
  product : q.price.toUInt64.toNat * q.quantity.toUInt64.toNat < 18446744073709551616
  notional : s.notional.toNat + (q.price.toUInt64 * q.quantity.toUInt64).toNat <
    18446744073709551616

/-- A quote that there is room for adds its amounts to the totals. -/
theorem IsTotal.add {s : QuoteSummary} {qs : List Quote} (h : s.IsTotal qs) {q : Quote}
    (hroom : s.HasRoom q) : (s.add q).IsTotal (qs ++ [q]) where
  count := by rw [QuoteSummary.add, h.count, List.length_append, List.length_singleton]
  quantity := by
    have hsum := hroom.quantity
    rw [QuoteSummary.add, UInt64.toNat_add, Nat.mod_eq_of_lt hsum, h.quantity, total_append]
    rfl
  notional := by
    have hsum := hroom.notional
    rw [QuoteSummary.add, UInt64.toNat_add, Nat.mod_eq_of_lt hsum, h.notional, total_append,
      q.toNat_product.2]
    rfl

theorem IsTotal.hasRoom {s : QuoteSummary} {qs rest : List Quote} (h : s.IsTotal qs) {q : Quote}
    (hfits : Fits (qs ++ q :: rest)) : s.HasRoom q := by
  obtain ⟨hproduct, hcost⟩ := q.toNat_product
  obtain ⟨hquantity, hnotional⟩ := hfits
  rw [total_append, total] at hquantity hnotional
  refine ⟨?_, hproduct, ?_⟩
  · rw [h.quantity, UInt32.toNat_toUInt64]
    exact Nat.lt_of_le_of_lt (by rw [Quote.volume]; omega) hquantity
  · rw [h.notional, hcost]
    omega

/-- Quotes that are added one after the other leave the exact totals of all. -/
theorem IsTotal.foldl {rs : List Quote} : ∀ {s : QuoteSummary} {qs : List Quote}, s.IsTotal qs →
    Fits (qs ++ rs) → (rs.foldl QuoteSummary.add s).IsTotal (qs ++ rs) := by
  induction rs with
  | nil =>
    intro s qs h _
    rwa [List.append_nil]
  | cons q rs ih =>
    intro s qs h hfits
    have hadd := h.add (h.hasRoom hfits)
    rw [List.append_cons] at hfits ⊢
    exact ih hadd hfits

theorem isTotal_ofQuotes {qs : List Quote} (h : Fits qs) : (ofQuotes qs).IsTotal qs := by
  have hempty : QuoteSummary.empty.IsTotal [] := ⟨rfl, rfl, rfl⟩
  exact hempty.foldl h

theorem IsTotal.unique {s t : QuoteSummary} {qs rs : List Quote} (hs : s.IsTotal qs)
    (ht : t.IsTotal rs) (h : qs.Perm rs) : s = t := by
  have hcount : s.count = t.count := by rw [hs.count, ht.count, h.length_eq]
  have hquantity : s.quantity = t.quantity := by
    rw [← UInt64.toNat_inj, hs.quantity, ht.quantity, total_perm h]
  have hnotional : s.notional = t.notional := by
    rw [← UInt64.toNat_inj, hs.notional, ht.notional, total_perm h]
  obtain ⟨c, q, n⟩ := s
  obtain ⟨c', q', n'⟩ := t
  exact QuoteSummary.mk.injEq .. ▸ ⟨hcount, hquantity, hnotional⟩

theorem Fits.perm {qs rs : List Quote} (h : Fits qs) (hp : rs.Perm qs) : Fits rs := by
  rwa [Fits, total_perm hp, total_perm hp]

theorem Fits.of_append {qs rs : List Quote} (h : Fits (qs ++ rs)) : Fits qs ∧ Fits rs := by
  simp only [Fits, total_append] at h ⊢
  omega

theorem IsTotal.vwap?_eq_none_iff {s : QuoteSummary} {qs : List Quote} (h : s.IsTotal qs) :
    s.vwap? = none ↔ ∀ q ∈ qs, q.quantity = 0 := by
  have hzero : s.quantity = 0 ↔ total Quote.volume qs = 0 := by
    rw [← h.quantity, ← UInt64.toNat_inj]
    rfl
  rw [← total_volume_eq_zero_iff, ← hzero, vwap?, ite_eq_left_iff]
  simp only [reduceCtorEq, imp_false, not_not]

/-- The price is the quotient of the totals, but for rounding to doubles: once of either total, and
once of the quotient. -/
theorem abs_sub_vwap?_le {s : QuoteSummary} {v : Binary64} (h : s.vwap? = some v) :
    |v.value - (s.notional.toNat / s.quantity.toNat : ℚ)| * 2251799813685248 ≤
      (s.notional.toNat / s.quantity.toNat : ℚ) := by
  unfold vwap? at h
  split at h
  · cases h
  · rename_i hquantity
    cases h
    have hpos : (0 : ℚ) < s.quantity.toNat := by
      rw [← UInt64.toNat_inj] at hquantity
      exact_mod_cast Nat.pos_of_ne_zero hquantity
    have hnotional := Binary64.isRounded_nearest s.notional.toNat
    have hquantity := Binary64.isRounded_nearest s.quantity.toNat
    have hnearest : 0 < Binary64.nearest s.quantity.toNat := by exact_mod_cast hquantity.pos hpos
    exact Binary64.abs_sub_div_le hnotional hquantity hpos
      (Binary64.isRounded_ofQuotient (Binary64.nearest s.notional.toNat) hnearest)

/-- Among quotes of which one offers something there are a cheapest and a dearest that do. -/
theorem exists_extremes {qs : List Quote} (h : ∃ q ∈ qs, 0 < q.quantity) :
    ∃ low ∈ qs, ∃ high ∈ qs, 0 < low.quantity ∧ 0 < high.quantity ∧
      ∀ q ∈ qs, 0 < q.quantity → low.price ≤ q.price ∧ q.price ≤ high.price := by
  let offers := (qs.filter (0 < ·.quantity)).toFinset
  have hmem (q : Quote) : q ∈ offers ↔ q ∈ qs ∧ 0 < q.quantity := by simp [offers]
  have hne : offers.Nonempty := by
    obtain ⟨q, hq, hpos⟩ := h
    exact ⟨q, (hmem q).2 ⟨hq, hpos⟩⟩
  obtain ⟨low, hlow, hmin⟩ := offers.exists_min_image (·.price.toNat) hne
  obtain ⟨high, hhigh, hmax⟩ := offers.exists_max_image (·.price.toNat) hne
  obtain ⟨hlow, hlowpos⟩ := (hmem low).1 hlow
  obtain ⟨hhigh, hhighpos⟩ := (hmem high).1 hhigh
  refine ⟨low, hlow, high, hhigh, hlowpos, hhighpos, fun q hq hpos => ?_⟩
  have hq := (hmem q).2 ⟨hq, hpos⟩
  exact ⟨hmin q hq, hmax q hq⟩

/-- A summary of quotes whose totals fit in 64 bits holds these totals, and nothing overflows while
it is made. It is the same for every order of the quotes, and the totals of two parts add up to it.
Its price is there unless nothing was offered, and then the exact one lies between the prices of the
cheapest and the dearest of what was offered. The price that is given is off by at most one part in
`2 ^ 51` of the exact one. -/
theorem volume_weighted {qs : List Quote} (h : Fits qs) :
    (ofQuotes qs).IsTotal qs ∧
    (∀ before q after, qs = before ++ q :: after →
      (ofQuotes before).count < qs.length ∧ (ofQuotes before).HasRoom q) ∧
    (∀ rs, rs.Perm qs → ofQuotes rs = ofQuotes qs) ∧
    (∀ front back, qs = front ++ back →
      (ofQuotes qs).count = (ofQuotes front).count + (ofQuotes back).count ∧
      (ofQuotes qs).quantity.toNat =
        (ofQuotes front).quantity.toNat + (ofQuotes back).quantity.toNat ∧
      (ofQuotes qs).notional.toNat =
        (ofQuotes front).notional.toNat + (ofQuotes back).notional.toNat) ∧
    ((ofQuotes qs).vwap? = none ↔ ∀ q ∈ qs, q.quantity = 0) ∧
    ((ofQuotes qs).vwap? ≠ none → ∃ low ∈ qs, ∃ high ∈ qs, 0 < low.quantity ∧ 0 < high.quantity ∧
      (∀ q ∈ qs, 0 < q.quantity → low.price ≤ q.price ∧ q.price ≤ high.price) ∧
      (low.price.toNat : ℚ) ≤ (ofQuotes qs).notional.toNat / (ofQuotes qs).quantity.toNat ∧
      ((ofQuotes qs).notional.toNat / (ofQuotes qs).quantity.toNat : ℚ) ≤ high.price.toNat) ∧
    ∀ v, (ofQuotes qs).vwap? = some v →
      |v.value - ((ofQuotes qs).notional.toNat / (ofQuotes qs).quantity.toNat : ℚ)| *
        2251799813685248 ≤ ((ofQuotes qs).notional.toNat / (ofQuotes qs).quantity.toNat : ℚ) := by
  have htotal := isTotal_ofQuotes h
  refine ⟨htotal, ?_, ?_, ?_, htotal.vwap?_eq_none_iff, ?_, fun v => abs_sub_vwap?_le⟩
  · intro before q after hsplit
    have hbefore := isTotal_ofQuotes (hsplit ▸ h).of_append.1
    refine ⟨?_, hbefore.hasRoom (hsplit ▸ h)⟩
    rw [hbefore.count, hsplit, List.length_append, List.length_cons]
    omega
  · intro rs hperm
    exact (isTotal_ofQuotes (h.perm hperm)).unique htotal hperm
  · rintro front back rfl
    have hfront := isTotal_ofQuotes h.of_append.1
    have hback := isTotal_ofQuotes h.of_append.2
    refine ⟨?_, ?_, ?_⟩
    · rw [htotal.count, hfront.count, hback.count, List.length_append]
    · rw [htotal.quantity, hfront.quantity, hback.quantity, total_append]
    · rw [htotal.notional, hfront.notional, hback.notional, total_append]
  · intro hsome
    have hnot : ¬∀ q ∈ qs, q.quantity = 0 := mt htotal.vwap?_eq_none_iff.2 hsome
    have hpos := Nat.pos_of_ne_zero (mt total_volume_eq_zero_iff.1 hnot)
    have hoffer : ∃ q ∈ qs, 0 < q.quantity := by
      simpa [UInt32.pos_iff_ne_zero] using hnot
    obtain ⟨low, hlow, high, hhigh, hlowpos, hhighpos, hprices⟩ := exists_extremes hoffer
    obtain ⟨hle, hge⟩ := total_cost_bounds hprices
    refine ⟨low, hlow, high, hhigh, hlowpos, hhighpos, hprices, ?_, ?_⟩
    · rw [htotal.notional, htotal.quantity, le_div_iff₀ (by exact_mod_cast hpos)]
      exact_mod_cast hle
    · rw [htotal.notional, htotal.quantity, div_le_iff₀ (by exact_mod_cast hpos)]
      exact_mod_cast hge

/-- Two quotes, and one of nothing at a price beyond theirs. -/
theorem volume_weighted_idle :
    let quote (price quantity : UInt32) : Quote := ⟨"ABC", price, quantity, 0⟩
    let qs := [quote 100 1, quote 4294967295 0, quote 200 3]
    Fits qs ∧ ofQuotes qs = ⟨3, 4, 700⟩ ∧ (ofQuotes qs).IsTotal qs ∧
      ofQuotes qs.reverse = ofQuotes qs ∧ (ofQuotes qs).vwap? ≠ none ∧
      ∃ low ∈ qs, ∃ high ∈ qs, 0 < low.quantity ∧ 0 < high.quantity ∧
        (∀ q ∈ qs, 0 < q.quantity → low.price ≤ q.price ∧ q.price ≤ high.price) ∧
        (low.price.toNat : ℚ) ≤ (ofQuotes qs).notional.toNat / (ofQuotes qs).quantity.toNat ∧
        ((ofQuotes qs).notional.toNat / (ofQuotes qs).quantity.toNat : ℚ) ≤
          high.price.toNat := by
  intro quote qs
  have hfits : Fits qs := by
    rw [Fits]
    decide
  have hnot : ¬∀ q ∈ qs, q.quantity = 0 := by
    intro hall
    exact absurd (hall (quote 100 1) (by simp [qs])) (by decide)
  obtain ⟨htotal, -, hperm, -, hnone, hbounds, -⟩ := volume_weighted hfits
  have hsome := mt hnone.1 hnot
  exact ⟨hfits, by decide, htotal, hperm _ qs.reverse_perm, hsome, hbounds hsome⟩

end QuoteSummary

end MessageDepot
