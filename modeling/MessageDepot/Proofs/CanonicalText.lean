import MessageDepot.Uuid.Text

/-!
# The stored text of identifiers

The texts that identifiers are stored under are exactly those of five groups of 8, 4, 4, 4 and
12 lower-case hexadecimal digits with hyphens between them.

Results:
* `exists_ofBytes`: every even number of lower-case digits is written by some bytes.
* `Uuid.hyphenates_iff`: what the hyphens between the groups are put into.
* `isCanonical_iff`: a text has that form exactly when it is the text of an identifier.
-/
namespace MessageDepot

namespace Hex

def lowerDigits : List Char := "0123456789abcdef".toList

theorem lowerDigits_eq : lowerDigits = (List.range 16).map Nat.digitChar := by decide

theorem mem_lowerDigits {c : Char} : c ∈ lowerDigits ↔ ∃ n < 16, Nat.digitChar n = c := by
  rw [lowerDigits_eq, List.mem_map]
  simp only [List.mem_range]

theorem mem_ofBytes {c : Char} {b : Bytes} (h : c ∈ ofBytes b) : c ∈ lowerDigits := by
  obtain ⟨x, -, hx⟩ := List.mem_flatMap.1 h
  have hlt := x.toNat_lt
  simp only [ofByte, List.mem_cons, List.not_mem_nil, or_false] at hx
  rcases hx with rfl | rfl
  · exact mem_lowerDigits.2 ⟨_, by omega, rfl⟩
  · exact mem_lowerDigits.2 ⟨_, by omega, rfl⟩

/-- Two digits are written by the byte whose halves they are. -/
theorem exists_ofByte {c d : Char} (hc : c ∈ lowerDigits) (hd : d ∈ lowerDigits) :
    ∃ x : UInt8, ofByte x = [c, d] := by
  obtain ⟨i, hi, rfl⟩ := mem_lowerDigits.1 hc
  obtain ⟨j, hj, rfl⟩ := mem_lowerDigits.1 hd
  refine ⟨(16 * i + j).toUInt8, ?_⟩
  have hx : (16 * i + j).toUInt8.toNat = 16 * i + j := by
    simp only [Nat.toUInt8_eq, UInt8.toNat_ofNat']
    omega
  rw [ofByte, hx]
  congr 2
  · omega
  · congr 1
    omega

/-- Digits are written two by two. -/
theorem exists_ofBytes (n : Nat) : ∀ {cs : List Char}, cs.length = 2 * n →
    (∀ c ∈ cs, c ∈ lowerDigits) → ∃ b, ofBytes b = cs ∧ b.length = n := by
  induction n with
  | zero =>
    intro cs hl _
    rw [List.length_eq_zero_iff.1 hl]
    exact ⟨[], rfl, rfl⟩
  | succ n ih =>
    intro cs hl hd
    match cs, hl with
    | c :: d :: cs, hl =>
      obtain ⟨x, hx⟩ := exists_ofByte (hd c (by simp)) (hd d (by simp))
      obtain ⟨b, hb, hn⟩ := ih (by simpa [Nat.mul_succ] using hl) fun e he => hd e (by simp [he])
      refine ⟨x :: b, ?_, by rw [List.length_cons, hn]⟩
      rw [ofBytes, List.flatMap_cons, hx, ← ofBytes, hb]
      rfl

end Hex

/-- Five groups of lower-case hexadecimal digits with hyphens between them. -/
def IsCanonical (s : String) : Prop :=
  ∃ a b c d e : List Char, s.toList = a ++ '-' :: b ++ '-' :: c ++ '-' :: d ++ '-' :: e ∧
    [a, b, c, d, e].map List.length = [8, 4, 4, 4, 12] ∧
    ∀ x ∈ a ++ b ++ c ++ d ++ e, x ∈ Hex.lowerDigits

theorem exists_eq_append {n k : Nat} {cs : List Char} (h : cs.length = n + k) :
    ∃ a ds : List Char, cs = a ++ ds ∧ a.length = n ∧ ds.length = k :=
  ⟨cs.take n, cs.drop n, (List.take_append_drop n cs).symm, by simp [h], by simp [h]⟩

namespace Uuid

theorem grouped_append (n : Nat) (ns : List Nat) (a cs : List Char) (h : a.length = n) :
    grouped (n :: ns) (a ++ cs) = a ++ '-' :: grouped ns cs := by
  subst h
  simp [grouped]

/-- Characters in five groups of 8, 4, 4, 4 and 12 with hyphens between them. -/
def Hyphenates (ds cs : List Char) : Prop :=
  ∃ a b c d e : List Char, cs = a ++ '-' :: b ++ '-' :: c ++ '-' :: d ++ '-' :: e ∧
    [a, b, c, d, e].map List.length = [8, 4, 4, 4, 12] ∧ ds = a ++ b ++ c ++ d ++ e

theorem Hyphenates.length_eq {ds cs : List Char} (h : Hyphenates ds cs) :
    ds.length = 32 ∧ cs.length = 36 := by
  obtain ⟨a, b, c, d, e, rfl, hl, rfl⟩ := h
  simp only [List.map_cons, List.map_nil, List.cons.injEq, and_true] at hl
  simp [hl]

/-- Of 32 characters there is one form in groups. -/
theorem hyphenates_iff {ds cs : List Char} :
    Hyphenates ds cs ↔ ds.length = 32 ∧ cs = grouped groupSizes ds := by
  constructor
  · intro h
    refine ⟨h.length_eq.1, ?_⟩
    obtain ⟨a, b, c, d, e, rfl, hl, rfl⟩ := h
    simp only [List.map_cons, List.map_nil, List.cons.injEq, and_true] at hl
    obtain ⟨ha, hb, hc, hd, -⟩ := hl
    simp only [List.append_assoc, groupSizes, grouped_append _ _ _ _ ha, grouped_append _ _ _ _ hb,
      grouped_append _ _ _ _ hc, grouped_append _ _ _ _ hd, List.cons_append]
    rfl
  · rintro ⟨hl, rfl⟩
    obtain ⟨a, ds, rfl, ha, hl⟩ := exists_eq_append (n := 8) (k := 24) hl
    obtain ⟨b, ds, rfl, hb, hl⟩ := exists_eq_append (n := 4) (k := 20) hl
    obtain ⟨c, ds, rfl, hc, hl⟩ := exists_eq_append (n := 4) (k := 16) hl
    obtain ⟨d, e, rfl, hd, hl⟩ := exists_eq_append (n := 4) (k := 12) hl
    refine ⟨a, b, c, d, e, ?_, by simp [ha, hb, hc, hd, hl], by simp⟩
    rw [groupSizes, grouped_append _ _ _ _ ha, grouped_append _ _ _ _ hb,
      grouped_append _ _ _ _ hc, grouped_append _ _ _ _ hd]
    simp [grouped]

end Uuid

theorem isCanonical_text (u : Uuid) : IsCanonical u.text := by
  have hl : (Hex.ofBytes u.bytes).length = 32 := by rw [Hex.length_ofBytes, u.length_bytes]
  obtain ⟨a, b, c, d, e, hs, hlengths, hds⟩ := Uuid.hyphenates_iff.2 ⟨hl, rfl⟩
  refine ⟨a, b, c, d, e, ?_, hlengths, fun x hx => Hex.mem_ofBytes (hds ▸ hx)⟩
  rw [← hs, Uuid.text, String.toList_ofList, Uuid.chars]

/-- A text is the text of an identifier exactly when it has its form. -/
theorem isCanonical_iff {s : String} : IsCanonical s ↔ ∃ u : Uuid, u.text = s := by
  constructor
  · rintro ⟨a, b, c, d, e, hs, hlengths, hd⟩
    obtain ⟨hl, hgrouped⟩ := Uuid.hyphenates_iff.1 ⟨a, b, c, d, e, hs, hlengths, rfl⟩
    obtain ⟨bytes, hbytes, hn⟩ := Hex.exists_ofBytes 16 hl hd
    refine ⟨⟨bytes, hn⟩, ?_⟩
    rw [← String.toList_inj, hgrouped, Uuid.text, String.toList_ofList, Uuid.chars, hbytes]
  · rintro ⟨u, rfl⟩
    exact isCanonical_text u

end MessageDepot
