/-!
# Byte strings and text

Everything that is stored or hashed is a byte string. Text goes to bytes as UTF-8 and
comes back only from valid UTF-8.

Results:
* `text?_ofText`, `eq_ofText_of_text?`: reading undoes writing, and accepts nothing else.
* `ofText_inj`: two texts with the same bytes are the same text.
* `ofText_eq_flatMap`, `mem_utf8EncodeChar`: the bytes of a text, character by character.
-/
namespace MessageDepot

/-- A byte string. -/
abbrev Bytes := List UInt8

namespace Bytes

/-- The UTF-8 bytes of a text. -/
def ofText (s : String) : Bytes := s.toByteArray.data.toList

/-- The text whose UTF-8 bytes these are, if there is one. -/
def text? (b : Bytes) : Option String := String.fromUTF8? ⟨b.toArray⟩

@[simp] theorem text?_ofText (s : String) : text? (ofText s) = some s := by
  have h : (⟨(ofText s).toArray⟩ : ByteArray) = s.toByteArray := by
    simp [ofText]
  simp only [text?, h, String.fromUTF8?, s.isValidUTF8, dite_true]
  rfl

theorem eq_ofText_of_text? {b : Bytes} {s : String} (h : text? b = some s) : b = ofText s := by
  unfold text? String.fromUTF8? at h
  split at h
  · simp only [Option.some.injEq] at h
    subst h
    simp [ofText, String.fromUTF8]
  · simp at h

theorem text?_eq_some_iff {b : Bytes} {s : String} : text? b = some s ↔ b = ofText s :=
  ⟨eq_ofText_of_text?, fun h => h ▸ text?_ofText s⟩

theorem ofText_inj {s t : String} : ofText s = ofText t ↔ s = t :=
  ⟨fun h => Option.some.inj (by rw [← text?_ofText s, h, text?_ofText]), fun h => h ▸ rfl⟩

theorem ofText_eq_flatMap (s : String) : ofText s = s.toList.flatMap String.utf8EncodeChar := by
  rw [ofText, ← String.utf8Encode_toList, List.utf8Encode, List.toList_data_toByteArray]

theorem ofText_singleton (c : Char) : ofText (String.singleton c) = String.utf8EncodeChar c := by
  simp [ofText_eq_flatMap]

/-- A byte below 128 is the whole of a character; all bytes of the longer ones are above. -/
theorem mem_utf8EncodeChar {b : UInt8} (hb : b.toNat < 128) (c : Char) :
    b ∈ String.utf8EncodeChar c ↔ c.toNat = b.toNat := by
  have hlt {n : Nat} (hn : n < 256) : UInt8.ofNat n = b ↔ n = b.toNat := by
    rw [← UInt8.toNat_inj, UInt8.toNat_ofNat']
    omega
  have hc : c.val.toNat = c.toNat := rfl
  unfold String.utf8EncodeChar
  simp only [hc]
  split
  · simp only [List.mem_singleton, eq_comm (a := b)]
    exact hlt (by omega)
  · have hne : c.toNat ≠ b.toNat := by omega
    simp only [hne, iff_false]
    split
    · simp only [List.mem_cons, List.not_mem_nil, or_false, eq_comm (a := b), not_or]
      rw [hlt (by omega), hlt (by omega)]
      omega
    · split
      · simp only [List.mem_cons, List.not_mem_nil, or_false, eq_comm (a := b), not_or]
        rw [hlt (by omega), hlt (by omega), hlt (by omega)]
        omega
      · simp only [List.mem_cons, List.not_mem_nil, or_false, eq_comm (a := b), not_or]
        rw [hlt (by omega), hlt (by omega), hlt (by omega), hlt (by omega)]
        omega

end Bytes

end MessageDepot
