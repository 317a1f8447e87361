import Mathlib.Data.List.Forall2
import MessageDepot.Key
import MessageDepot.Proofs.CanonicalText
import MessageDepot.Proofs.KeySeparation

/-!
# Spellings of identifiers

An identifier has four spellings: its 32 digits, the digits in hyphenated groups, those in braces,
and those behind a scheme. Letters may be of either case in each of them. Text is read as an
identifier exactly when it is one of these spellings, and since what is read determines the digits,
no text spells two identifiers. The text that a key is stored under is a spelling as well, which is
why it is a key for the same rows.

Results:
* `Hex.bytes?_eq_some_iff`: digits of either case.
* `Uuid.join?_eq_some_iff`: groups of digits, and the hyphens between them.
* `Uuid.ofText?_eq_some_iff`: text that is read as an identifier.
* `Key.identifier_of_spells`, `Key.identifier_of_not_spells`: what text keys stand for.
* `Key.source_text`: what becomes of text keys, and of the stored texts of all keys.
-/
namespace MessageDepot

/-- Lower-case characters, with any of the letters in upper case. -/
def InAnyCase : List Char → List Char → Prop := List.Forall₂ fun d c => c = d ∨ c = d.toUpper

theorem toNat_toLower (c : Char) : c.toLower.toNat =
    if 65 ≤ c.toNat ∧ c.toNat ≤ 90 then c.toNat + 32 else c.toNat := by
  have hA : 'A'.val ≤ c.val ↔ 65 ≤ c.toNat := Iff.rfl
  have hZ : c.val ≤ 'Z'.val ↔ c.toNat ≤ 90 := Iff.rfl
  delta Char.toLower
  simp only [ge_iff_le, hA, hZ]
  split
  · change (c.val + 32).toNat = _
    rw [UInt32.toNat_add]
    change (c.toNat + 32) % 4294967296 = _
    omega
  · rfl

theorem toNat_toUpper (c : Char) : c.toUpper.toNat =
    if 97 ≤ c.toNat ∧ c.toNat ≤ 122 then c.toNat - 32 else c.toNat := by
  have ha : 'a'.val ≤ c.val ↔ 97 ≤ c.toNat := Iff.rfl
  have hz : c.val ≤ 'z'.val ↔ c.toNat ≤ 122 := Iff.rfl
  delta Char.toUpper
  simp only [ha, hz]
  split
  -- 32 less is 2 ^ 32 - 32 more, in 32 bits
  · change (c.val + 4294967264).toNat = _
    rw [UInt32.toNat_add]
    change (c.toNat + 4294967264) % 4294967296 = _
    omega
  · rfl

/-- Two characters become one lower-case character: itself, and its upper case. -/
theorem toLower_eq_iff {c d : Char} (hd : d.toLower = d) :
    c.toLower = d ↔ c = d ∨ c = d.toUpper := by
  rw [← Char.toNat_inj, toNat_toLower] at hd
  rw [← Char.toNat_inj, ← Char.toNat_inj, ← Char.toNat_inj, toNat_toLower, toNat_toUpper]
  grind

theorem inAnyCase_iff_map_toLower {ds : List Char} : ∀ {cs : List Char},
    (∀ d ∈ ds, d.toLower = d) → (InAnyCase ds cs ↔ cs.map Char.toLower = ds) := by
  induction ds with
  | nil =>
    intro cs _
    rw [InAnyCase, List.forall₂_nil_left_iff, List.map_eq_nil_iff]
  | cons d ds ih =>
    intro cs hds
    cases cs with
    | nil => simp [InAnyCase]
    | cons c cs =>
      rw [InAnyCase, List.forall₂_cons, ← toLower_eq_iff (hds d List.mem_cons_self), List.map_cons,
        List.cons.injEq]
      exact and_congr_right' (ih fun e he => hds e (List.mem_cons_of_mem d he))

/-! ## Digits -/

namespace Hex

theorem digit?_upper : ∀ n < 16, digit? (Nat.digitChar n).toUpper = some n := by decide

/-- Digits are letters and numerals of the first half of a byte; there they are looked through. -/
theorem digit?_low_chars : ∀ k < 103, ∀ n ∈ digit? (Char.ofNat k),
    n < 16 ∧ (Char.ofNat k = Nat.digitChar n ∨ Char.ofNat k = (Nat.digitChar n).toUpper) := by
  decide +kernel

theorem lt_of_digit? {c : Char} {n : Nat} (h : digit? c = some n) : c.toNat < 103 := by
  have hle {a b : Char} : a ≤ b ↔ a.toNat ≤ b.toNat := Iff.rfl
  have h9 : '9'.toNat = 57 := rfl
  have hf : 'f'.toNat = 102 := rfl
  have hF : 'F'.toNat = 70 := rfl
  simp only [digit?, hle, h9, hf, hF] at h
  split at h
  · omega
  split at h
  · omega
  split at h
  · omega
  · cases h

/-- A digit is read as `n` when it is the digit for `n`, of either case. -/
theorem digit?_eq_some_iff {c : Char} {n : Nat} : digit? c = some n ↔
    n < 16 ∧ (c = Nat.digitChar n ∨ c = (Nat.digitChar n).toUpper) := by
  constructor
  · intro h
    have hc : Char.ofNat c.toNat = c := Char.ofNat_toNat c
    rw [← hc] at h ⊢
    exact digit?_low_chars _ (hc ▸ lt_of_digit? h) n h
  · rintro ⟨hn, rfl | rfl⟩
    · exact digit?_digitChar n hn
    · exact digit?_upper n hn

theorem ofBytes_cons (x : UInt8) (b : Bytes) : ofBytes (x :: b) =
    Nat.digitChar (x.toNat / 16) :: Nat.digitChar (x.toNat % 16) :: ofBytes b := rfl

/-- The halves of a byte are below 16, and determine it. -/
theorem toUInt8_eq_iff {i j : Nat} {x : UInt8} (hi : i < 16) (hj : j < 16) :
    (16 * i + j).toUInt8 = x ↔ i = x.toNat / 16 ∧ j = x.toNat % 16 := by
  rw [← UInt8.toNat_inj, Nat.toUInt8_eq, UInt8.toNat_ofNat']
  omega

theorem bytes?_cons_cons {h l : Char} {cs : List Char} {x : UInt8} {b : Bytes} :
    bytes? (h :: l :: cs) = some (x :: b) ↔ digit? h = some (x.toNat / 16) ∧
      digit? l = some (x.toNat % 16) ∧ bytes? cs = some b := by
  constructor
  · intro he
    simp only [bytes?] at he
    split at he
    · rename_i i j bs hi hj hbs
      obtain ⟨hx, rfl⟩ := List.cons.inj (Option.some.inj he)
      obtain ⟨rfl, rfl⟩ :=
        (toUInt8_eq_iff (digit?_eq_some_iff.1 hi).1 (digit?_eq_some_iff.1 hj).1).1 hx
      exact ⟨hi, hj, hbs⟩
    · cases he
  · rintro ⟨hi, hj, hb⟩
    rw [bytes?, hi, hj, hb]
    simp only
    rw [(toUInt8_eq_iff (digit?_eq_some_iff.1 hi).1 (digit?_eq_some_iff.1 hj).1).2 ⟨rfl, rfl⟩]

/-- Bytes are read from their digits, of either case, and from nothing else. -/
theorem bytes?_eq_some_iff : ∀ {cs : List Char} {b : Bytes},
    bytes? cs = some b ↔ InAnyCase (ofBytes b) cs
  | [], [] => by simp [bytes?, ofBytes, InAnyCase]
  | [], x :: b => by simp [bytes?, ofBytes_cons, InAnyCase]
  | [c], [] => by simp [bytes?, ofBytes, InAnyCase]
  | [c], x :: b => by simp [bytes?, ofBytes_cons, InAnyCase]
  | h :: l :: cs, [] => by
    simp only [bytes?]
    split <;> simp [ofBytes, InAnyCase]
  | h :: l :: cs, x :: b => by
    have hhigh : x.toNat / 16 < 16 := by have := x.toNat_lt; omega
    have hlow : x.toNat % 16 < 16 := by omega
    rw [bytes?_cons_cons, bytes?_eq_some_iff, ofBytes_cons, InAnyCase, List.forall₂_cons,
      List.forall₂_cons, digit?_eq_some_iff, digit?_eq_some_iff, and_iff_right hhigh,
      and_iff_right hlow]

end Hex

namespace Uuid

/-! ## Hyphens -/

/-- What is left when the hyphens are taken out is what they were put into. -/
theorem join?_eq_some_iff {ns : List Nat} : ∀ {cs ds : List Char},
    join? ns cs = some ds ↔ ns.foldr (· + ·) 0 ≤ ds.length ∧ cs = grouped ns ds := by
  induction ns with
  | nil => simp [join?, grouped]
  | cons n ns ih =>
    intro cs ds
    refine ⟨fun h => ?_, fun h => h.2 ▸ join?_grouped _ _ h.1⟩
    rw [join?] at h
    split at h
    · rename_i rest hrest
      obtain ⟨es, hes, rfl⟩ := Option.map_eq_some_iff.1 h
      obtain ⟨hl, rfl⟩ := ih.1 hes
      have hn : n ≤ cs.length := by
        have := congrArg List.length hrest
        simp only [List.length_drop, List.length_cons] at this
        omega
      have htake : (cs.take n).length = n := List.length_take_of_le hn
      refine ⟨by simp only [List.foldr_cons, List.length_append]; omega, ?_⟩
      rw [grouped_append _ _ _ _ htake, ← hrest, List.take_append_drop]
    · cases h

/-! ## The four spellings -/

theorem eq_braced {cs : List Char} (hhead : cs.head? = some '{') (hlast : cs.getLast? = some '}') :
    cs = '{' :: cs.tail.dropLast ++ ['}'] := by
  obtain ⟨ds, rfl⟩ := List.head?_eq_some_iff.1 hhead
  obtain ⟨es, hes⟩ := List.getLast?_eq_some_iff.1 hlast
  -- the brace at the end is not the one at the front
  cases es with
  | nil => cases hes
  | cons e es =>
    obtain ⟨rfl, rfl⟩ := List.cons.inj hes
    simp

/-- The hyphenated digits of an identifier, of either case. -/
def IsHyphenated (u : Uuid) (cs : List Char) : Prop :=
  ∃ ds, InAnyCase (Hex.ofBytes u.bytes) ds ∧ Hyphenates ds cs

/-- Characters that spell an identifier: its digits, alone or with hyphens, and these in braces or
behind the scheme. -/
inductive IsSpelling (u : Uuid) : List Char → Prop where
  | digits {cs : List Char} : InAnyCase (Hex.ofBytes u.bytes) cs → IsSpelling u cs
  | hyphenated {cs : List Char} : u.IsHyphenated cs → IsSpelling u cs
  | braced {cs : List Char} : u.IsHyphenated cs → IsSpelling u ('{' :: cs ++ ['}'])
  | urn {scheme cs : List Char} : InAnyCase "urn:uuid:".toList scheme → u.IsHyphenated cs →
    IsSpelling u (scheme ++ cs)

/-- A text that spells an identifier. -/
def Spells (u : Uuid) (s : String) : Prop := u.IsSpelling s.toList

theorem length_of_digits {u : Uuid} {cs : List Char} (h : InAnyCase (Hex.ofBytes u.bytes) cs) :
    cs.length = 32 := by
  rw [← List.Forall₂.length_eq h, Hex.length_ofBytes, u.length_bytes]

theorem ofHex?_eq_some_iff {cs : List Char} {u : Uuid} :
    ofHex? cs = some u ↔ InAnyCase (Hex.ofBytes u.bytes) cs := by
  rw [← Hex.bytes?_eq_some_iff, ofHex?]
  cases hb : Hex.bytes? cs with
  | none => simp
  | some b =>
    simp only [Option.some.injEq]
    constructor
    · intro h
      split at h
      · rw [← Option.some.inj h]
      · cases h
    · rintro rfl
      exact dif_pos u.length_bytes

theorem ofGrouped?_eq_some_iff {cs : List Char} {u : Uuid} :
    ofGrouped? cs = some u ↔ u.IsHyphenated cs := by
  have hsizes : groupSizes.foldr (· + ·) 0 = 20 := rfl
  constructor
  · intro h
    rw [ofGrouped?] at h
    split at h
    · obtain ⟨ds, hds, hu⟩ := Option.bind_eq_some_iff.1 h
      have hdigits := ofHex?_eq_some_iff.1 hu
      exact ⟨ds, hdigits, hyphenates_iff.2 ⟨length_of_digits hdigits, (join?_eq_some_iff.1 hds).2⟩⟩
    · cases h
  · rintro ⟨ds, hdigits, hcs⟩
    obtain ⟨hl, hgrouped⟩ := hyphenates_iff.1 hcs
    have hjoin : join? groupSizes cs = some ds := join?_eq_some_iff.2 ⟨by omega, hgrouped⟩
    rw [ofGrouped?, if_pos hcs.length_eq.2, hjoin]
    exact ofHex?_eq_some_iff.2 hdigits

theorem IsHyphenated.length_eq {u : Uuid} {cs : List Char} (h : u.IsHyphenated cs) :
    cs.length = 36 := by
  obtain ⟨ds, -, hcs⟩ := h
  exact hcs.length_eq.2

theorem toLower_of_mem_urnScheme : ∀ d ∈ urnScheme, d.toLower = d := by
  -- the characters are looked through one by one, and not all there are
  have hall : (urnScheme.all fun d => d.toLower = d) = true := by decide
  simpa using hall

/-- Characters are read as an identifier exactly when they spell it. -/
theorem ofChars?_eq_some_iff {cs : List Char} {u : Uuid} :
    ofChars? cs = some u ↔ u.IsSpelling cs := by
  have hscheme {scheme : List Char} :
      InAnyCase urnScheme scheme ↔ scheme.map Char.toLower = urnScheme :=
    inAnyCase_iff_map_toLower toLower_of_mem_urnScheme
  constructor
  · intro h
    rw [ofChars?] at h
    split at h
    · exact .digits (ofHex?_eq_some_iff.1 h)
    split at h
    · exact .hyphenated (ofGrouped?_eq_some_iff.1 h)
    split at h
    · split at h
      · rename_i hbraces
        rw [eq_braced hbraces.1 hbraces.2]
        exact .braced (ofGrouped?_eq_some_iff.1 h)
      · cases h
    split at h
    · split at h
      · rename_i hurn
        rw [← List.take_append_drop 9 cs]
        exact .urn (hscheme.2 hurn) (ofGrouped?_eq_some_iff.1 h)
      · cases h
    · cases h
  · intro h
    -- the four spellings have four lengths, and the length chooses the branch
    cases h with
    | digits h => rw [ofChars?, if_pos (length_of_digits h), ofHex?_eq_some_iff.2 h]
    | hyphenated h => simp [ofChars?, h.length_eq, ofGrouped?_eq_some_iff.2 h]
    | @braced cs h =>
      have hlast : ('{' :: (cs ++ ['}'])).getLast? = some '}' := by
        rw [← List.cons_append, List.getLast?_concat]
      simp [ofChars?, h.length_eq, ofGrouped?_eq_some_iff.2 h, hlast]
    | @urn scheme cs hs h =>
      have hl : scheme.length = 9 := (List.Forall₂.length_eq hs).symm
      simp [ofChars?, h.length_eq, ofGrouped?_eq_some_iff.2 h, hl, hscheme.1 hs]

/-- Text is read as an identifier exactly when it spells it. -/
theorem ofText?_eq_some_iff {s : String} {u : Uuid} : ofText? s = some u ↔ u.Spells s :=
  ofChars?_eq_some_iff

theorem ofText?_eq_none_iff {s : String} : ofText? s = none ↔ ∀ u : Uuid, ¬u.Spells s := by
  simp only [Option.eq_none_iff_forall_ne_some, ne_eq, ofText?_eq_some_iff]

instance (u : Uuid) (s : String) : Decidable (u.Spells s) :=
  decidable_of_iff _ ofText?_eq_some_iff

example : plainSpace.Spells "URN:uuid:3F1C5e8a-2764-5B0D-9E41-a27c10d36b58" := by decide

end Uuid

namespace Key

/-- A text that spells an identifier is a key for that very identifier. -/
theorem identifier_of_spells {s : String} {u : Uuid} (h : u.Spells s) : (text s).identifier = u := by
  rw [identifier, source, Uuid.ofText?_eq_some_iff.2 h]
  rfl

/-- A text that spells none is hashed byte by byte. -/
theorem identifier_of_not_spells {s : String} (h : ∀ w : Uuid, ¬w.Spells s) :
    (text s).identifier = Uuid.named plainSpace (Bytes.ofText s) := by
  rw [identifier, source, Uuid.ofText?_eq_none_iff.2 h]
  rfl

theorem canonical_eq_self_iff {s : String} : (text s).canonical = s ↔ IsCanonical s := by
  constructor
  · intro h
    rw [← h]
    exact isCanonical_text _
  · intro h
    obtain ⟨u, rfl⟩ := isCanonical_iff.1 h
    rw [canonical, identifier_text]

/-- A text key is the identifier that the text spells; one that spells none is hashed, byte by
byte. So all spellings of an identifier stand for it and are stored as the identifier is, and the
stored text of any key is a key that is stored under the same text. A text is stored as it stands
just if it has the form of such texts. No text spells two identifiers. -/
theorem source_text (s : String) (u v : Uuid) (k : Key) :
    ((text s).source = .identity u ↔ u.Spells s) ∧
      ((text s).source = .hashed plainSpace (Bytes.ofText s) ↔ ∀ w : Uuid, ¬w.Spells s) ∧
      (u.Spells s → (text s).identifier = u) ∧ (uuid u).identifier = u ∧
      ((∀ w : Uuid, ¬w.Spells s) → (text s).identifier = Uuid.named plainSpace (Bytes.ofText s) ∧
        (text s).HashedFrom (plainSpace.bytes ++ Bytes.ofText s)) ∧
      (u.Spells s → (text s).canonical = u.text ∧ (text s).canonical = (uuid u).canonical) ∧
      (u.Spells s → v.Spells s → u = v) ∧
      ((text s).canonical = s ↔ IsCanonical s) ∧
      (text k.canonical).canonical = k.canonical := by
  have hidentity : (text s).source = .identity u ↔ u.Spells s := by
    rw [← Uuid.ofText?_eq_some_iff, source]
    split <;> rename_i h <;> simp [h]
  have hhashed : (text s).source = .hashed plainSpace (Bytes.ofText s) ↔ ∀ w : Uuid, ¬w.Spells s := by
    rw [← Uuid.ofText?_eq_none_iff, source]
    split <;> rename_i h <;> simp [h]
  refine ⟨hidentity, hhashed, identifier_of_spells, rfl, fun hnone => ?_, fun hu => ?_,
    fun hu hv => ?_, canonical_eq_self_iff, ?_⟩
  · have hname : HasName (text s) (.plain (Bytes.ofText s)) :=
      .text (Uuid.ofText?_eq_none_iff.2 hnone)
    exact ⟨identifier_of_not_spells hnone, hname.hashedFrom⟩
  · rw [canonical, identifier_of_spells hu]
    exact ⟨rfl, rfl⟩
  · rw [← identifier_of_spells hu, identifier_of_spells hv]
  · rw [canonical_eq_self_iff]
    exact isCanonical_text _

end Key

end MessageDepot
