import MessageDepot.Key

/-!
# What keys are hashed as

A key that is no identifier is hashed under a name of its own: bytes as they are, or the bytes of
some kind of values. The two kinds of names go into two namespaces of one length, and a kind is
told from the bytes behind it by the first colon, whatever the bytes hold, because no kind has a
colon and UTF-8 has the byte of a colon for nothing else. So what is hashed is equal for equal
names only, and the stamp keeps all hashed keys away from the identifiers of other versions.

Results:
* `Bytes.colon_mem_ofText`: the byte of a colon stands for a colon.
* `Key.Name.input_inj`: names are told apart by what is hashed.
* `Uuid.text_version`, `Uuid.text_variant`: the two stamped digits of a text.
* `Key.hashInput_eq_iff`: what is hashed for two keys, and the texts that come of it.
-/
namespace MessageDepot

/-! ## Text as bytes -/

namespace Bytes

/-- The byte of a colon stands for a colon. -/
theorem colon_mem_ofText {s : String} : 0x3a ∈ ofText s ↔ ':' ∈ s.toList := by
  have hcolon (c : Char) : (0x3a : UInt8) ∈ String.utf8EncodeChar c ↔ c = ':' := by
    rw [mem_utf8EncodeChar (by decide), ← Char.toNat_inj]
    rfl
  simp only [ofText_eq_flatMap, List.mem_flatMap, hcolon, exists_eq_right]

/-- Bytes are cut in one way at the first of a separator. -/
theorem cut_inj {sep : UInt8} {x y : Bytes} : ∀ {a b : Bytes}, sep ∉ a → sep ∉ b →
    a ++ sep :: x = b ++ sep :: y → a = b ∧ x = y
  | [], [], _, _, h => ⟨rfl, (List.cons.inj h).2⟩
  | [], c :: b, _, hb, h => absurd (by simp [(List.cons.inj h).1]) hb
  | c :: a, [], ha, _, h => absurd (by simp [(List.cons.inj h).1]) ha
  | c :: a, d :: b, ha, hb, h => by
    obtain ⟨rfl, htail⟩ := List.cons.inj h
    obtain ⟨rfl, rfl⟩ := cut_inj (fun hm => ha (by simp [hm])) (fun hm => hb (by simp [hm])) htail
    exact ⟨rfl, rfl⟩

end Bytes

/-! ## Stamped digits -/

/-- The high digit of every byte stands at an even place. -/
theorem Hex.getElem?_ofBytes (b : Bytes) (k : Nat) :
    (ofBytes b)[2 * k]? = b[k]?.map fun x => Nat.digitChar (x.toNat / 16) := by
  induction b generalizing k with
  | nil => rfl
  | cons x b ih =>
    cases k with
    | zero => rfl
    | succ k =>
      rw [show 2 * (k + 1) = 2 * k + 1 + 1 by omega]
      exact ih k

namespace Uuid

/-- The third group begins after twelve digits and two hyphens, the fourth after sixteen digits
and three. -/
theorem getElem?_chars (u : Uuid) :
    u.chars[14]? = (Hex.ofBytes u.bytes)[2 * 6]? ∧
      u.chars[19]? = (Hex.ofBytes u.bytes)[2 * 8]? := by
  have hlength : (Hex.ofBytes u.bytes).length = 32 := by rw [Hex.length_ofBytes, u.length_bytes]
  simp [chars, grouped, groupSizes, hlength]

theorem getElem?_bytes (u : Uuid) {i : Nat} (hi : i < 16) :
    u.bytes[i]? = some (u.bytes.getD i 0) := by
  have hlt : i < u.bytes.length := by rwa [u.length_bytes]
  rw [List.getD_eq_getElem?_getD, List.getElem?_eq_getElem hlt, Option.getD_some]

/-- The first digit of the third group is the version. -/
theorem text_version (u : Uuid) : u.text.toList[14]? = some (Nat.digitChar u.version) := by
  rw [text, String.toList_ofList, u.getElem?_chars.1, Hex.getElem?_ofBytes,
    u.getElem?_bytes (by decide)]
  rfl

/-- The first digit of the fourth group begins with the variant. -/
theorem text_variant (u : Uuid) :
    u.text.toList[19]? = some (Nat.digitChar ((u.bytes.getD 8 0).toNat / 16)) := by
  rw [text, String.toList_ofList, u.getElem?_chars.2, Hex.getElem?_ofBytes,
    u.getElem?_bytes (by decide)]
  rfl

/-- A named identifier shows version 5 and the standard variant in its text. -/
theorem text_named (space : Uuid) (name : Bytes) :
    (named space name).text.toList[14]? = some '5' ∧
      ∃ c ∈ ['8', '9', 'a', 'b'], (named space name).text.toList[19]? = some c := by
  have hversion := version_named space name
  have hvariant := isStandardVariant_named space name
  rw [text_version, hversion, text_variant]
  simp only [isStandardVariant, decide_eq_true_eq] at hvariant
  generalize ((named space name).bytes.getD 8 0).toNat = x at hvariant
  refine ⟨rfl, _, ?_, rfl⟩
  obtain h | h | h | h : x / 16 = 8 ∨ x / 16 = 9 ∨ x / 16 = 10 ∨ x / 16 = 11 := by omega
  all_goals simp [h, Nat.digitChar]

end Uuid

/-! ## Names -/

namespace Key

/-- What stands for a key in the hash: bytes as they are, or bytes of a kind of values. -/
inductive Name where
  | plain (b : Bytes)
  | ofKind (kind : String) (b : Bytes)
  deriving DecidableEq

/-- The names of the keys that are hashed. A kind that the caller names has no colon. -/
inductive HasName : Key → Name → Prop where
  | text {s : String} : Uuid.ofText? s = none → HasName (.text s) (.plain (Bytes.ofText s))
  | derived (b : Bytes) : HasName (.derived b) (.plain b)
  | symbol (s : String) : HasName (.symbol s) (.plain (Bytes.ofText (s.map Char.toUpper)))
  | tagged {kind : String} (b : Bytes) : ':' ∉ kind.toList →
    HasName (.tagged kind b) (.ofKind kind b)
  | integer {t : IntegerType} {i : Int} (h : t.Holds i) :
    HasName (.integer t i h) (.ofKind "int" (Bytes.ofText (Decimal.text i)))
  | char (c : Char) : HasName (.char c) (.ofKind "char" (String.utf8EncodeChar c))
  | true : HasName (.bool true) (.ofKind "bool" (Bytes.ofText "true"))
  | false : HasName (.bool false) (.ofKind "bool" (Bytes.ofText "false"))
  | bytes (b : Bytes) : HasName (.bytes b) (.ofKind "bytes" b)

/-- Sixteen bytes of a namespace, and the name in it. -/
def Name.input : Name → Bytes
  | plain b => plainSpace.bytes ++ b
  | ofKind kind b => taggedSpace.bytes ++ (Bytes.ofText kind ++ 0x3a :: b)

/-- The key's identifier is the stamped hash of some bytes. -/
structure HashedFrom (k : Key) (b : Bytes) : Prop where
  input : k.source.hashInput? = some b
  identifier : k.identifier.bytes = Uuid.stamp 5 ((Sha1.digest b).take 16)

/-- A name whose kind ends at the first colon. -/
def Name.IsSeparable : Name → Prop
  | plain _ => True
  | ofKind kind _ => ':' ∉ kind.toList

theorem HasName.isSeparable {k : Key} {x : Name} (h : k.HasName x) : x.IsSeparable := by
  cases h with
  | text | derived | symbol => trivial
  | tagged b hkind => exact hkind
  | integer | char | true | false | bytes => simp only [Name.IsSeparable]; decide

theorem HasName.source_eq {k : Key} {x : Name} (h : k.HasName x) : ∃ space name,
    k.source = .hashed space name ∧ space.bytes ++ name = x.input := by
  cases h with
  | text hs => exact ⟨_, _, by rw [source, hs], rfl⟩
  | char c => exact ⟨_, _, rfl, by rw [Bytes.ofText_singleton]; rfl⟩
  | _ => exact ⟨_, _, rfl, rfl⟩

theorem HasName.hashedFrom {k : Key} {x : Name} (h : k.HasName x) : k.HashedFrom x.input := by
  obtain ⟨space, name, hsource, hinput⟩ := h.source_eq
  rw [← hinput]
  refine ⟨by rw [hsource]; rfl, ?_⟩
  rw [identifier, hsource]
  rfl

/-- What is hashed decides the text under which a key is stored. -/
theorem canonical_eq_of_hashedFrom {k l : Key} {b : Bytes} (hk : k.HashedFrom b)
    (hl : l.HashedFrom b) : k.canonical = l.canonical := by
  have hbytes := hk.identifier.trans hl.identifier.symm
  rw [canonical_eq_iff]
  cases hi : k.identifier
  cases hj : l.identifier
  simpa [hi, hj] using hbytes

theorem HasName.canonical_digits {k : Key} {x : Name} (h : k.HasName x) :
    k.canonical.toList[14]? = some '5' ∧
      ∃ c ∈ ['8', '9', 'a', 'b'], k.canonical.toList[19]? = some c := by
  obtain ⟨space, name, hsource, -⟩ := h.source_eq
  rw [canonical, identifier, hsource]
  exact Uuid.text_named space name

/-- The namespaces have one length and the kinds no colon, so what is hashed can be taken apart. -/
theorem Name.input_inj {x y : Name} (hx : x.IsSeparable) (hy : y.IsSeparable) :
    x.input = y.input ↔ x = y := by
  refine ⟨fun h => ?_, congrArg _⟩
  have hlength (u v : Uuid) : u.bytes.length = v.bytes.length :=
    u.length_bytes.trans v.length_bytes.symm
  cases x with
  | plain b =>
    cases y with
    | plain c => exact congrArg plain (List.append_cancel_left h)
    | ofKind kind c => exact absurd (List.append_inj h (hlength ..)).1 (by decide)
  | ofKind kind b =>
    cases y with
    | plain c => exact absurd (List.append_inj h (hlength ..)).1 (by decide)
    | ofKind kind' c =>
      have hx' : 0x3a ∉ Bytes.ofText kind := mt Bytes.colon_mem_ofText.1 hx
      have hy' : 0x3a ∉ Bytes.ofText kind' := mt Bytes.colon_mem_ofText.1 hy
      obtain ⟨hkind, hb⟩ := Bytes.cut_inj hx' hy' (List.append_cancel_left h)
      rw [Bytes.ofText_inj.1 hkind, hb]

/-- What is fed to the hash for two keys is equal exactly when they have one name, bytes as they
are or the bytes of one kind; then they are stored under one text. For integers that means to be
the same number, whatever their types. The text of a hashed key shows version 5 and the standard
variant, and so is that of no identifier that shows another version. -/
theorem hashInput_eq_iff {k l : Key} {x y : Name} (hk : k.HasName x) (hl : l.HasName y) :
    k.HashedFrom x.input ∧ l.HashedFrom y.input ∧ (x.input = y.input ↔ x = y) ∧
      (x = y → k.canonical = l.canonical) ∧
      (∀ t u i j hi hj, k = .integer t i hi → l = .integer u j hj →
        (x.input = y.input ↔ i = j)) ∧
      k.canonical.toList[14]? = some '5' ∧
      (∃ c ∈ ['8', '9', 'a', 'b'], k.canonical.toList[19]? = some c) ∧
      ∀ u : Uuid, u.text.toList[14]? ≠ some '5' → k.canonical ≠ (Key.uuid u).canonical := by
  have hinput := Name.input_inj hk.isSeparable hl.isSeparable
  obtain ⟨hversion, hvariant⟩ := hk.canonical_digits
  refine ⟨hk.hashedFrom, hl.hashedFrom, hinput, fun hxy => ?_, ?_, hversion, hvariant,
    fun u hu he => ?_⟩
  · subst hxy
    exact canonical_eq_of_hashedFrom hk.hashedFrom hl.hashedFrom
  · rintro t u i j hi hj rfl rfl
    rw [hinput]
    cases hk
    cases hl
    rw [Name.ofKind.injEq, Bytes.ofText_inj]
    exact ⟨fun h => Decimal.text_injective h.2, fun h => ⟨rfl, by rw [h]⟩⟩
  · rw [he] at hversion
    exact hu hversion

/-- Bytes that the caller tags as an integer's text, and that integer. -/
theorem hashInput_eq_iff_tagged :
    let k : Key := .tagged "int" [0x34, 0x32]
    let l : Key := .integer ⟨false, 8⟩ 42 (by decide)
    let x : Name := .ofKind "int" [0x34, 0x32]
    k.HasName x ∧ l.HasName x ∧
      k.HashedFrom x.input ∧ l.HashedFrom x.input ∧ (x.input = x.input ↔ x = x) ∧
      (x = x → k.canonical = l.canonical) ∧
      (∀ t u i j hi hj, k = .integer t i hi → l = .integer u j hj →
        (x.input = x.input ↔ i = j)) ∧
      k.canonical.toList[14]? = some '5' ∧
      (∃ c ∈ ['8', '9', 'a', 'b'], k.canonical.toList[19]? = some c) ∧
      ∀ u : Uuid, u.text.toList[14]? ≠ some '5' → k.canonical ≠ (Key.uuid u).canonical := by
  intro k l x
  have hk : k.HasName x := .tagged _ (by decide)
  have hl : l.HasName x := .integer _
  exact ⟨hk, hl, hashInput_eq_iff hk hl⟩

end Key

end MessageDepot
