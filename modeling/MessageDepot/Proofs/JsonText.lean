import MessageDepot.Json.Text
import MessageDepot.Proofs.Spelling
import MessageDepot.Proofs.WireGrammar

/-!
# How a text may be spelled in JSON

A character has a spelling for itself, unless it is a quote, a backslash or a control character, one
as an escape by a letter, if there is a letter for it, and one as an escape of one or two units of
four hex digits of either case, two when it does not fit in one. A text is spelled character by
character (`IsString`). The reader gives the bytes of the text back whatever spellings were chosen;
what it puts together is UTF-8 because each character was. A text that is passed over is held to
less: bytes of any kind, and units of any kind.

Results:
* `hexDigit?_eq_some_iff`: the digits of a unit.
* `readText_spells`, `readString_isString`: a text is read from each of its spellings.
* `skipString_loose`: what is passed over as a text.
* `isString_writeString`: what is written is one of the spellings.
-/
namespace MessageDepot.Json

open Wire (Row)

/-! ## Space -/

def IsSpaces (b : Bytes) : Prop := ∀ x ∈ b, isSpace x = true

theorem isSpaces_nil : IsSpaces [] := by simp [IsSpaces]

theorem skipSpace_append {s : Bytes} (hs : IsSpaces s) (b : Bytes) :
    skipSpace (s ++ b) = skipSpace b :=
  List.dropWhile_append_of_pos hs

theorem skipSpace_spaces {s : Bytes} (hs : IsSpaces s) : skipSpace s = [] := by
  have hskip := skipSpace_append hs []
  rwa [List.append_nil] at hskip

theorem skipSpace_cons {x : UInt8} (hx : isSpace x = false) (b : Bytes) :
    skipSpace (x :: b) = x :: b :=
  List.dropWhile_cons_of_neg (by simp [hx])

theorem readMark_append {mark : UInt8} (hmark : isSpace mark = false) {s : Bytes} (hs : IsSpaces s)
    (b : Bytes) : readMark mark (s ++ mark :: b) = .ok b := by
  rw [readMark, skipSpace_append hs, skipSpace_cons hmark]
  exact if_pos rfl

theorem readMark_spaces {s : Bytes} (hs : IsSpaces s) (mark : UInt8) :
    readMark mark s = .error .endOfInput := by
  rw [readMark, skipSpace_spaces hs]

/-- The bytes below space are the control characters. -/
theorem lt_space_iff {x : UInt8} : x < 0x20 ↔ x.toNat < 0x20 := UInt8.lt_iff_toNat_lt

/-! ## Spellings -/

/-- A byte is the hex digit of a number, in either case. -/
def IsHexDigit (b : UInt8) (n : Nat) : Prop :=
  n < 16 ∧ (b.toNat = (Nat.digitChar n).toNat ∨ b.toNat = (Nat.digitChar n).toUpper.toNat)

/-- Four hex digits of a number. -/
inductive IsUnit : Bytes → Nat → Prop where
  | digits {a b c d : UInt8} {i j k l : Nat} : IsHexDigit a i → IsHexDigit b j → IsHexDigit c k →
    IsHexDigit d l → IsUnit [a, b, c, d] (((i * 16 + j) * 16 + k) * 16 + l)

/-- The letters of escapes, with the characters they stand for. -/
def letters : List (UInt8 × Char) :=
  [(0x22, '"'), (0x5c, '\\'), (0x2f, '/'), (0x62, '\x08'), (0x66, '\x0c'), (0x6e, '\n'),
    (0x72, '\r'), (0x74, '\t')]

/-- Bytes spell a character between the quotes of a string. -/
inductive Spells : Bytes → Char → Prop where
  | plain {c : Char} : 0x20 ≤ c.toNat → c ≠ '"' → c ≠ '\\' → Spells (String.utf8EncodeChar c) c
  | letter {l : UInt8} {c : Char} : (l, c) ∈ letters → Spells [0x5c, l] c
  | unit {u : Bytes} {c : Char} : IsUnit u c.toNat → Spells (0x5c :: 0x75 :: u) c
  | pair {u v : Bytes} {high low : Nat} {c : Char} : IsUnit u high → IsUnit v low →
    isHighSurrogate high → isLowSurrogate low → c.toNat = pairPoint high low →
    Spells (0x5c :: 0x75 :: u ++ 0x5c :: 0x75 :: v) c

/-- Bytes are a string of a text: its characters in quotes, each in one of its spellings. -/
def IsString (b : Bytes) (s : String) : Prop :=
  ∃ body, Row Spells body s.toList ∧ b = 0x22 :: body ++ [0x22]

/-- What may stand between the quotes of a string that is passed over: any bytes but quotes,
backslashes and control characters, and escapes, whose units need no partner. -/
inductive IsLoose : Bytes → Prop where
  | nil : IsLoose []
  | byte {x : UInt8} {b : Bytes} : 0x20 ≤ x.toNat → x ≠ 0x22 → x ≠ 0x5c → IsLoose b →
    IsLoose (x :: b)
  | letter {l : UInt8} {c : Char} {b : Bytes} : (l, c) ∈ letters → IsLoose b →
    IsLoose (0x5c :: l :: b)
  | unit {u b : Bytes} {n : Nat} : IsUnit u n → IsLoose b → IsLoose (0x5c :: 0x75 :: u ++ b)

/-! ## Escapes -/

theorem hexDigit?_eq_some_iff {b : UInt8} {n : Nat} : hexDigit? b = some n ↔ IsHexDigit b n := by
  have hb : (Char.ofNat b.toNat).toNat = b.toNat := by
    have hlt := b.toNat_lt
    have hvalid : b.toNat.isValidChar := .inl (by omega)
    rw [Char.ofNat, dif_pos hvalid]
    rfl
  rw [hexDigit?, Hex.digit?_eq_some_iff, ← Char.toNat_inj, ← Char.toNat_inj, hb, IsHexDigit]

theorem readUnit_append {u : Bytes} {n : Nat} (h : IsUnit u n) (rest : Bytes) :
    readUnit (u ++ rest) = .ok (n, rest) := by
  cases h with
  | digits ha hb hc hd =>
    simp only [List.cons_append, List.nil_append, readUnit, unit?, hexDigit?_eq_some_iff.2 ha,
      hexDigit?_eq_some_iff.2 hb, hexDigit?_eq_some_iff.2 hc, hexDigit?_eq_some_iff.2 hd]

theorem pointBytes_toNat (c : Char) : pointBytes c.toNat = String.utf8EncodeChar c := by
  rw [pointBytes, Char.ofNat_toNat, Bytes.ofText_singleton]

theorem readEscape_letter {l : UInt8} {c : Char} (h : (l, c) ∈ letters) (rest : Bytes) :
    readEscape (l :: rest) = .ok (String.utf8EncodeChar c, rest) := by
  simp only [letters, List.mem_cons, Prod.mk.injEq, List.not_mem_nil, or_false] at h
  rcases h with ⟨rfl, rfl⟩ | ⟨rfl, rfl⟩ | ⟨rfl, rfl⟩ | ⟨rfl, rfl⟩ | ⟨rfl, rfl⟩ | ⟨rfl, rfl⟩ |
    ⟨rfl, rfl⟩ | ⟨rfl, rfl⟩ <;> rfl

/-- No character is a surrogate. -/
theorem not_surrogate (c : Char) :
    isLowSurrogate c.toNat = false ∧ isHighSurrogate c.toNat = false := by
  have hvalid : c.toNat < 0xd800 ∨ 0xdfff < c.toNat ∧ c.toNat < 0x110000 := c.valid
  simp only [isLowSurrogate, isHighSurrogate, Bool.and_eq_false_iff, decide_eq_false_iff_not]
  omega

theorem isLowSurrogate_eq_false {n : Nat} (h : isHighSurrogate n) : isLowSurrogate n = false := by
  simp only [isHighSurrogate, isLowSurrogate, Bool.and_eq_true, decide_eq_true_eq,
    Bool.and_eq_false_iff, decide_eq_false_iff_not] at h ⊢
  omega

theorem readEscape_unit {u : Bytes} {c : Char} (h : IsUnit u c.toNat) (rest : Bytes) :
    readEscape (0x75 :: u ++ rest) = .ok (String.utf8EncodeChar c, rest) := by
  obtain ⟨hlow, hhigh⟩ := not_surrogate c
  rw [List.cons_append, readEscape, if_pos rfl, readUnit_append h]
  simp only [hlow, hhigh, Bool.false_eq_true, if_false, pointBytes_toNat]

theorem readEscape_pair {u v : Bytes} {high low : Nat} {c : Char} (hu : IsUnit u high)
    (hv : IsUnit v low) (hhigh : isHighSurrogate high) (hlow : isLowSurrogate low)
    (hc : c.toNat = pairPoint high low) (rest : Bytes) :
    readEscape (0x75 :: u ++ (0x5c :: 0x75 :: v ++ rest)) =
      .ok (String.utf8EncodeChar c, rest) := by
  rw [List.cons_append, readEscape, if_pos rfl, readUnit_append hu]
  simp only [isLowSurrogate_eq_false hhigh, hhigh, Bool.false_eq_true, if_false, if_true,
    List.cons_append, readUnitMark, readUnit_append hv, hlow, ← hc, pointBytes_toNat]

/-! ## Reading -/

theorem readText_quote (rest : Bytes) : readText (0x22 :: rest) = .ok ([], rest) := by
  rw [readText]
  rfl

theorem readText_escape {b v rest : Bytes} (h : readEscape b = .ok (v, rest)) :
    readText (0x5c :: b) = (readText rest).map fun p => (v ++ p.1, p.2) := by
  rw [readText, if_neg (by decide), if_pos rfl]
  split
  · rename_i he
    rw [h] at he
    cases he
  · rename_i he
    rw [h] at he
    cases he
    cases readText rest <;> rfl

/-- Bytes that stand for themselves are taken one by one. -/
theorem readText_plain {b : Bytes} (hb : ∀ x ∈ b, 0x20 ≤ x.toNat ∧ x ≠ 0x22 ∧ x ≠ 0x5c)
    (rest : Bytes) : readText (b ++ rest) = (readText rest).map fun p => (b ++ p.1, p.2) := by
  induction b with
  | nil =>
    cases h : readText rest <;> simp [h, Except.map]
  | cons x b ih =>
    obtain ⟨hx, hquote, hslash⟩ := hb x (by simp)
    have hcontrol : ¬ x < 0x20 := mt lt_space_iff.1 (Nat.not_lt.2 hx)
    rw [List.cons_append, readText, if_neg hquote, if_neg hslash, if_neg hcontrol,
      ih fun y hy => hb y (by simp [hy])]
    cases readText rest <;> rfl

/-- The bytes of a character that stands for itself do so too: a byte that means something by itself
would be the whole character. -/
theorem plain_of_mem_utf8EncodeChar {c : Char} (hc : 0x20 ≤ c.toNat) (hquote : c ≠ '"')
    (hslash : c ≠ '\\') {x : UInt8} (hx : x ∈ String.utf8EncodeChar c) :
    0x20 ≤ x.toNat ∧ x ≠ 0x22 ∧ x ≠ 0x5c := by
  by_cases hlt : x.toNat < 128
  · have hx' := (Bytes.mem_utf8EncodeChar hlt c).1 hx
    refine ⟨by omega, ?_, ?_⟩
    · rintro rfl
      exact hquote (Char.toNat_inj.1 hx')
    · rintro rfl
      exact hslash (Char.toNat_inj.1 hx')
  · refine ⟨by omega, ?_, ?_⟩ <;> rintro rfl <;> exact hlt (by decide)

theorem readText_char {b : Bytes} {c : Char} (h : Spells b c) (rest : Bytes) :
    readText (b ++ rest) =
      (readText rest).map fun p => (String.utf8EncodeChar c ++ p.1, p.2) := by
  cases h with
  | plain hc hquote hslash =>
    exact readText_plain (fun x hx => plain_of_mem_utf8EncodeChar hc hquote hslash hx) rest
  | letter hl => exact readText_escape (readEscape_letter hl rest)
  | unit hu => exact readText_escape (readEscape_unit hu rest)
  | @pair u v _ _ _ hu hv hhigh hlow hc =>
    have hread := readText_escape (readEscape_pair hu hv hhigh hlow hc rest)
    simpa only [List.cons_append, List.append_assoc] using hread

theorem readText_spells {body : Bytes} {cs : List Char} (h : Row Spells body cs) (rest : Bytes) :
    readText (body ++ 0x22 :: rest) = .ok (cs.flatMap String.utf8EncodeChar, rest) := by
  induction h with
  | nil => exact readText_quote rest
  | cons hc _ ih =>
    rw [List.append_assoc, readText_char hc, ih]
    rfl

theorem readString_isString {b : Bytes} {s : String} (h : IsString b s) :
    ∃ body, b = 0x22 :: body ∧ ∀ rest, readString (body ++ rest) = .ok (s, rest) := by
  obtain ⟨body, hbody, rfl⟩ := h
  refine ⟨body ++ [0x22], rfl, fun rest => ?_⟩
  rw [List.append_assoc, List.singleton_append, readString, readText_spells hbody]
  simp only [← Bytes.ofText_eq_flatMap, Bytes.text?_ofText]

/-! ## Passing over -/

theorem skipEscape_letter {l : UInt8} {c : Char} (h : (l, c) ∈ letters) (rest : Bytes) :
    skipEscape (l :: rest) = .ok rest := by
  simp only [letters, List.mem_cons, Prod.mk.injEq, List.not_mem_nil, or_false] at h
  rcases h with ⟨rfl, rfl⟩ | ⟨rfl, rfl⟩ | ⟨rfl, rfl⟩ | ⟨rfl, rfl⟩ | ⟨rfl, rfl⟩ | ⟨rfl, rfl⟩ |
    ⟨rfl, rfl⟩ | ⟨rfl, rfl⟩ <;> rfl

theorem skipEscape_unit {u : Bytes} {n : Nat} (h : IsUnit u n) (rest : Bytes) :
    skipEscape (0x75 :: u ++ rest) = .ok rest := by
  rw [List.cons_append, skipEscape, if_pos rfl, readUnit_append h]

theorem skipString_escape {b rest : Bytes} (h : skipEscape b = .ok rest) :
    skipString (0x5c :: b) = skipString rest := by
  rw [skipString, if_neg (by decide), if_pos rfl]
  split
  · rename_i he
    rw [h] at he
    cases he
  · rename_i he
    rw [h] at he
    cases he
    rfl

theorem skipString_loose {body : Bytes} (h : IsLoose body) (rest : Bytes) :
    skipString (body ++ 0x22 :: rest) = .ok rest := by
  induction h with
  | nil =>
    rw [List.nil_append, skipString]
    rfl
  | @byte x b hx hquote hslash _ ih =>
    have hcontrol : ¬ x < 0x20 := mt lt_space_iff.1 (Nat.not_lt.2 hx)
    rw [List.cons_append, skipString, if_neg hquote, if_neg hslash, if_neg hcontrol, ih]
  | letter hl _ ih => exact (skipString_escape (skipEscape_letter hl _)).trans ih
  | unit hu _ ih =>
    have hskip := (skipString_escape (skipEscape_unit hu _)).trans ih
    simpa only [List.cons_append, List.append_assoc] using hskip

/-! ## Writing -/

theorem isHexDigit_hexDigitByte {n : Nat} (h : n < 16) : IsHexDigit (hexDigitByte n) n := by
  have hall : ∀ k < 16, (hexDigitByte k).toNat = (Nat.digitChar k).toNat := by decide
  exact ⟨h, .inl (hall n h)⟩

theorem letter_of_escapeLetter? {b l : UInt8} (h : escapeLetter? b = some l) :
    (l, Char.ofNat b.toNat) ∈ letters := by
  unfold escapeLetter? at h
  split at h <;> cases h <;> decide

theorem utf8EncodeChar_of_ascii {c : Char} (h : c.toNat < 128) :
    String.utf8EncodeChar c = [c.toNat.toUInt8] := by
  have hc : c.val.toNat = c.toNat := rfl
  unfold String.utf8EncodeChar
  simp only [hc]
  rw [if_pos (by omega)]

/-- A character of one byte is written as a letter's escape, as a unit, or as it is. -/
theorem spells_writeByte {c : Char} (h : c.toNat < 128) : Spells (writeByte c.toNat.toUInt8) c := by
  have hb : c.toNat.toUInt8.toNat = c.toNat := by
    rw [Nat.toUInt8_eq, UInt8.toNat_ofNat']
    omega
  have hcontrol : c.toNat.toUInt8 < 0x20 ↔ c.toNat < 0x20 := by rw [lt_space_iff, hb]
  cases hletter : escapeLetter? c.toNat.toUInt8 with
  | some l =>
    have hmem := letter_of_escapeLetter? hletter
    rw [hb, Char.ofNat_toNat] at hmem
    rw [writeByte, hletter]
    exact .letter hmem
  | none =>
    rw [writeByte, hletter]
    simp only [hcontrol, hb]
    split
    · have hzero : IsHexDigit 0x30 0 := ⟨by decide, by decide⟩
      have hunit : IsUnit [0x30, 0x30, hexDigitByte (c.toNat / 16), hexDigitByte (c.toNat % 16)]
          (((0 * 16 + 0) * 16 + c.toNat / 16) * 16 + c.toNat % 16) :=
        .digits hzero hzero (isHexDigit_hexDigitByte (by omega))
          (isHexDigit_hexDigitByte (by omega))
      rw [show ((0 * 16 + 0) * 16 + c.toNat / 16) * 16 + c.toNat % 16 = c.toNat by omega] at hunit
      exact .unit hunit
    · rw [← utf8EncodeChar_of_ascii h]
      refine .plain (by omega) ?_ ?_
      · rintro rfl
        cases hletter
      · rintro rfl
        cases hletter

theorem spells_flatMap_writeByte (c : Char) :
    Spells ((String.utf8EncodeChar c).flatMap writeByte) c := by
  by_cases h : c.toNat < 128
  · rw [utf8EncodeChar_of_ascii h, List.flatMap_singleton]
    exact spells_writeByte h
  · -- all bytes of a longer character are above those that need an escape
    have hself : ∀ x ∈ String.utf8EncodeChar c, writeByte x = [x] := by
      intro x hx
      have hge : 128 ≤ x.toNat := by
        refine Nat.not_lt.1 fun hlt => h ?_
        rw [(Bytes.mem_utf8EncodeChar hlt c).1 hx]
        exact hlt
      have hletter : escapeLetter? x = none := by
        unfold escapeLetter?
        split <;> first | rfl | exact absurd hge (by decide)
      have hcontrol : ¬ x < 0x20 := mt lt_space_iff.1 (by omega)
      rw [writeByte, hletter]
      exact if_neg hcontrol
    rw [List.flatMap_congr hself, List.flatMap_singleton']
    refine .plain (by omega) ?_ ?_ <;> rintro rfl <;> exact h (by decide)

theorem isString_writeString (s : String) : IsString (writeString s) s := by
  have hrow (cs : List Char) :
      Row Spells ((cs.flatMap String.utf8EncodeChar).flatMap writeByte) cs := by
    induction cs with
    | nil => exact .nil
    | cons c cs ih =>
      rw [List.flatMap_cons, List.flatMap_append]
      exact .cons (spells_flatMap_writeByte c) ih
  refine ⟨_, hrow s.toList, ?_⟩
  rw [writeString, writeText, Bytes.ofText_eq_flatMap]

end MessageDepot.Json
