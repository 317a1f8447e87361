import MessageDepot.Key
import MessageDepot.Proofs.EnvelopeFields
import MessageDepot.Proofs.Spelling

/-!
# What is read is written no longer

A number may come in more bytes than it needs, an entry may say a name twice, a field may come again
and be written over. All this is left out when a message is written, so each field that still counts
was at least as long where it was read (`Varint.size_le`, `Entry.Spells.size_le`), and fields that
were written over only free their bytes (`Envelope.size_foldl_addPart`). What is written and was not
read is an absent timestamp or payload, of two bytes each, and the four hyphens of an identifier
that came as bare digits.

Results:
* `Varint.size_le`, `delimitedSize_le`, `Entry.Spells.size_le`: nothing is shorter than as it is
  written.
* `Envelope.size_ofParts_le`: the envelope of a body, with two bytes for each field it lacks.
* `Codec.recode_growth`: a message that was read takes eight bytes more at most, and so fits a codec
  whose limit has room for these.
-/
namespace MessageDepot

namespace Wire

/-! ## Numbers and values -/

namespace Varint

theorem size_mono {n k : Nat} (h : n ≤ k) : size n ≤ size k := by
  have hlog : n.log2 ≤ k.log2 := by
    by_cases h0 : n = 0
    · rw [h0, Nat.log2_zero]
      exact Nat.zero_le _
    · have hlt := (Nat.log2_lt h0).2 (Nat.lt_of_le_of_lt h Nat.lt_log2_self)
      omega
  unfold size
  omega

/-- One more byte has room for seven bits more. -/
theorem size_add_le {r : Nat} (hr : r < 128) (n : Nat) : size (r + 128 * n) ≤ size n + 1 := by
  have hn := length_write n
  have hdiv : (r + 128 * n) / 128 = n := by omega
  rw [← length_write, write]
  split
  · simp
  · rw [List.length_cons, hdiv]
    omega

theorem size_le {b : Bytes} {n : Nat} (h : Digits b n) : size n ≤ b.length := by
  induction h with
  | @last x hx =>
    rw [← length_write, write, if_pos hx]
    exact Nat.le_refl _
  | @more x xs n hx _ ih =>
    have hlt := x.toNat_lt
    have h := size_add_le (show x.toNat - 128 < 128 by omega) n
    rw [List.length_cons]
    omega

end Varint

theorem delimitedSize_mono {n k : Nat} (h : n ≤ k) : delimitedSize n ≤ delimitedSize k := by
  have hsize := Varint.size_mono h
  unfold delimitedSize
  omega

theorem delimitedSize_le {b v : Bytes} (h : Delimits b v) : delimitedSize v.length ≤ b.length := by
  obtain ⟨l, hl, rfl⟩ := h
  have hsize := Varint.size_le hl.digits
  rw [List.length_append]
  unfold delimitedSize
  omega

theorem FieldKey.Spells.length_pos {b : Bytes} {k : FieldKey} (h : Spells b k) : 0 < b.length :=
  List.length_pos_iff.2 h.ne_nil

/-! ## Entries -/

namespace Entry

theorem size_addPart_le {b : Bytes} {p : Part} (h : Field IsPart b p) (e : String × String) :
    size (addPart e p).1 (addPart e p).2 ≤ size e.1 e.2 + b.length := by
  obtain ⟨key, k, v, hk, hv, rfl⟩ := h
  obtain ⟨name, value⟩ := e
  have hpos := hk.length_pos
  have htext {s : String} (hs : Delimits v (Bytes.ofText s)) : textSize s ≤ (k ++ v).length := by
    have hle := delimitedSize_le hs
    rw [Envelope.length_ofText] at hle
    rw [List.length_append]
    unfold textSize
    split <;> omega
  cases hv with
  | name hs =>
    have hle := htext hs
    simp only [addPart, size]
    omega
  | value hs =>
    have hle := htext hs
    simp only [addPart, size]
    omega
  | other => exact Nat.le_add_right ..

theorem size_foldl_addPart {b : Bytes} {parts : List Part} (h : Fields IsPart b parts) :
    ∀ e : String × String, size (parts.foldl addPart e).1 (parts.foldl addPart e).2
      ≤ size e.1 e.2 + b.length := by
  induction h with
  | nil => exact fun e => Nat.le_refl _
  | @cons _ _ p _ hp _ ih =>
    intro e
    have hstep := size_addPart_le hp e
    have hrest := ih (addPart e p)
    rw [List.foldl_cons, List.length_append]
    omega

theorem Spells.size_le {b : Bytes} {name value : String} (h : Spells b name value) :
    size name value ≤ b.length := by
  obtain ⟨parts, hparts, rfl, rfl⟩ := h
  have hsize := size_foldl_addPart hparts ("", "")
  have hempty : size "" "" = 0 := rfl
  have hfold := ofParts_eq parts
  rw [ofParts] at hfold
  rw [hfold, hempty, Nat.zero_add] at hsize
  exact hsize

end Entry

/-! ## Envelopes -/

namespace Envelope

theorem headersSize_insertEntry_le (name value : String) (es : List (String × String)) :
    headersSize (Headers.insertEntry name value es) ≤ headerSize name value + headersSize es := by
  induction es with
  | nil => exact Nat.le_refl _
  | cons e es ih =>
    obtain ⟨n, v⟩ := e
    unfold Headers.insertEntry
    split
    · exact Nat.le_refl _
    · split
      · simp only [headersSize]
        omega
      · simp only [headersSize]
        omega

/-- The bytes of a value that parts write over. -/
def replaced {β : Type} (f : Part → Option β) (parts : List Part) (n : Nat) : Nat :=
  if (last? f parts).isSome then n else 0

theorem replaced_cons_of_none {β : Type} {f : Part → Option β} {p : Part} (h : f p = none)
    (parts : List Part) (n : Nat) : replaced f (p :: parts) n = replaced f parts n := by
  rw [replaced, last?_cons, h, Option.or_none, replaced]

theorem replaced_cons_of_some {β : Type} {f : Part → Option β} {p : Part} {x : β}
    (h : f p = some x) (parts : List Part) (n : Nat) : replaced f (p :: parts) n = n := by
  rw [replaced, last?_cons, h, if_pos (by simp)]

/-- What fields are written over the values of an envelope takes no more than their own bytes, and
frees those of the values that are gone. -/
theorem size_foldl_addPart {b : Bytes} {parts : List Part} (h : Fields IsPart b parts) :
    ∀ e : Envelope, (parts.foldl addPart e).size
      + replaced Part.id? parts (1 + delimitedSize e.id.utf8ByteSize)
      + replaced Part.timestamp? parts (1 + Varint.size (timestampBits e.timestamp))
      + replaced Part.payload? parts (1 + delimitedSize e.payload.length) ≤ e.size + b.length := by
  induction h with
  | nil => exact fun e => Nat.le_refl _
  | @cons _ rest p parts hp _ ih =>
    intro e
    obtain ⟨key, k, v, hk, hv, rfl⟩ := hp
    have hpos := hk.length_pos
    have hrest := ih (e.addPart p)
    rw [List.foldl_cons, List.length_append, List.length_append]
    cases hv with
    | @id _ s hs =>
      have hle := delimitedSize_le hs
      rw [length_ofText] at hle
      rw [replaced_cons_of_some (f := Part.id?) rfl,
        replaced_cons_of_none (f := Part.timestamp?) rfl,
        replaced_cons_of_none (f := Part.payload?) rfl]
      simp only [addPart, size] at hrest ⊢
      omega
    | @timestamp _ t ht =>
      have hle := Varint.size_le ht.digits
      rw [replaced_cons_of_none (f := Part.id?) rfl,
        replaced_cons_of_some (f := Part.timestamp?) rfl,
        replaced_cons_of_none (f := Part.payload?) rfl]
      simp only [addPart, size] at hrest ⊢
      omega
    | @header _ _ entry name value hd he =>
      have hle := delimitedSize_le hd
      have hentry := delimitedSize_mono he.size_le
      have hinsert := headersSize_insertEntry_le name value e.headers.entries
      rw [replaced_cons_of_none (f := Part.id?) rfl,
        replaced_cons_of_none (f := Part.timestamp?) rfl,
        replaced_cons_of_none (f := Part.payload?) rfl]
      simp only [addPart, size, Headers.insert, headerSize] at hrest hinsert ⊢
      omega
    | @payload _ w hw =>
      have hle := delimitedSize_le hw
      rw [replaced_cons_of_none (f := Part.id?) rfl,
        replaced_cons_of_none (f := Part.timestamp?) rfl,
        replaced_cons_of_some (f := Part.payload?) rfl]
      simp only [addPart, size] at hrest ⊢
      omega
    | other =>
      rw [replaced_cons_of_none (f := Part.id?) rfl,
        replaced_cons_of_none (f := Part.timestamp?) rfl,
        replaced_cons_of_none (f := Part.payload?) rfl]
      have he : e.addPart .other = e := rfl
      rw [he] at hrest ⊢
      omega

/-- Two bytes of a field that is not there and is written all the same. -/
def lacking {β : Type} (f : Part → Option β) (parts : List Part) : Nat :=
  if (last? f parts).isSome then 0 else 2

theorem lacking_add_replaced {β : Type} (f : Part → Option β) (parts : List Part) :
    lacking f parts + replaced f parts 2 = 2 := by
  unfold lacking replaced
  split <;> rfl

theorem size_ofParts_le {b : Bytes} {parts : List Part} (h : Fields IsPart b parts) :
    (ofParts parts).size ≤
      b.length + lacking Part.id? parts + lacking Part.timestamp? parts +
        lacking Part.payload? parts := by
  have hsize := size_foldl_addPart h ⟨"", 0, .empty, []⟩
  have hid := lacking_add_replaced Part.id? parts
  have ht := lacking_add_replaced Part.timestamp? parts
  have hp := lacking_add_replaced Part.payload? parts
  -- an envelope of nothing has three fields of two bytes each
  change (ofParts parts).size + replaced Part.id? parts 2 + replaced Part.timestamp? parts 2
    + replaced Part.payload? parts 2 ≤ 6 + b.length at hsize
  omega

end Envelope

end Wire

/-! ## Texts of identifiers -/

theorem length_le_utf8ByteSize (s : String) : s.length ≤ s.utf8ByteSize := by
  have hsize (cs : List Char) : cs.length ≤ (cs.flatMap String.utf8EncodeChar).length := by
    induction cs with
    | nil => exact Nat.le_refl _
    | cons c cs ih =>
      have hc := c.utf8Size_pos
      rw [List.flatMap_cons, List.length_append, String.length_utf8EncodeChar, List.length_cons]
      omega
  rw [← Wire.Envelope.length_ofText, Bytes.ofText_eq_flatMap, ← String.length_toList]
  exact hsize s.toList

theorem utf8ByteSize_of_ascii {s : String} (h : ∀ c ∈ s.toList, c.toNat < 128) :
    s.utf8ByteSize = s.length := by
  have hsize (cs : List Char) (hcs : ∀ c ∈ cs, c.toNat < 128) :
      (cs.flatMap String.utf8EncodeChar).length = cs.length := by
    induction cs with
    | nil => rfl
    | cons c cs ih =>
      have hc : c.utf8Size = 1 := Char.utf8Size_eq_one_iff.2 (Nat.le_of_lt_succ (hcs c (by simp)))
      rw [List.flatMap_cons, List.length_append, String.length_utf8EncodeChar, hc,
        ih fun d hd => hcs d (by simp [hd]), List.length_cons, Nat.add_comm]
  rw [← Wire.Envelope.length_ofText, Bytes.ofText_eq_flatMap, ← String.length_toList]
  exact hsize s.toList h

namespace Uuid

theorem utf8ByteSize_text (u : Uuid) : u.text.utf8ByteSize = 36 := by
  obtain ⟨a, b, c, d, e, hs, hlengths, hdigits⟩ := isCanonical_text u
  have hascii : (Hex.lowerDigits.all fun x => x.toNat < 128) = true := by decide
  rw [utf8ByteSize_of_ascii, ← String.length_toList, hs]
  · simp only [List.map_cons, List.map_nil, List.cons.injEq, and_true] at hlengths
    simp [hlengths]
  · intro x hx
    rw [hs] at hx
    by_cases hhyphen : x = '-'
    · rw [hhyphen]
      decide
    · exact of_decide_eq_true
        (List.all_eq_true.1 hascii x (hdigits x (by simpa [hhyphen] using hx)))

/-- Only the bare digits of an identifier are shorter than its text. -/
theorem Spells.length_ge {u : Uuid} {s : String} (h : u.Spells s) :
    36 ≤ s.length ∨ s.length = 32 := by
  have hspelling : u.IsSpelling s.toList := h
  rw [← String.length_toList]
  generalize s.toList = cs at hspelling
  cases hspelling with
  | digits hd => exact .inr (length_of_digits hd)
  | hyphenated hc => rw [hc.length_eq]; decide
  | braced hc => rw [List.length_append, List.length_cons, hc.length_eq]; decide
  | urn hs hc => rw [List.length_append, ← List.Forall₂.length_eq hs, hc.length_eq]; decide

end Uuid

/-! ## Stored messages -/

namespace Codec

open Wire (Fields last? delimitedSize delimitedSize_mono)
open Wire.Envelope (Part IsPart idText lacking ofParts)

/-- Four bytes of hyphens, which bare digits do not have. -/
def hyphens (s : String) : Nat := if s.length = 32 then 4 else 0

theorem delimitedSize_text_le {u : Uuid} {s : String} (h : u.Spells s) :
    delimitedSize u.text.utf8ByteSize ≤ delimitedSize s.utf8ByteSize + hyphens s := by
  have hlength := length_le_utf8ByteSize s
  rw [u.utf8ByteSize_text]
  unfold hyphens
  rcases h.length_ge with hge | heq
  · have hmono := delimitedSize_mono (show 36 ≤ s.utf8ByteSize by omega)
    omega
  · have hmono := delimitedSize_mono (show 32 ≤ s.utf8ByteSize by omega)
    have hdigits : delimitedSize 36 = delimitedSize 32 + 4 := by decide
    rw [if_pos heq]
    omega

/-- The message of some fields is written in no more bytes than they take, but for the hyphens of
its identifier and for fields that are not there. -/
theorem size_envelope_le {body : Bytes} {parts : List Part} {m : Message}
    (h : Fields IsPart body parts) (hm : Says parts m) :
    (envelope m).size ≤ body.length + hyphens (idText parts)
      + lacking Part.timestamp? parts + lacking Part.payload? parts := by
  have hspells : m.id.Spells (idText parts) := Uuid.ofText?_eq_some_iff.1 hm.id
  have hread : ofEnvelope (ofParts parts) = .ok m := by
    rw [← decodeBody_of_fields h]
    exact decodeBody_eq_ok_iff.2 ⟨parts, h, hm⟩
  have hsome : lacking Part.id? parts = 0 := by
    -- the empty text spells no identifier
    rcases Wire.last?_cases Part.id?_eq_some_iff parts with ⟨s, hlast, -⟩ | ⟨hnone, -⟩
    · rw [lacking, hlast]
      rfl
    · have hid := hm.id
      rw [idText, hnone] at hid
      cases hid
  obtain ⟨-, ht, hh, hp⟩ := ofEnvelope_eq_ok_iff.1 hread
  have hsize := Wire.Envelope.size_ofParts_le h
  have htext := delimitedSize_text_le hspells
  rw [hsome] at hsize
  rw [← (Wire.Envelope.says_ofParts parts).id] at htext ⊢
  simp only [envelope, Wire.Envelope.size, ht, hh, hp] at hsize ⊢
  omega

theorem encode_of_size_le {c : Codec} {m : Message} (h : (envelope m).size ≤ c.maxSize) :
    c.encode m = .ok (frame m) := by
  rw [encode_eq, if_neg (by omega)]

/-- A message that was read is written in eight bytes more at most than the body it was read from:
four for the hyphens of an identifier that was given as its 32 digits, two for a timestamp that was
not there, and two for a payload that was not there. So every codec writes it whose limit leaves
these eight bytes, and the codec without a limit of its own does if the body has at most
4294967287 bytes. -/
theorem recode_growth {c : Codec} {b : Bytes} {m : Message} (h : c.decode b = .ok m) :
    ∃ body parts, Framed b body ∧ Fields IsPart body parts ∧
      (envelope m).size ≤ body.length + (if (idText parts).length = 32 then 4 else 0)
        + (if (last? Part.timestamp? parts).isSome then 0 else 2)
        + (if (last? Part.payload? parts).isSome then 0 else 2) ∧
      (envelope m).size ≤ body.length + 8 ∧
      (∀ writer : Codec, body.length + 8 ≤ writer.maxSize → writer.encode m = .ok (frame m)) ∧
      (body.length ≤ 4294967287 → standard.encode m = .ok (frame m)) := by
  obtain ⟨body, hframed⟩ := exists_framed h
  rw [decode_of_framed c hframed, decodeBody_eq_ok_iff] at h
  obtain ⟨parts, hparts, hsays⟩ := h
  have hsize := size_envelope_le hparts hsays
  unfold hyphens lacking at hsize
  have hbound : (envelope m).size ≤ body.length + 8 := by
    split at hsize <;> split at hsize <;> split at hsize <;> omega
  have hmax : standard.maxSize = 4294967295 := rfl
  exact ⟨body, parts, hframed, hparts, hsize, hbound,
    fun writer hle => encode_of_size_le (by omega), fun hle => encode_of_size_le (by omega)⟩

/-- Bare digits alone: a body of 34 bytes grows by all the eight. -/
theorem recode_growth_digits :
    let body : Bytes := 10 :: 32 :: Bytes.ofText "3f1c5e8a27645b0d9e41a27c10d36b58"
    let b : Bytes := 1 :: 0 :: 0 :: 0 :: 34 :: body
    standard.decode b = .ok ⟨plainSpace, 0, .empty, []⟩ ∧ body.length = 34 ∧
      (envelope ⟨plainSpace, 0, .empty, []⟩).size = 42 ∧
      (withMaxSize 42).encode ⟨plainSpace, 0, .empty, []⟩ =
        .ok (frame ⟨plainSpace, 0, .empty, []⟩) := by
  have hsize : (envelope ⟨plainSpace, 0, .empty, []⟩).size = 42 := by decide
  intro body b
  have hlength : body.length = 34 := by rfl
  have hb : standard.decode b = .ok ⟨plainSpace, 0, .empty, []⟩ := by decide +kernel
  obtain ⟨body', -, ⟨_, _, _, _, hframe, -⟩, -, -, -, hwrite, -⟩ := recode_growth hb
  simp only [b, List.cons.injEq] at hframe
  obtain ⟨-, -, -, -, -, rfl⟩ := hframe
  exact ⟨hb, hlength, hsize, hwrite (withMaxSize 42) (by rw [hlength]; decide)⟩

end Codec

end MessageDepot
