import MessageDepot.Key
import MessageDepot.Proofs.CodecRoundTrip
import MessageDepot.Proofs.EnvelopeGrammar

/-!
# Bodies field by field

The body of an accepted frame is a list of fields, and each of them is written over what the ones
before it have said. So a field that says nothing may stand anywhere, two neighbours that speak of
different things may change places, and a field may be missing altogether: only the identifier is
asked for in the end, because no text spells one where there is none.

Results:
* `Wire.row_iff_flatten`: a row is cut into its chunks.
* `Envelope.addPart_comm`, `Envelope.addPart_header_comm`: parts that do not touch the same thing.
* `Codec.decode_fields`: what is read from the frame of some fields.
* `Codec.decode_rearranged`: fields that are foreign to envelopes, and neighbours exchanged.
* `Codec.decode_only_needs_id`: what becomes of fields that are missing.
-/
namespace MessageDepot

/-- Headers of two names are put in either order. -/
theorem Headers.insert_comm {name name' : String} (h : name ≠ name') (hs : Headers)
    (value value' : String) :
    (hs.insert name value).insert name' value' = (hs.insert name' value').insert name value := by
  refine Headers.ext_get? fun n => ?_
  simp only [Headers.get?_insert]
  by_cases hn : n = name
  · have hn' : n ≠ name' := hn ▸ h
    rw [if_neg hn', if_pos hn, if_pos hn]
  · rw [if_neg hn, if_neg hn]

namespace Wire

/-- A row is its chunks one after another. -/
theorem row_iff_flatten {α : Type} {format : Bytes → α → Prop} {b : Bytes} {as : List α} :
    Row format b as ↔ ∃ chunks, List.Forall₂ format chunks as ∧ b = chunks.flatten := by
  constructor
  · intro h
    induction h with
    | nil => exact ⟨[], .nil, rfl⟩
    | @cons b _ _ _ hb _ ih =>
      obtain ⟨chunks, hchunks, rfl⟩ := ih
      exact ⟨b :: chunks, .cons hb hchunks, rfl⟩
  · rintro ⟨chunks, h, rfl⟩
    induction h with
    | nil => exact .nil
    | cons hb _ ih => exact .cons hb ih

/-- A key below 128 is one byte. -/
theorem FieldKey.spells_single {x : UInt8} {k : FieldKey} (hx : x.toNat < 128)
    (hk : x.toNat = 8 * k.number + k.type.code) (hpos : 1 ≤ k.number) : Spells [x] k where
  number := ⟨hk ▸ .last hx, by simp, by omega⟩
  pos := hpos
  lt := by omega

/-! ## The last part, with one part left out -/

section Last

variable {α β : Type} {f : α → Option β}

/-- Where parts of one kind give values, the last value is that of a part, unless there are no parts
of the kind. -/
theorem last?_cases {kind : β → α} (h : ∀ a b, f a = some b ↔ a = kind b) (parts : List α) :
    (∃ b, last? f parts = some b ∧ kind b ∈ parts) ∨
      last? f parts = none ∧ ∀ b, kind b ∉ parts := by
  cases hlast : last? f parts with
  | some b =>
    obtain ⟨a, ha, hb⟩ := List.mem_filterMap.1 (List.mem_of_getLast? hlast)
    rw [(h a b).1 hb] at ha
    exact .inl ⟨b, rfl, ha⟩
  | none =>
    refine .inr ⟨rfl, fun b hb => ?_⟩
    have hnone := List.filterMap_eq_nil_iff.1 (List.getLast?_eq_none_iff.1 hlast) _ hb
    rw [(h _ b).2 rfl] at hnone
    cases hnone

theorem last?_silent {a : α} (ha : f a = none) (parts parts' : List α) :
    last? f (parts ++ a :: parts') = last? f (parts ++ parts') := by
  rw [last?, last?, List.filterMap_append, List.filterMap_append, List.filterMap_cons_none ha]

end Last

namespace Envelope

/-! ## Fields -/

/-- Bytes are a field of an envelope, of this number, and are read as this part. -/
def IsField (number : Nat) (f : Bytes) (p : Part) : Prop :=
  ∃ key k v, key.number = number ∧ FieldKey.Spells k key ∧ IsPart key v p ∧ f = k ++ v

/-- Bytes are a field that envelopes do not have: a key of another number, and a value that its wire
type allows. -/
def IsForeign (f : Bytes) : Prop :=
  ∃ key k v, key.number ∉ [1, 2, 3, 4] ∧ FieldKey.Spells k key ∧ IsValue depthLimit key v ∧
    f = k ++ v

/-- Two fields of different numbers, or two headers of different names. -/
inductive Unrelated : Bytes → Bytes → Prop where
  | numbers {n n' : Nat} {f f' : Bytes} {p p' : Part} :
    IsField n f p → IsField n' f' p' → n ≠ n' → Unrelated f f'
  | headers {f f' : Bytes} {name name' value value' : String} :
    IsField 3 f (.header name value) → IsField 3 f' (.header name' value') → name ≠ name' →
      Unrelated f f'

theorem IsField.field {n : Nat} {f : Bytes} {p : Part} (h : IsField n f p) : Field IsPart f p := by
  obtain ⟨key, k, v, -, hk, hv, hf⟩ := h
  exact ⟨key, k, v, hk, hv, hf⟩

theorem IsForeign.field {f : Bytes} (h : IsForeign f) : Field IsPart f .other := by
  obtain ⟨key, k, v, hn, hk, hv, hf⟩ := h
  exact ⟨key, k, v, hk, .other hn hv, hf⟩

theorem Part.id?_eq_some_iff (p : Part) (s : String) : p.id? = some s ↔ p = .id s := by
  cases p <;> simp [Part.id?]

theorem Part.timestamp?_eq_some_iff (p : Part) (t : Int64) :
    p.timestamp? = some t ↔ p = .timestamp t := by
  cases p <;> simp [Part.timestamp?]

theorem Part.payload?_eq_some_iff (p : Part) (v : Bytes) :
    p.payload? = some v ↔ p = .payload v := by
  cases p <;> simp [Part.payload?]

/-! ## Parts in another order -/

/-- Parts of fields of different numbers go to different places. -/
theorem addPart_comm {key key' : FieldKey} {v v' : Bytes} {p q : Part} (hp : IsPart key v p)
    (hq : IsPart key' v' q) (h : key.number ≠ key'.number) (e : Envelope) :
    (e.addPart p).addPart q = (e.addPart q).addPart p := by
  cases hp <;> cases hq <;> first | rfl | exact absurd rfl h

theorem addPart_header_comm {name name' : String} (h : name ≠ name') (value value' : String)
    (e : Envelope) : (e.addPart (.header name value)).addPart (.header name' value') =
      (e.addPart (.header name' value')).addPart (.header name value) := by
  simp only [addPart, Headers.insert_comm h]

theorem ofParts_append (parts parts' : List Part) :
    ofParts (parts ++ parts') = parts'.foldl addPart (ofParts parts) := by
  rw [ofParts, List.foldl_append, ofParts]

theorem ofParts_other (parts parts' : List Part) :
    ofParts (parts ++ .other :: parts') = ofParts (parts ++ parts') := by
  rw [ofParts_append, List.foldl_cons, ofParts_append]
  rfl

theorem ofParts_swap {p q : Part}
    (h : ∀ e : Envelope, (e.addPart p).addPart q = (e.addPart q).addPart p)
    (parts parts' : List Part) :
    ofParts (parts ++ q :: p :: parts') = ofParts (parts ++ p :: q :: parts') := by
  rw [ofParts_append, ofParts_append]
  simp only [List.foldl_cons, h]

/-- Unrelated fields are read as parts that go to different places. -/
theorem Unrelated.exists_parts {f g : Bytes} (h : Unrelated f g) :
    ∃ p q, Field IsPart f p ∧ Field IsPart g q ∧
      ∀ e : Envelope, (e.addPart p).addPart q = (e.addPart q).addPart p := by
  cases h with
  | @numbers n n' _ _ p q hf hg hn =>
    refine ⟨p, q, hf.field, hg.field, ?_⟩
    obtain ⟨key, _, _, rfl, _, hkey, _⟩ := hf
    obtain ⟨key', _, _, rfl, _, hkey', _⟩ := hg
    exact addPart_comm hkey hkey' hn
  | headers hf hg hn =>
    exact ⟨_, _, hf.field, hg.field, addPart_header_comm hn _ _⟩

end Envelope

end Wire

/-! ## Frames -/

namespace Codec

open Wire (Field Fields last?)
open Wire.Envelope (Part IsPart IsForeign Unrelated idText ofParts)

/-- A body in the frame of its length. -/
def inFrame (body : Bytes) : Bytes := formatVersion :: lengthBytes body.length ++ body

theorem framed_inFrame {body : Bytes} (h : body.length < 4294967296) :
    Framed (inFrame body) body :=
  ⟨_, _, _, _, rfl, length_of_digits h⟩

theorem Framed.length_lt {b body : Bytes} (h : Framed b body) : body.length < 4294967296 := by
  obtain ⟨w, x, y, z, -, hl⟩ := h
  have hw := w.toNat_lt
  have hx := x.toNat_lt
  have hy := y.toNat_lt
  have hz := z.toNat_lt
  omega

/-- The frame of a body holds no other one. -/
theorem Framed.eq_of_inFrame {body body' : Bytes} (h : Framed (inFrame body) body') :
    body' = body := by
  obtain ⟨w, x, y, z, hb, -⟩ := h
  simp only [inFrame, lengthBytes, List.cons_append, List.nil_append, List.cons.injEq] at hb
  exact hb.2.2.2.2.2.symm

/-- What is read from the frame of some fields. -/
theorem decode_fields (c : Codec) {fs : List Bytes} {parts : List Part}
    (h : List.Forall₂ (Field IsPart) fs parts) (hlt : fs.flatten.length < 4294967296) :
    c.decode (inFrame fs.flatten) = ofEnvelope (ofParts parts) := by
  rw [decode_of_framed c (framed_inFrame hlt)]
  exact decodeBody_of_fields (Wire.row_iff_flatten.2 ⟨fs, h, rfl⟩)

/-- What is accepted is the frame of some fields, and the message is what they say. -/
theorem exists_fields {c : Codec} {b : Bytes} {m : Message} (h : c.decode b = .ok m) :
    ∃ fs parts, Framed b fs.flatten ∧ List.Forall₂ (Field IsPart) fs parts ∧ Says parts m := by
  obtain ⟨body, hframed⟩ := exists_framed h
  rw [decode_of_framed c hframed, decodeBody_eq_ok_iff] at h
  obtain ⟨parts, hrow, hsays⟩ := h
  obtain ⟨fs, hfs, rfl⟩ := Wire.row_iff_flatten.1 hrow
  exact ⟨fs, parts, hframed, hfs, hsays⟩

theorem exists_parts {fs : List Bytes} (h : ∀ f ∈ fs, ∃ p, Field IsPart f p) :
    ∃ parts, List.Forall₂ (Field IsPart) fs parts := by
  induction fs with
  | nil => exact ⟨[], .nil⟩
  | cons f fs ih =>
    obtain ⟨p, hp⟩ := h f (by simp)
    obtain ⟨parts, hparts⟩ := ih fun g hg => h g (by simp [hg])
    exact ⟨p :: parts, .cons hp hparts⟩

theorem field_of_forall₂ {fs : List Bytes} {parts : List Part}
    (h : List.Forall₂ (Field IsPart) fs parts) : ∀ f ∈ fs, ∃ p, Field IsPart f p :=
  ((List.forall₂_and_left _ _).1 (h.imp fun _ p hp => ⟨⟨p, hp⟩, hp⟩)).1

/-! ## Fields put in, exchanged and left out -/

section
variable {c : Codec} {m : Message} {gs hs : List Bytes} {f g : Bytes}

theorem decode_insert (hgs : ∀ x ∈ gs, ∃ p, Field IsPart x p)
    (hhs : ∀ x ∈ hs, ∃ p, Field IsPart x p) (hf : IsForeign f)
    (hlt : (gs ++ f :: hs).flatten.length < 4294967296) :
    c.decode (inFrame (gs ++ f :: hs).flatten) = c.decode (inFrame (gs ++ hs).flatten) := by
  obtain ⟨ps, hps⟩ := exists_parts hgs
  obtain ⟨qs, hqs⟩ := exists_parts hhs
  have hlt' : (gs ++ hs).flatten.length < 4294967296 := by
    simp only [List.flatten_append, List.flatten_cons, List.length_append] at hlt ⊢
    omega
  rw [decode_fields c (List.rel_append hps (.cons hf.field hqs)) hlt,
    decode_fields c (List.rel_append hps hqs) hlt', Wire.Envelope.ofParts_other]

theorem decode_swap (hgs : ∀ x ∈ gs, ∃ p, Field IsPart x p) (hhs : ∀ x ∈ hs, ∃ p, Field IsPart x p)
    (h : Unrelated f g) (hlt : (gs ++ f :: g :: hs).flatten.length < 4294967296) :
    c.decode (inFrame (gs ++ g :: f :: hs).flatten) =
      c.decode (inFrame (gs ++ f :: g :: hs).flatten) := by
  obtain ⟨ps, hps⟩ := exists_parts hgs
  obtain ⟨qs, hqs⟩ := exists_parts hhs
  obtain ⟨p, q, hp, hq, hcomm⟩ := h.exists_parts
  have hlt' : (gs ++ g :: f :: hs).flatten.length < 4294967296 := by
    simp only [List.flatten_append, List.flatten_cons, List.length_append] at hlt ⊢
    omega
  rw [decode_fields c (List.rel_append hps (.cons hq (.cons hp hqs))) hlt',
    decode_fields c (List.rel_append hps (.cons hp (.cons hq hqs))) hlt,
    Wire.Envelope.ofParts_swap hcomm]

end

/-- A body that is accepted in its frame is a list of fields, and this can be changed without a
change of the message. Between any two of the fields, in front and behind, a field may be put that
envelopes do not have, as long as the frame can tell the length, and two neighbours may change
places that have different numbers or are headers of different names. -/
theorem decode_rearranged {c : Codec} {body : Bytes} {m : Message}
    (h : c.decode (inFrame body) = .ok m) :
    (∃ fs : List Bytes, (∀ f ∈ fs, ∃ p, Field IsPart f p) ∧ body = fs.flatten) ∧
      ∀ fs : List Bytes, (∀ f ∈ fs, ∃ p, Field IsPart f p) → body = fs.flatten →
        (∀ gs hs f, fs = gs ++ hs → IsForeign f →
          (gs ++ f :: hs).flatten.length < 4294967296 →
            c.decode (inFrame (gs ++ f :: hs).flatten) = .ok m) ∧
        ∀ gs hs f g, fs = gs ++ f :: g :: hs → Unrelated f g →
          c.decode (inFrame (gs ++ g :: f :: hs).flatten) = .ok m := by
  obtain ⟨fs, parts, hframed, hparts, -⟩ := exists_fields h
  have hbody := hframed.eq_of_inFrame
  refine ⟨⟨fs, field_of_forall₂ hparts, hbody.symm⟩, ?_⟩
  rintro fs' hfs rfl
  have hlt : fs'.flatten.length < 4294967296 := hbody ▸ hframed.length_lt
  refine ⟨?_, ?_⟩
  · rintro gs hs f rfl hf hlt'
    rw [decode_insert (fun x hx => hfs x (by simp [hx])) (fun x hx => hfs x (by simp [hx])) hf hlt']
    exact h
  · rintro gs hs f g rfl hfg
    rw [decode_swap (fun x hx => hfs x (by simp [hx])) (fun x hx => hfs x (by simp [hx])) hfg hlt]
    exact h

/-- A nested group in front of a stored message. -/
theorem decode_rearranged_group :
    let m : Message := ⟨plainSpace, -1, Headers.ofList [("a", "1"), ("b", "")], [0]⟩
    let body := (envelope m).write
    let group : Bytes := [43, 51, 56, 128, 0, 52, 44]
    standard.decode (inFrame body) = .ok m ∧ IsForeign group ∧
      standard.decode (inFrame (group ++ body)) = .ok m := by
  have hsize :
      (envelope ⟨plainSpace, -1, Headers.ofList [("a", "1"), ("b", "")], [0]⟩).size < 100 := by
    decide
  intro m body group
  change (envelope m).size < 100 at hsize
  have hlength : body.length = (envelope m).size := Wire.Envelope.length_write _
  have hbody : standard.decode (inFrame body) = .ok m := by
    have hframe : inFrame body = frame m := by rw [inFrame, hlength, frame]
    rw [hframe]
    exact standard.decode_frame (by omega)
  have hgroup : IsForeign group := by
    have hzero : Wire.Varint.Spells [128, 0] 0 :=
      ⟨.more (by decide) (.last (by decide)), by decide, by decide⟩
    have hinner : Wire.IsValue 99 ⟨6, .groupStart⟩ [56, 128, 0, 52] :=
      @Wire.Members.field _ 6 [56] [128, 0] [52] ⟨7, .varint⟩
        (Wire.FieldKey.spells_single (by decide) rfl (by decide)) ⟨0, hzero⟩
        (.close (Wire.FieldKey.spells_single (by decide) rfl (by decide)))
    refine ⟨⟨5, .groupStart⟩, [43], [51, 56, 128, 0, 52, 44], by decide,
      Wire.FieldKey.spells_single (by decide) rfl (by decide), ?_, rfl⟩
    exact @Wire.Members.field _ 5 [51] [56, 128, 0, 52] [44] ⟨6, .groupStart⟩
      (Wire.FieldKey.spells_single (by decide) rfl (by decide)) hinner
      (.close (Wire.FieldKey.spells_single (by decide) rfl (by decide)))
  obtain ⟨⟨fs, hfs, hflatten⟩, hinsert⟩ := decode_rearranged hbody
  have hfront := (hinsert fs hfs hflatten).1 [] fs group rfl hgroup
  rw [List.nil_append, List.flatten_cons, ← hflatten] at hfront
  refine ⟨hbody, hgroup, hfront ?_⟩
  rw [List.length_append, hlength]
  show 7 + _ < _
  omega

/-- What is left without a field that is no identifier is accepted under the same identifier. -/
theorem decode_without (c : Codec) {parts : List Part} {gs hs : List Bytes} {f : Bytes} {id : Uuid}
    (hparts : List.Forall₂ (Field IsPart) (gs ++ f :: hs) parts)
    (hid : Uuid.ofText? (idText parts) = some id)
    (hlt : (gs ++ f :: hs).flatten.length < 4294967296) (hf : ∀ s, ¬ Field IsPart f (.id s)) :
    ∃ m, c.decode (inFrame (gs ++ hs).flatten) = .ok m ∧ m.id = id := by
  have hfields := field_of_forall₂ hparts
  obtain ⟨ps, hps⟩ := exists_parts fun x hx => hfields x (List.mem_append_left _ hx)
  obtain ⟨p, hp⟩ := hfields f (by simp)
  obtain ⟨qs, hqs⟩ := exists_parts fun x (hx : x ∈ hs) => hfields x (by simp [hx])
  have hsplit : parts = ps ++ p :: qs :=
    Wire.Envelope.fields_unique (Wire.row_iff_flatten.2 ⟨_, hparts, rfl⟩)
      (Wire.row_iff_flatten.2 ⟨_, List.rel_append hps (.cons hp hqs), rfl⟩)
  have hsilent : p.id? = none := by
    refine Option.eq_none_iff_forall_ne_some.2 fun s hs => hf s ?_
    rwa [(Part.id?_eq_some_iff p s).1 hs] at hp
  have hsame : idText (ps ++ qs) = idText parts := by
    rw [hsplit, idText, idText, Wire.last?_silent hsilent]
  have hlt' : (gs ++ hs).flatten.length < 4294967296 := by
    simp only [List.flatten_append, List.flatten_cons, List.length_append] at hlt ⊢
    omega
  rw [decode_fields c (List.rel_append hps hqs) hlt']
  have hid' : Uuid.ofText? (ofParts (ps ++ qs)).id = some id := by
    rw [(Wire.Envelope.says_ofParts _).id, hsame, hid]
  exact ⟨⟨id, _, _, _⟩, ofEnvelope_eq_ok_iff.2 ⟨hid', rfl, rfl, rfl⟩, rfl⟩

/-- An accepted body has an identifier; it may do without a timestamp, which is then 0, and without
a payload, which is then empty. For any field that is no identifier can be left out, and what is
left is accepted again, under the same identifier. -/
theorem decode_only_needs_id {c : Codec} {b : Bytes} {m : Message} (h : c.decode b = .ok m) :
    ∃ fs parts, Framed b fs.flatten ∧ List.Forall₂ (Field IsPart) fs parts ∧
      (∃ s, .id s ∈ parts) ∧
      (.timestamp m.timestamp ∈ parts ∨ (∀ t, .timestamp t ∉ parts) ∧ m.timestamp = 0) ∧
      (.payload m.payload ∈ parts ∨ (∀ v, .payload v ∉ parts) ∧ m.payload = []) ∧
      ∀ gs f hs, fs = gs ++ f :: hs → (∀ s, ¬ Field IsPart f (.id s)) →
        ∃ m', c.decode (inFrame (gs ++ hs).flatten) = .ok m' ∧ m'.id = m.id := by
  obtain ⟨fs, parts, hframed, hparts, hsays⟩ := exists_fields h
  refine ⟨fs, parts, hframed, hparts, ?_, ?_, ?_, ?_⟩
  · rcases Wire.last?_cases Part.id?_eq_some_iff parts with ⟨s, -, hs⟩ | ⟨hnone, -⟩
    · exact ⟨s, hs⟩
    · -- the empty text spells no identifier
      have hid := hsays.id
      rw [idText, hnone] at hid
      cases hid
  · have ht := hsays.timestamp
    rcases Wire.last?_cases Part.timestamp?_eq_some_iff parts with ⟨t, hlast, hmem⟩ | ⟨hlast, hno⟩
    · rw [hlast, Option.getD_some] at ht
      exact .inl (ht ▸ hmem)
    · rw [hlast, Option.getD_none] at ht
      exact .inr ⟨hno, ht⟩
  · have hp := hsays.payload
    rcases Wire.last?_cases Part.payload?_eq_some_iff parts with ⟨v, hlast, hmem⟩ | ⟨hlast, hno⟩
    · rw [hlast, Option.getD_some] at hp
      exact .inl (hp ▸ hmem)
    · rw [hlast, Option.getD_none] at hp
      exact .inr ⟨hno, hp⟩
  · rintro gs f hs rfl hf
    exact decode_without c hparts hsays.id hframed.length_lt hf

/-- A stored message with all its fields. -/
theorem decode_only_needs_id_stored :
    let m : Message := ⟨plainSpace, 7, Headers.ofList [("a", "1")], []⟩
    standard.decode (frame m) = .ok m ∧
      ∃ fs parts, Framed (frame m) fs.flatten ∧ List.Forall₂ (Field IsPart) fs parts ∧
        (∃ s, .id s ∈ parts) ∧
        (.timestamp m.timestamp ∈ parts ∨ (∀ t, .timestamp t ∉ parts) ∧ m.timestamp = 0) ∧
        (.payload m.payload ∈ parts ∨ (∀ v, .payload v ∉ parts) ∧ m.payload = []) ∧
        ∀ gs f hs, fs = gs ++ f :: hs → (∀ s, ¬ Field IsPart f (.id s)) →
          ∃ m', standard.decode (inFrame (gs ++ hs).flatten) = .ok m' ∧ m'.id = m.id := by
  have hsize : (envelope ⟨plainSpace, 7, Headers.ofList [("a", "1")], []⟩).size < 4294967296 := by
    decide
  intro m
  have hm : standard.decode (frame m) = .ok m := standard.decode_frame hsize
  exact ⟨hm, decode_only_needs_id hm⟩

/-- A body of an identifier alone is accepted: a partly decoded message, whose timestamp and payload
nothing has said. -/
theorem decode_identifier_alone :
    let text := "3f1c5e8a-2764-5b0d-9e41-a27c10d36b58"
    let body : Bytes := 10 :: 36 :: Bytes.ofText text
    let b : Bytes := 1 :: 0 :: 0 :: 0 :: 38 :: body
    standard.decode b = .ok ⟨plainSpace, 0, .empty, []⟩ ∧ Framed b body ∧
      ∀ parts, Fields IsPart body parts →
        (∀ t, .timestamp t ∉ parts) ∧ ∀ v, .payload v ∉ parts := by
  intro text body b
  have hlength : (Bytes.ofText text).length = 36 := by rfl
  have hframed : Framed b body := ⟨0, 0, 0, 38, rfl, by simp [body, hlength]⟩
  have hfield : Field IsPart body (.id text) := by
    refine ⟨⟨1, .delimited⟩, [10], 36 :: Bytes.ofText text,
      Wire.FieldKey.spells_single (by decide) rfl (by decide), .id ⟨[36], ?_, rfl⟩, rfl⟩
    rw [hlength]
    exact ⟨.last (by decide), by decide, by decide⟩
  have hrow : Fields IsPart body [.id text] := by
    simpa using Wire.Row.cons hfield .nil
  refine ⟨?_, hframed, fun parts hparts => ?_⟩
  · have htext : text = plainSpace.text := by rfl
    rw [decode_of_framed _ hframed, decodeBody_of_fields hrow, ofEnvelope_eq_ok_iff]
    refine ⟨?_, rfl, rfl, rfl⟩
    show Uuid.ofText? text = some plainSpace
    rw [htext, Uuid.ofText?_text]
  · rw [Wire.Envelope.fields_unique hparts hrow]
    simp

end Codec

end MessageDepot
