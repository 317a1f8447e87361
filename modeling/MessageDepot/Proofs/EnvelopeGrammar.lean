import MessageDepot.Codec
import MessageDepot.Proofs.WireGrammar

/-!
# What stored bytes are accepted, and what they say

The format of an entry and of an envelope, and what a row of their parts says, told without the
readers: for each thing the last part that speaks of it, or what stands for nothing. The readers
go through the parts one by one and write each over the ones before it, which comes to the same
(`view_foldl`).

Results:
* `Entry.read?_eq_some_iff`, `Envelope.parts?_eq_some_iff`: exactly the bytes of the format are
  read, and as the parts they are made of.
* `Envelope.says_ofParts`: an envelope is what the last of its parts say.
* `Codec.decode_iff_format`: stored bytes are accepted exactly when a frame fits them, its body is
  an envelope and the last identifier in it spells one, and which error else tells why not.
-/
namespace MessageDepot

namespace Wire

/-! ## The last part -/

section Last

variable {α β σ : Type}

/-- The last value that parts give. -/
def last? (f : α → Option β) (parts : List α) : Option β := (parts.filterMap f).getLast?

theorem last?_cons (f : α → Option β) (a : α) (parts : List α) :
    last? f (a :: parts) = (last? f parts).or (f a) := by
  unfold last?
  cases h : f a with
  | none => rw [List.filterMap_cons_none h, Option.or_none]
  | some b =>
    rw [List.filterMap_cons_some h, List.getLast?_cons, Option.or_some]

/-- What is seen of a state that each part may write over is what the last of them wrote. -/
theorem view_foldl {f : α → Option β} {add : σ → α → σ} (view : σ → Option β)
    (h : ∀ s a, view (add s a) = (f a).or (view s)) (parts : List α) (s : σ) :
    view (parts.foldl add s) = (last? f parts).or (view s) := by
  induction parts generalizing s with
  | nil => rfl
  | cons a parts ih => rw [List.foldl_cons, ih, h, last?_cons, Option.or_assoc]

theorem field_foldl {f : α → Option β} {add : σ → α → σ} (field : σ → β)
    (h : ∀ s a, field (add s a) = (f a).getD (field s)) (parts : List α) (s : σ) :
    field (parts.foldl add s) = (last? f parts).getD (field s) := by
  have hadd (s : σ) (a : α) : some (field (add s a)) = (f a).or (some (field s)) := by
    rw [h, Option.or_some]
  have hlast := view_foldl (fun s => some (field s)) hadd parts s
  simpa only [Option.or_some, Option.some.injEq] using hlast

end Last

/-! ## Entries -/

namespace Entry

def Part.name? : Part → Option String
  | .name s => some s
  | _ => none

def Part.value? : Part → Option String
  | .value s => some s
  | _ => none

/-- Bytes are the value of a field of an entry, which lies one level inside the envelope. -/
inductive IsPart : FieldKey → Bytes → Part → Prop where
  | name {v : Bytes} {s : String} :
    Delimits v (Bytes.ofText s) → IsPart ⟨1, .delimited⟩ v (.name s)
  | value {v : Bytes} {s : String} :
    Delimits v (Bytes.ofText s) → IsPart ⟨2, .delimited⟩ v (.value s)
  | other {key : FieldKey} {v : Bytes} :
    key.number ∉ [1, 2] → IsValue (depthLimit - 1) key v → IsPart key v .other

/-- Bytes are an entry of a name and a value. -/
def Spells (b : Bytes) (name value : String) : Prop :=
  ∃ parts, Fields IsPart b parts ∧ (last? Part.name? parts).getD "" = name ∧
    (last? Part.value? parts).getD "" = value

/-- The reader of the value that follows a key. -/
def readValue? (key : FieldKey) (b : Bytes) : Option (Part × Bytes) :=
  if key.number = 1 then
    if key.type = .delimited then (readText? b).map fun (s, r) => (.name s, r) else none
  else if key.number = 2 then
    if key.type = .delimited then (readText? b).map fun (s, r) => (.value s, r) else none
  else (skipValue? (depthLimit - 1) key b).map fun r => (.other, r)

theorem accepts_readValue? (key : FieldKey) : Accepts (readValue? key) (IsPart key) := by
  obtain ⟨number, type⟩ := key
  by_cases h1 : number = 1
  · subst h1
    refine ((accepts_readText?.map Part.name).guarded (type = .delimited)).congr (fun b => rfl)
      fun b p => ⟨fun h => ?_, fun ⟨ht, s, h, hp⟩ => ht ▸ hp ▸ .name h⟩
    cases h with
    | name h => exact ⟨rfl, _, h, rfl⟩
    | other h => simp at h
  by_cases h2 : number = 2
  · subst h2
    refine ((accepts_readText?.map Part.value).guarded (type = .delimited)).congr (fun b => rfl)
      fun b p => ⟨fun h => ?_, fun ⟨ht, s, h, hp⟩ => ht ▸ hp ▸ .value h⟩
    cases h with
    | value h => exact ⟨rfl, _, h, rfl⟩
    | other h => simp at h
  refine ((passes_skipValue? (depthLimit - 1) ⟨number, type⟩).accepts Part.other).congr
    (fun b => by simp [readValue?, h1, h2])
    fun b p => ⟨fun h => ?_, fun ⟨h, hp⟩ => hp ▸ .other (by simp [h1, h2]) h⟩
  cases h with
  | name => exact absurd rfl h1
  | value => exact absurd rfl h2
  | other _ h => exact ⟨h, rfl⟩

theorem accepts_readPart? : Accepts readPart? (Field IsPart) :=
  FieldKey.accepts_read?.after accepts_readValue? (fun b h => by rw [readPart?, h])
    fun b key rest h => by rw [readPart?, h]; rfl

theorem ofParts_eq (parts : List Part) :
    ofParts parts = ((last? Part.name? parts).getD "", (last? Part.value? parts).getD "") :=
  Prod.ext (field_foldl Prod.fst (fun _ p => by cases p <;> rfl) parts ("", ""))
    (field_foldl Prod.snd (fun _ p => by cases p <;> rfl) parts ("", ""))

theorem read?_eq_some_iff {b : Bytes} {name value : String} :
    read? b = some (name, value) ↔ Spells b name value := by
  simp only [read?, Option.map_eq_some_iff, ofParts_eq, Prod.mk.injEq, Spells,
    readAll?_eq_some_iff accepts_readPart? Field.ne_nil]

end Entry

/-! ## Envelopes -/

namespace Envelope

def Part.id? : Part → Option String
  | .id s => some s
  | _ => none

def Part.timestamp? : Part → Option Int64
  | .timestamp t => some t
  | _ => none

/-- The value of an entry of this name. -/
def Part.header? (name : String) : Part → Option String
  | .header n v => if n = name then some v else none
  | _ => none

def Part.payload? : Part → Option Bytes
  | .payload b => some b
  | _ => none

/-- Bytes are the value of a field of an envelope. Every number of a timestamp is the two's
complement of one, and a header's key may be of any wire type. -/
inductive IsPart : FieldKey → Bytes → Part → Prop where
  | id {v : Bytes} {s : String} :
    Delimits v (Bytes.ofText s) → IsPart ⟨1, .delimited⟩ v (.id s)
  | timestamp {v : Bytes} {t : Int64} :
    Varint.Spells v (timestampBits t) → IsPart ⟨2, .varint⟩ v (.timestamp t)
  | header {type : WireType} {v entry : Bytes} {name value : String} :
    Delimits v entry → Entry.Spells entry name value → IsPart ⟨3, type⟩ v (.header name value)
  | payload {v b : Bytes} : Delimits v b → IsPart ⟨4, .delimited⟩ v (.payload b)
  | other {key : FieldKey} {v : Bytes} :
    key.number ∉ [1, 2, 3, 4] → IsValue depthLimit key v → IsPart key v .other

/-- The text of the last identifier, and the empty text where there is none. -/
def idText (parts : List Part) : String := (last? Part.id? parts).getD ""

/-- An envelope is what the last of its parts say, with 0 for a timestamp and no bytes for a
payload where there is none. -/
structure Says (parts : List Part) (e : Envelope) : Prop where
  id : e.id = idText parts
  timestamp : e.timestamp = (last? Part.timestamp? parts).getD 0
  header : ∀ name, e.headers.get? name = last? (Part.header? name) parts
  payload : e.payload = (last? Part.payload? parts).getD []

/-- The reader of the value that follows a key. -/
def readValue? (key : FieldKey) (b : Bytes) : Option (Part × Bytes) :=
  if key.number = 1 then
    if key.type = .delimited then (readText? b).map fun (s, r) => (.id s, r) else none
  else if key.number = 2 then
    if key.type = .varint then
      (Varint.read? b).map fun (n, r) => (.timestamp (UInt64.ofNat n).toInt64, r)
    else none
  else if key.number = 3 then
    match readDelimited? b with
    | none => none
    | some (v, rest) => (Entry.read? v).map fun (n, v) => (.header n v, rest)
  else if key.number = 4 then
    if key.type = .delimited then (readDelimited? b).map fun (v, r) => (.payload v, r) else none
  else (skipValue? depthLimit key b).map fun r => (.other, r)

/-- The numbers of a timestamp are those of 64 bits. -/
theorem spells_timestamp {v : Bytes} {t : Int64} :
    Varint.Spells v (timestampBits t) ↔ ∃ n, Varint.Spells v n ∧ (UInt64.ofNat n).toInt64 = t := by
  constructor
  · intro h
    exact ⟨_, h, by rw [timestampBits, UInt64.ofNat_toNat, Int64.toInt64_toUInt64]⟩
  · rintro ⟨n, h, rfl⟩
    have hn : timestampBits (UInt64.ofNat n).toInt64 = n := by
      rw [timestampBits, UInt64.toUInt64_toInt64, UInt64.toNat_ofNat_of_lt' h.lt]
    rwa [hn]

theorem accepts_readValue? (key : FieldKey) : Accepts (readValue? key) (IsPart key) := by
  obtain ⟨number, type⟩ := key
  by_cases h1 : number = 1
  · subst h1
    refine ((accepts_readText?.map Part.id).guarded (type = .delimited)).congr (fun b => rfl)
      fun b p => ⟨fun h => ?_, fun ⟨ht, s, h, hp⟩ => ht ▸ hp ▸ .id h⟩
    cases h with
    | id h => exact ⟨rfl, _, h, rfl⟩
    | other h => simp at h
  by_cases h2 : number = 2
  · subst h2
    refine ((Varint.accepts_read?.map fun n => Part.timestamp (UInt64.ofNat n).toInt64).guarded
      (type = .varint)).congr (fun b => rfl) fun b p => ⟨fun h => ?_, fun ⟨ht, n, h, hp⟩ => ?_⟩
    · cases h with
      | timestamp h =>
        obtain ⟨n, hn, rfl⟩ := spells_timestamp.1 h
        exact ⟨rfl, n, hn, rfl⟩
      | other h => simp at h
    · exact ht ▸ hp ▸ .timestamp (spells_timestamp.2 ⟨n, h, rfl⟩)
  by_cases h3 : number = 3
  · subst h3
    refine (accepts_readDelimited?.filterMap fun v =>
      (Entry.read? v).map fun e => Part.header e.1 e.2).congr (fun b => ?_) fun b p => ⟨fun h => ?_,
        fun ⟨v, h, hp⟩ => ?_⟩
    · cases h : readDelimited? b with
      | none => simp [readValue?, h]
      | some p => cases he : Entry.read? p.1 <;> simp [readValue?, h, he]
    · cases h with
      | header hv he => exact ⟨_, hv, by rw [Entry.read?_eq_some_iff.2 he]; rfl⟩
      | other h => simp at h
    · obtain ⟨⟨n, w⟩, he, rfl⟩ := Option.map_eq_some_iff.1 hp
      exact .header h (Entry.read?_eq_some_iff.1 he)
  by_cases h4 : number = 4
  · subst h4
    refine ((accepts_readDelimited?.map Part.payload).guarded (type = .delimited)).congr
      (fun b => rfl) fun b p => ⟨fun h => ?_, fun ⟨ht, v, h, hp⟩ => ht ▸ hp ▸ .payload h⟩
    cases h with
    | payload h => exact ⟨rfl, _, h, rfl⟩
    | other h => simp at h
  refine ((passes_skipValue? depthLimit ⟨number, type⟩).accepts Part.other).congr
    (fun b => by simp [readValue?, h1, h2, h3, h4])
    fun b p => ⟨fun h => ?_, fun ⟨h, hp⟩ => hp ▸ .other (by simp [h1, h2, h3, h4]) h⟩
  cases h with
  | id => exact absurd rfl h1
  | timestamp => exact absurd rfl h2
  | header => exact absurd rfl h3
  | payload => exact absurd rfl h4
  | other _ h => exact ⟨h, rfl⟩

theorem accepts_readPart? : Accepts readPart? (Field IsPart) :=
  FieldKey.accepts_read?.after accepts_readValue? (fun b h => by rw [readPart?, h])
    fun b key rest h => by rw [readPart?, h]; rfl

theorem parts?_eq_some_iff {b : Bytes} {parts : List Part} :
    parts? b = some parts ↔ Fields IsPart b parts :=
  readAll?_eq_some_iff accepts_readPart? Field.ne_nil

theorem view_addPart_header (name : String) (e : Envelope) (p : Part) :
    (e.addPart p).headers.get? name = (p.header? name).or (e.headers.get? name) := by
  cases p with
  | header n v =>
    simp only [addPart, Headers.get?_insert, Part.header?, eq_comm (a := name)]
    by_cases hn : n = name <;> simp [hn]
  | _ => rfl

theorem says_ofParts (parts : List Part) : Says parts (ofParts parts) where
  id := field_foldl Envelope.id (fun _ p => by cases p <;> rfl) parts _
  timestamp := field_foldl Envelope.timestamp (fun _ p => by cases p <;> rfl) parts _
  header name := by
    have h := view_foldl (fun e : Envelope => e.headers.get? name) (view_addPart_header name) parts
      ⟨"", 0, .empty, []⟩
    exact h.trans (Option.or_none ..)
  payload := field_foldl Envelope.payload (fun _ p => by cases p <;> rfl) parts _

/-- An envelope is made of its fields in one way only. -/
theorem fields_unique {b : Bytes} {parts parts' : List Part} (h : Fields IsPart b parts)
    (h' : Fields IsPart b parts') : parts = parts' :=
  Option.some.inj ((parts?_eq_some_iff.2 h).symm.trans (parts?_eq_some_iff.2 h'))

end Envelope

end Wire

/-! ## Stored messages -/

namespace Codec

open Wire (Fields Row last?)
open Wire.Envelope (Part IsPart idText)

/-- Bytes are the frame of a body: version 1, the length of the body in four bytes, highest
first, and the body. -/
def Framed (b body : Bytes) : Prop :=
  ∃ w x y z : UInt8, b = 1 :: w :: x :: y :: z :: body ∧
    ((w.toNat * 256 + x.toNat) * 256 + y.toNat) * 256 + z.toNat = body.length

/-- A message is what the last of an envelope's parts say. -/
structure Says (parts : List Part) (m : Message) : Prop where
  id : Uuid.ofText? (idText parts) = some m.id
  timestamp : m.timestamp = (last? Part.timestamp? parts).getD 0
  header : ∀ name, m.header? name = last? (Part.header? name) parts
  payload : m.payload = (last? Part.payload? parts).getD []

theorem decode_of_framed (c : Codec) {b body : Bytes} (h : Framed b body) :
    c.decode b = decodeBody body := by
  obtain ⟨w, x, y, z, rfl, hl⟩ := h
  rw [decode, if_neg (by decide)]
  simp only [hl, Nat.lt_irrefl, if_false]

theorem exists_framed {c : Codec} {b : Bytes} {m : Message} (h : c.decode b = .ok m) :
    ∃ body, Framed b body := by
  unfold decode at h
  split at h
  · rename_i version w x y z body
    split at h
    · cases h
    · rename_i hv
      simp only at h
      split at h
      · cases h
      · split at h
        · cases h
        · have hv : version = 1 := Decidable.not_not.1 hv
          subst hv
          exact ⟨body, w, x, y, z, rfl, by omega⟩
  · cases h

theorem decodeBody_of_fields {body : Bytes} {parts : List Part} (h : Fields IsPart body parts) :
    decodeBody body = ofEnvelope (Wire.Envelope.ofParts parts) := by
  rw [decodeBody, Wire.Envelope.read?, Wire.Envelope.parts?_eq_some_iff.2 h]
  rfl

theorem decodeBody_of_not_fields {body : Bytes} (h : ¬ ∃ parts, Fields IsPart body parts) :
    decodeBody body = .error .malformed := by
  have hn : Wire.Envelope.parts? body = none :=
    Option.eq_none_iff_forall_not_mem.2 fun parts hp =>
      h ⟨parts, Wire.Envelope.parts?_eq_some_iff.1 hp⟩
  rw [decodeBody, Wire.Envelope.read?, hn]
  rfl

theorem ofEnvelope_eq_ok_iff {e : Wire.Envelope} {m : Message} :
    ofEnvelope e = .ok m ↔ Uuid.ofText? e.id = some m.id ∧ m.timestamp = e.timestamp ∧
      m.headers = e.headers ∧ m.payload = e.payload := by
  unfold ofEnvelope
  cases Uuid.ofText? e.id with
  | none => simp
  | some id =>
    obtain ⟨mid, t, hs, p⟩ := m
    simp only [Except.ok.injEq, Message.mk.injEq, Option.some.injEq, eq_comm]

theorem ofEnvelope_eq_invalidId_iff {e : Wire.Envelope} :
    ofEnvelope e = .error .invalidId ↔ Uuid.ofText? e.id = none := by
  unfold ofEnvelope
  cases Uuid.ofText? e.id <;> simp

theorem ofEnvelope_ne_malformed (e : Wire.Envelope) : ofEnvelope e ≠ .error .malformed := by
  unfold ofEnvelope
  split <;> simp

theorem decodeBody_eq_ok_iff {body : Bytes} {m : Message} :
    decodeBody body = .ok m ↔ ∃ parts, Fields IsPart body parts ∧ Says parts m := by
  by_cases hb : ∃ parts, Fields IsPart body parts
  · obtain ⟨parts, hp⟩ := hb
    have he := Wire.Envelope.says_ofParts parts
    rw [decodeBody_of_fields hp, ofEnvelope_eq_ok_iff, he.id]
    constructor
    · rintro ⟨hid, ht, hh, hpl⟩
      exact ⟨parts, hp, hid, ht.trans he.timestamp, fun name => by rw [← he.header, ← hh]; rfl,
        hpl.trans he.payload⟩
    · rintro ⟨parts', hp', hm⟩
      obtain rfl := Wire.Envelope.fields_unique hp hp'
      exact ⟨hm.id, hm.timestamp.trans he.timestamp.symm,
        Headers.ext_get? fun name => (hm.header name).trans (he.header name).symm,
        hm.payload.trans he.payload.symm⟩
  · rw [decodeBody_of_not_fields hb]
    exact ⟨fun h => (by cases h), fun ⟨parts, hp, _⟩ => absurd ⟨parts, hp⟩ hb⟩

theorem decodeBody_eq_malformed_iff {body : Bytes} :
    decodeBody body = .error .malformed ↔ ¬ ∃ parts, Fields IsPart body parts := by
  refine ⟨fun h ⟨parts, hp⟩ => ?_, decodeBody_of_not_fields⟩
  rw [decodeBody_of_fields hp] at h
  exact ofEnvelope_ne_malformed _ h

theorem decodeBody_eq_invalidId_iff {body : Bytes} :
    decodeBody body = .error .invalidId ↔
      ∃ parts, Fields IsPart body parts ∧ Uuid.ofText? (idText parts) = none := by
  constructor
  · intro h
    by_cases hb : ∃ parts, Fields IsPart body parts
    · obtain ⟨parts, hp⟩ := hb
      rw [decodeBody_of_fields hp, ofEnvelope_eq_invalidId_iff,
        (Wire.Envelope.says_ofParts parts).id] at h
      exact ⟨parts, hp, h⟩
    · rw [decodeBody_of_not_fields hb] at h
      cases h
  · rintro ⟨parts, hp, hid⟩
    rw [decodeBody_of_fields hp, ofEnvelope_eq_invalidId_iff,
      (Wire.Envelope.says_ofParts parts).id, hid]

/-- Stored bytes are read as a message exactly when they are the frame of a body that is a row of
fields of an envelope, and the message is what the last of them say, its identifier spelled in any
of the ways of an identifier. Where a frame fits, a body that is no such row is malformed, and one
whose last identifier is not spelled so has an invalid identifier. -/
theorem decode_iff_format (c : Codec) (b : Bytes) :
    (∀ m, c.decode b = .ok m ↔
      ∃ body parts, Framed b body ∧ Fields IsPart body parts ∧ Says parts m) ∧
    ∀ body, Framed b body →
      (c.decode b = .error .malformed ↔ ¬ ∃ parts, Fields IsPart body parts) ∧
      (c.decode b = .error .invalidId ↔
        ∃ parts, Fields IsPart body parts ∧ Uuid.ofText? (idText parts) = none) := by
  constructor
  · intro m
    constructor
    · intro h
      obtain ⟨body, hf⟩ := exists_framed h
      rw [decode_of_framed c hf, decodeBody_eq_ok_iff] at h
      obtain ⟨parts, hp, hm⟩ := h
      exact ⟨body, parts, hf, hp, hm⟩
    · rintro ⟨body, parts, hf, hp, hm⟩
      rw [decode_of_framed c hf, decodeBody_eq_ok_iff]
      exact ⟨parts, hp, hm⟩
  · intro body hf
    rw [decode_of_framed c hf]
    exact ⟨decodeBody_eq_malformed_iff, decodeBody_eq_invalidId_iff⟩

/-- A body of one unknown group, with a number of more bytes than it needs in it, is an envelope
that lacks an identifier. -/
theorem decode_iff_format_group :
    Framed [1, 0, 0, 0, 5, 43, 56, 128, 0, 44] [43, 56, 128, 0, 44] ∧
      standard.decode [1, 0, 0, 0, 5, 43, 56, 128, 0, 44] = .error .invalidId := by
  have hf : Framed [1, 0, 0, 0, 5, 43, 56, 128, 0, 44] [43, 56, 128, 0, 44] :=
    ⟨0, 0, 0, 5, rfl, rfl⟩
  have hstart : Wire.FieldKey.Spells [43] ⟨5, .groupStart⟩ :=
    ⟨⟨.last (by decide), by decide, by decide⟩, by decide, by decide⟩
  have hkey : Wire.FieldKey.Spells [56] ⟨7, .varint⟩ :=
    ⟨⟨.last (by decide), by decide, by decide⟩, by decide, by decide⟩
  have hend : Wire.FieldKey.Spells [44] ⟨5, .groupEnd⟩ :=
    ⟨⟨.last (by decide), by decide, by decide⟩, by decide, by decide⟩
  have hzero : Wire.Varint.Spells [128, 0] 0 :=
    ⟨.more (by decide) (.last (by decide)), by decide, by decide⟩
  have hgroup : Wire.IsValue Wire.depthLimit ⟨5, .groupStart⟩ [56, 128, 0, 44] :=
    @Wire.Members.field _ 5 [56] [128, 0] [44] _ hkey ⟨0, hzero⟩ (.close hend)
  have hbody : Fields IsPart [43, 56, 128, 0, 44] [.other] :=
    @Row.cons _ _ [43, 56, 128, 0, 44] [] _ _
      ⟨_, [43], [56, 128, 0, 44], hstart, .other (by decide) hgroup, rfl⟩ .nil
  exact ⟨hf, (((decode_iff_format standard _).2 _ hf).2).2 ⟨_, hbody, by rfl⟩⟩

end Codec

end MessageDepot
