import Mathlib.Data.List.Forall2
import MessageDepot.Wire.Envelope

/-!
# Envelopes are read back as they were written

A record is written as a row of chunks, one for each field. `Reads read b a` says that a reader
takes the chunk `b` for `a` and stops where the chunk ends, whatever follows; a row of such
chunks is read as the row of their values (`readAll?_flatten`). An entry leaves out its empty
texts, so its row has two chunks, one or none. The entries of a header map come in the order of
their names, and so each is put behind the ones before it (`insertEntry_last`).

Results:
* `Headers.insertAll_entries`: a map is built again from its entries.
* `Entry.read?_write`: an entry is read back, also when its name or value is empty.
* `Envelope.read?_write`: an envelope shorter than 2^64 bytes is read back.
-/
namespace MessageDepot

namespace Headers

theorem insertEntry_last {name : String} (value : String) {es : List (String × String)}
    (h : ∀ e ∈ es, e.1 < name) : insertEntry name value es = es ++ [(name, value)] := by
  induction es with
  | nil => rfl
  | cons x xs ih =>
    obtain ⟨n, v⟩ := x
    have hn : n < name := h (n, v) (by simp)
    have h1 : ¬ name < n := fun lt => String.lt_irrefl _ (String.lt_trans lt hn)
    have h2 : name ≠ n := fun e => String.lt_irrefl _ (e ▸ hn)
    rw [insertEntry, if_neg h1, if_neg h2, ih fun e he => h e (by simp [he])]
    rfl

/-- Entries whose names come after all names of a map are appended to it. -/
theorem entries_insertAll {es : List (String × String)} : ∀ {h : Headers},
    (h.entries ++ es).Pairwise (fun a b => a.1 < b.1) →
      (h.insertAll es).entries = h.entries ++ es := by
  induction es with
  | nil => intro h _; simp [insertAll]
  | cons x xs ih =>
    intro h hp
    have hx : ∀ e ∈ h.entries, e.1 < x.1 := fun e he =>
      (List.pairwise_append.1 hp).2.2 e he x (by simp)
    have hi : (h.insert x.1 x.2).entries = h.entries ++ [x] := insertEntry_last x.2 hx
    have := ih (h := h.insert x.1 x.2) (by rw [hi]; simpa using hp)
    rw [hi] at this
    simpa [insertAll] using this

theorem insertAll_entries (h : Headers) : empty.insertAll h.entries = h := by
  have he : (empty.insertAll h.entries).entries = empty.entries ++ h.entries :=
    entries_insertAll (by simpa [empty] using h.ascending)
  cases hi : empty.insertAll h.entries
  cases h
  rw [hi] at he
  simpa [empty] using he

end Headers

namespace Wire

/-! ## Rows of chunks -/

/-- The reader takes exactly the chunk for the value, whatever follows. -/
def Reads {α : Type} (read : Bytes → Option (α × Bytes)) (b : Bytes) (a : α) : Prop :=
  b ≠ [] ∧ ∀ rest, read (b ++ rest) = some (a, rest)

theorem readRun?_flatten {α : Type} {read : Bytes → Option (α × Bytes)} {bs : List Bytes}
    {as : List α} (h : List.Forall₂ (Reads read) bs as) :
    ∀ fuel, bs.flatten.length ≤ fuel → readRun? read fuel bs.flatten = some as := by
  induction h with
  | nil => intro fuel _; cases fuel <;> rfl
  | @cons b a bs as hb _ ih =>
    intro fuel hf
    obtain ⟨x, xs, rfl⟩ := List.exists_cons_of_ne_nil hb.1
    have hr := hb.2 bs.flatten
    simp only [List.flatten_cons, List.cons_append, List.length_cons, List.length_append] at hf hr ⊢
    cases fuel with
    | zero => omega
    | succ fuel =>
      have := ih fuel (by omega)
      simp only [readRun?, hr, this, Option.map_some]

theorem readAll?_flatten {α : Type} {read : Bytes → Option (α × Bytes)} {bs : List Bytes}
    {as : List α} (h : List.Forall₂ (Reads read) bs as) : readAll? read bs.flatten = some as :=
  readRun?_flatten h _ (Nat.le_refl _)

theorem readText?_write {s : String} (h : s.utf8ByteSize < 18446744073709551616) (rest : Bytes) :
    readText? (writeDelimited (Bytes.ofText s) ++ rest) = some (s, rest) := by
  rw [readText?, readDelimited?_write (by rwa [Envelope.length_ofText])]
  simp

theorem FieldKey.write_ne_nil (k : FieldKey) : k.write ≠ [] := by
  rw [FieldKey.write, Varint.write]
  split <;> simp

/-! ## Entries -/

namespace Entry

theorem reads_name {s : String} (h : s.utf8ByteSize < 18446744073709551616) :
    Reads readPart? (nameKey.write ++ writeDelimited (Bytes.ofText s)) (.name s) := by
  refine ⟨by simp [FieldKey.write_ne_nil], fun rest => ?_⟩
  rw [List.append_assoc, readPart?, FieldKey.read?_write (by decide) (by decide)]
  simp [nameKey, readText?_write h]

theorem reads_value {s : String} (h : s.utf8ByteSize < 18446744073709551616) :
    Reads readPart? (valueKey.write ++ writeDelimited (Bytes.ofText s)) (.value s) := by
  refine ⟨by simp [FieldKey.write_ne_nil], fun rest => ?_⟩
  rw [List.append_assoc, readPart?, FieldKey.read?_write (by decide) (by decide)]
  simp [valueKey, readText?_write h]

/-- What is left out stands for the empty text with which reading begins. -/
theorem read?_write {name value : String} (hn : name.utf8ByteSize < 18446744073709551616)
    (hv : value.utf8ByteSize < 18446744073709551616) :
    read? (write name value) = some (name, value) := by
  have chunks (bs : List Bytes) (parts : List Part) (h : List.Forall₂ (Reads readPart?) bs parts)
      (hw : write name value = bs.flatten) : read? (write name value) = some (ofParts parts) := by
    rw [read?, hw, readAll?_flatten h]
    rfl
  by_cases h1 : name = "" <;> by_cases h2 : value = ""
  · subst h1 h2
    exact chunks [] [] .nil rfl
  · subst h1
    exact chunks _ _ (.cons (reads_value hv) .nil) (by simp [write, writeText, h2])
  · subst h2
    exact chunks _ _ (.cons (reads_name hn) .nil) (by simp [write, writeText, h1])
  · exact chunks _ _ (.cons (reads_name hn) (.cons (reads_value hv) .nil))
      (by simp [write, writeText, h1, h2])

end Entry

/-! ## Envelopes -/

namespace Envelope

theorem timestampBits_lt (t : Int64) : timestampBits t < 18446744073709551616 := t.toUInt64.toNat_lt

theorem toInt64_timestampBits (t : Int64) : (UInt64.ofNat (timestampBits t)).toInt64 = t := by
  rw [timestampBits, UInt64.ofNat_toNat, Int64.toInt64_toUInt64]

theorem reads_id {s : String} (h : s.utf8ByteSize < 18446744073709551616) :
    Reads readPart? (idKey.write ++ writeDelimited (Bytes.ofText s)) (.id s) := by
  refine ⟨by simp [FieldKey.write_ne_nil], fun rest => ?_⟩
  rw [List.append_assoc, readPart?, FieldKey.read?_write (by decide) (by decide)]
  simp [idKey, readText?_write h]

theorem reads_timestamp (t : Int64) :
    Reads readPart? (timestampKey.write ++ Varint.write (timestampBits t)) (.timestamp t) := by
  refine ⟨by simp [FieldKey.write_ne_nil], fun rest => ?_⟩
  rw [List.append_assoc, readPart?, FieldKey.read?_write (by decide) (by decide)]
  simp only [timestampKey, Varint.read?_write (timestampBits_lt t), Option.map_some,
    toInt64_timestampBits]
  rfl

theorem reads_payload {b : Bytes} (h : b.length < 18446744073709551616) :
    Reads readPart? (payloadKey.write ++ writeDelimited b) (.payload b) := by
  refine ⟨by simp [FieldKey.write_ne_nil], fun rest => ?_⟩
  rw [List.append_assoc, readPart?, FieldKey.read?_write (by decide) (by decide)]
  simp [payloadKey, readDelimited?_write h]

theorem length_writeEntry (name value : String) :
    (Entry.write name value).length = Entry.size name value := by
  simp only [Entry.write, Entry.size, List.length_append,
    length_writeText (k := Entry.nameKey) (by decide),
    length_writeText (k := Entry.valueKey) (by decide)]

theorem textSize_ge (s : String) : s.utf8ByteSize ≤ Entry.textSize s := by
  unfold Entry.textSize delimitedSize
  split <;> omega

theorem reads_header {name value : String} (h : Entry.size name value < 18446744073709551616) :
    Reads readPart? (writeHeader name value) (.header name value) := by
  have hn := textSize_ge name
  have hv := textSize_ge value
  have hs : Entry.size name value = Entry.textSize name + Entry.textSize value := rfl
  have he : Entry.read? (Entry.write name value) = some (name, value) :=
    Entry.read?_write (by omega) (by omega)
  refine ⟨by simp [writeHeader, FieldKey.write_ne_nil], fun rest => ?_⟩
  rw [writeHeader, List.append_assoc, readPart?, FieldKey.read?_write (by decide) (by decide)]
  simp [headerKey, readDelimited?_write (b := Entry.write name value)
    (by rwa [length_writeEntry]), he]

/-- The chunks of an envelope. -/
def chunks (e : Envelope) : List Bytes :=
  (idKey.write ++ writeDelimited (Bytes.ofText e.id))
    :: (timestampKey.write ++ Varint.write (timestampBits e.timestamp))
    :: e.headers.entries.map (fun h => writeHeader h.1 h.2)
    ++ [payloadKey.write ++ writeDelimited e.payload]

/-- The parts of an envelope, in the order of its chunks. -/
def parts (e : Envelope) : List Part :=
  .id e.id :: .timestamp e.timestamp :: e.headers.entries.map (fun h => .header h.1 h.2)
    ++ [.payload e.payload]

theorem write_eq_flatten (e : Envelope) : e.write = e.chunks.flatten := by
  simp [write, chunks, List.flatMap_def]

theorem entrySize_le {e : Envelope} {h : String × String} (hm : h ∈ e.headers.entries) :
    Entry.size h.1 h.2 ≤ e.size := by
  have hc : writeHeader h.1 h.2 ∈ e.chunks := by
    simp only [chunks, List.cons_append, List.mem_cons, List.mem_append, List.mem_map]
    exact .inr (.inr (.inl ⟨h, hm, rfl⟩))
  have hl := (List.sublist_flatten_of_mem hc).length_le
  rw [← write_eq_flatten, length_write, length_writeHeader] at hl
  unfold headerSize delimitedSize at hl
  omega

theorem reads_chunks {e : Envelope} (h : e.size < 18446744073709551616) :
    List.Forall₂ (Reads readPart?) e.chunks e.parts := by
  have hid : e.id.utf8ByteSize < 18446744073709551616 := by unfold size delimitedSize at h; omega
  have hp : e.payload.length < 18446744073709551616 := by unfold size delimitedSize at h; omega
  have hh : List.Forall₂ (Reads readPart?) (e.headers.entries.map fun h => writeHeader h.1 h.2)
      (e.headers.entries.map fun h => .header h.1 h.2) := by
    rw [List.forall₂_map_left_iff, List.forall₂_map_right_iff, List.forall₂_same]
    exact fun x hx => reads_header (Nat.lt_of_le_of_lt (entrySize_le hx) h)
  exact .cons (reads_id hid) (.cons (reads_timestamp _)
    (List.rel_append hh (.cons (reads_payload hp) .nil)))

theorem foldl_addPart_headers (es : List (String × String)) : ∀ e : Envelope,
    (es.map fun h => Part.header h.1 h.2).foldl addPart e =
      { e with headers := e.headers.insertAll es } := by
  induction es with
  | nil => intro e; rfl
  | cons x xs ih =>
    intro e
    rw [List.map_cons, List.foldl_cons, ih]
    rfl

theorem ofParts_parts (e : Envelope) : ofParts e.parts = e := by
  simp only [ofParts, parts, List.cons_append, List.foldl_cons, List.foldl_append,
    foldl_addPart_headers, addPart, List.foldl_nil, Headers.insertAll_entries]

theorem read?_write {e : Envelope} (h : e.size < 18446744073709551616) :
    read? e.write = some e := by
  rw [read?, parts?, write_eq_flatten, readAll?_flatten (reads_chunks h), Option.map_some,
    ofParts_parts]

end Envelope

end Wire

end MessageDepot
