import MessageDepot.Wire.Field

/-!
# What the wire format allows

The format, told without the readers: which bytes are a number, a key, a length-delimited value,
a value that may be passed over, and a record, a row of fields one after another. A reader
*accepts* a format if it takes the chunks of that format and nothing else, and stops where its
chunk ends (`Accepts`; `Passes` for a reader that gives no value). Readers are put together from
smaller ones, and so are these facts about them: `Accepts.after` for one reader after another,
`Accepts.map` for a change of the value read.

Results:
* `Varint.accepts_read?`: a number has at most ten bytes and 64 bits, in any number of bytes.
* `passes_skipValue?`: what is passed over, groups included, within a number of levels.
* `readAll?_eq_some_iff`: bytes are read to their end exactly when they are a row of chunks.
-/
namespace MessageDepot.Wire

/-! ## Readers and their formats -/

section Formats

variable {α β : Type}

/-- The reader reads `a` and leaves `rest` exactly when a chunk for `a` stands before `rest`. -/
def Accepts (read : Bytes → Option (α × Bytes)) (format : Bytes → α → Prop) : Prop :=
  ∀ b a rest, read b = some (a, rest) ↔ ∃ chunk, format chunk a ∧ b = chunk ++ rest

/-- The reader leaves `rest` exactly when a chunk of the format stands before `rest`. -/
def Passes (skip : Bytes → Option Bytes) (format : Bytes → Prop) : Prop :=
  ∀ b rest, skip b = some rest ↔ ∃ chunk, format chunk ∧ b = chunk ++ rest

theorem Accepts.read_append {read : Bytes → Option (α × Bytes)} {format : Bytes → α → Prop}
    (h : Accepts read format) {chunk : Bytes} {a : α} (hc : format chunk a) (rest : Bytes) :
    read (chunk ++ rest) = some (a, rest) :=
  (h _ _ _).2 ⟨chunk, hc, rfl⟩

theorem Accepts.exists_chunk {read : Bytes → Option (α × Bytes)} {format : Bytes → α → Prop}
    (h : Accepts read format) {b rest : Bytes} {a : α} (hr : read b = some (a, rest)) :
    ∃ chunk, format chunk a ∧ b = chunk ++ rest :=
  (h _ _ _).1 hr

theorem Accepts.congr {read read' : Bytes → Option (α × Bytes)} {format format' : Bytes → α → Prop}
    (h : Accepts read format) (hr : ∀ b, read' b = read b) (hf : ∀ b a, format' b a ↔ format b a) :
    Accepts read' format' := fun b a rest => by
  simp only [hr, hf, h b a rest]

theorem Accepts.map {read : Bytes → Option (α × Bytes)} {format : Bytes → α → Prop}
    (h : Accepts read format) (f : α → β) :
    Accepts (fun b => (read b).map fun p => (f p.1, p.2)) fun b x => ∃ a, format b a ∧ f a = x := by
  intro b x rest
  simp only [Option.map_eq_some_iff, Prod.exists, Prod.mk.injEq]
  constructor
  · rintro ⟨a, r, hr, rfl, rfl⟩
    obtain ⟨chunk, hc, hb⟩ := h.exists_chunk hr
    exact ⟨chunk, ⟨a, hc, rfl⟩, hb⟩
  · rintro ⟨chunk, ⟨a, hc, rfl⟩, rfl⟩
    exact ⟨a, rest, h.read_append hc rest, rfl, rfl⟩

/-- A reader whose values are read further, or refused. -/
theorem Accepts.filterMap {read : Bytes → Option (α × Bytes)} {format : Bytes → α → Prop}
    (h : Accepts read format) (g : α → Option β) :
    Accepts (fun b => (read b).bind fun p => (g p.1).map fun x => (x, p.2))
      fun b x => ∃ a, format b a ∧ g a = some x := by
  intro b x rest
  simp only [Option.bind_eq_some_iff, Option.map_eq_some_iff, Prod.exists, Prod.mk.injEq]
  constructor
  · rintro ⟨a, r, hr, _, hg, rfl, rfl⟩
    obtain ⟨chunk, hc, hb⟩ := h.exists_chunk hr
    exact ⟨chunk, ⟨a, hc, hg⟩, hb⟩
  · rintro ⟨chunk, ⟨a, hc, hg⟩, rfl⟩
    exact ⟨a, rest, h.read_append hc rest, x, hg, rfl, rfl⟩

theorem Accepts.passes {read : Bytes → Option (α × Bytes)} {format : Bytes → α → Prop}
    (h : Accepts read format) : Passes (fun b => (read b).map (·.2)) fun b => ∃ a, format b a := by
  intro b rest
  simp only [Option.map_eq_some_iff, Prod.exists, exists_eq_right]
  constructor
  · rintro ⟨a, hr⟩
    obtain ⟨chunk, hc, hb⟩ := h.exists_chunk hr
    exact ⟨chunk, ⟨a, hc⟩, hb⟩
  · rintro ⟨chunk, ⟨a, hc⟩, rfl⟩
    exact ⟨a, h.read_append hc rest⟩

theorem Passes.accepts {skip : Bytes → Option Bytes} {format : Bytes → Prop}
    (h : Passes skip format) (a : α) :
    Accepts (fun b => (skip b).map fun r => (a, r)) fun b x => format b ∧ a = x := by
  intro b x rest
  simp only [Option.map_eq_some_iff, Prod.mk.injEq, exists_eq_right_right, h b]
  constructor
  · rintro ⟨⟨chunk, hc, hb⟩, rfl⟩
    exact ⟨chunk, ⟨hc, rfl⟩, hb⟩
  · rintro ⟨chunk, ⟨hc, rfl⟩, hb⟩
    exact ⟨⟨chunk, hc, hb⟩, rfl⟩

/-- One reader after another, the second chosen by what the first has read. -/
theorem Accepts.after {first : Bytes → Option (α × Bytes)} {format : Bytes → α → Prop}
    {second : α → Bytes → Option (β × Bytes)} {format' : α → Bytes → β → Prop}
    {both : Bytes → Option (β × Bytes)} (h : Accepts first format)
    (h' : ∀ a, Accepts (second a) (format' a)) (hnone : ∀ b, first b = none → both b = none)
    (hsome : ∀ b a rest, first b = some (a, rest) → both b = second a rest) :
    Accepts both fun b x => ∃ a k v, format k a ∧ format' a v x ∧ b = k ++ v := by
  intro b x rest
  constructor
  · intro hb
    cases hf : first b with
    | none => rw [hnone b hf] at hb; cases hb
    | some p =>
      obtain ⟨a, r⟩ := p
      rw [hsome b a r hf] at hb
      obtain ⟨k, hk, rfl⟩ := h.exists_chunk hf
      obtain ⟨v, hv, rfl⟩ := (h' a).exists_chunk hb
      exact ⟨k ++ v, ⟨a, k, v, hk, hv, rfl⟩, (List.append_assoc ..).symm⟩
  · rintro ⟨_, ⟨a, k, v, hk, hv, rfl⟩, rfl⟩
    rw [List.append_assoc, hsome _ a (v ++ rest) (h.read_append hk _)]
    exact (h' a).read_append hv rest

/-- A reader that only starts under a condition. -/
theorem Accepts.guarded {read : Bytes → Option (α × Bytes)} {format : Bytes → α → Prop}
    (h : Accepts read format) (p : Prop) [Decidable p] :
    Accepts (fun b => if p then read b else none) fun b a => p ∧ format b a := by
  intro b a rest
  by_cases hp : p <;> simp [hp, h b a rest]

end Formats

/-! ## Numbers -/

namespace Varint

/-- The number in bytes, seven bits to a byte and the lowest first; every byte but the last has
its high bit set. -/
inductive Digits : Bytes → Nat → Prop where
  | last {x : UInt8} : x.toNat < 128 → Digits [x] x.toNat
  | more {x : UInt8} {xs : Bytes} {n : Nat} :
    128 ≤ x.toNat → Digits xs n → Digits (x :: xs) (x.toNat - 128 + 128 * n)

/-- Bytes are a number that may be written: of ten bytes and 64 bits at most, and not always of
as few bytes as it could have. -/
structure Spells (b : Bytes) (n : Nat) : Prop where
  digits : Digits b n
  length_le : b.length ≤ 10
  lt : n < 18446744073709551616

theorem Digits.ne_nil {b : Bytes} {n : Nat} (h : Digits b n) : b ≠ [] := by
  cases h <;> simp

/-- Ten bytes and 64 bits in all are, after each byte, one byte and seven bits less. -/
theorem readWithin_eq_some_iff {limit : Nat} {b rest : Bytes} {n : Nat} :
    readWithin (limit + 1) b = some (n, rest) ↔ ∃ chunk, (Digits chunk n ∧
      chunk.length ≤ limit + 1 ∧ n < Nat.pow 2 (7 * limit + 1)) ∧ b = chunk ++ rest := by
  induction limit generalizing b n with
  | zero =>
    constructor
    · intro h
      cases b with
      | nil => cases h
      | cons x xs =>
        rw [readWithin] at h
        split at h
        · rename_i hx
          split at h
          · cases h
          · rename_i h1
            simp only [Option.some.injEq, Prod.mk.injEq] at h
            obtain ⟨rfl, rfl⟩ := h
            exact ⟨[x], ⟨.last hx, by simp, by show x.toNat < 2; omega⟩, rfl⟩
        · simp [readWithin] at h
    · rintro ⟨_, ⟨hd, hl, hn⟩, rfl⟩
      have hn : n < 2 := hn
      cases hd with
      | last hx =>
        simp only [List.cons_append, List.nil_append, readWithin]
        rw [if_pos hx, if_neg (by omega)]
      | more _ hd =>
        have := List.length_pos_iff.2 hd.ne_nil
        simp only [List.length_cons] at hl
        omega
  | succ k ih =>
    have hpow : Nat.pow 2 (7 * (k + 1) + 1) = 128 * Nat.pow 2 (7 * k + 1) := by
      show 2 ^ (7 * (k + 1) + 1) = 128 * 2 ^ (7 * k + 1)
      rw [show 7 * (k + 1) + 1 = 7 * k + 1 + 7 by omega, Nat.pow_add 2 (7 * k + 1) 7]
      omega
    have hpos : 0 < Nat.pow 2 (7 * k + 1) := Nat.pow_pos (by decide)
    constructor
    · intro h
      cases b with
      | nil => cases h
      | cons x xs =>
        rw [readWithin] at h
        split at h
        · rename_i hx
          rw [if_neg (by omega)] at h
          simp only [Option.some.injEq, Prod.mk.injEq] at h
          obtain ⟨rfl, rfl⟩ := h
          exact ⟨[x], ⟨.last hx, by simp, by omega⟩, rfl⟩
        · rename_i hx
          split at h
          · rename_i m r hr
            simp only [Option.some.injEq, Prod.mk.injEq] at h
            obtain ⟨rfl, rfl⟩ := h
            obtain ⟨chunk, ⟨hd, hl, hm⟩, rfl⟩ := ih.1 hr
            have hx' := x.toNat_lt
            exact ⟨x :: chunk, ⟨.more (by omega) hd, by simpa using hl, by omega⟩, rfl⟩
          · cases h
    · rintro ⟨_, ⟨hd, hl, hn⟩, rfl⟩
      cases hd with
      | last hx =>
        simp only [List.cons_append, List.nil_append, readWithin]
        rw [if_pos hx, if_neg (by omega)]
      | @more x xs m hx hd =>
        have hr : readWithin (k + 1) (xs ++ rest) = some (m, rest) :=
          ih.2 ⟨xs, ⟨hd, by simpa using hl, by omega⟩, rfl⟩
        rw [List.cons_append, readWithin, if_neg (by omega)]
        simp only [hr]

theorem accepts_read? : Accepts read? Spells := by
  intro b n rest
  have h := @readWithin_eq_some_iff 9 b rest n
  rw [read?, h]
  constructor
  · rintro ⟨chunk, ⟨hd, hl, hn⟩, hb⟩
    exact ⟨chunk, ⟨hd, hl, hn⟩, hb⟩
  · rintro ⟨chunk, ⟨hd, hl, hn⟩, hb⟩
    exact ⟨chunk, ⟨hd, hl, hn⟩, hb⟩

end Varint

/-! ## Keys -/

namespace FieldKey

/-- Bytes are a key: a number of at most 32 bits, the wire type in its lowest three and a field
number of at least 1 in the others. -/
structure Spells (b : Bytes) (k : FieldKey) : Prop where
  number : Varint.Spells b (8 * k.number + k.type.code)
  pos : 1 ≤ k.number
  lt : 8 * k.number + k.type.code < 4294967296

theorem Spells.ne_nil {b : Bytes} {k : FieldKey} (h : Spells b k) : b ≠ [] := h.number.digits.ne_nil

theorem code_of_ofCode? {n : Nat} {t : WireType} (h : WireType.ofCode? n = some t) :
    t.code = n := by
  unfold WireType.ofCode? at h
  split at h <;> simp only [Option.some.injEq, reduceCtorEq] at h <;> subst h <;> rfl

theorem accepts_read? : Accepts read? Spells := by
  intro b k rest
  constructor
  · intro h
    unfold read? at h
    split at h
    · rename_i n r hr
      split at h
      · rename_i hn
        split at h
        · rename_i t ht
          simp only [Option.some.injEq, Prod.mk.injEq] at h
          obtain ⟨rfl, rfl⟩ := h
          obtain ⟨chunk, hc, rfl⟩ := Varint.accepts_read?.exists_chunk hr
          have he : 8 * (n / 8) + t.code = n := by rw [code_of_ofCode? ht]; omega
          exact ⟨chunk, ⟨by rwa [he], by show 1 ≤ n / 8; omega, by rw [he]; exact hn.2⟩, rfl⟩
        · cases h
      · cases h
    · cases h
  · rintro ⟨chunk, hc, rfl⟩
    have hr := Varint.accepts_read?.read_append hc.number rest
    have hp := hc.pos
    have hl := hc.lt
    have ht := k.type.code_lt
    have hm : (8 * k.number + k.type.code) % 8 = k.type.code := by omega
    have hd : (8 * k.number + k.type.code) / 8 = k.number := by omega
    rw [read?, hr]
    simp only [hm, hd, WireType.ofCode?_code]
    rw [if_pos (by omega)]

end FieldKey

/-! ## Length-delimited values -/

/-- Bytes are a length and then a value of just that length. -/
def Delimits (b v : Bytes) : Prop := ∃ l, Varint.Spells l v.length ∧ b = l ++ v

theorem accepts_readDelimited? : Accepts readDelimited? Delimits := by
  intro b v rest
  constructor
  · intro h
    unfold readDelimited? at h
    split at h
    · rename_i n r hr
      split at h
      · rename_i hn
        simp only [Option.some.injEq, Prod.mk.injEq] at h
        obtain ⟨rfl, rfl⟩ := h
        obtain ⟨l, hl, rfl⟩ := Varint.accepts_read?.exists_chunk hr
        have hv : (r.take n).length = n := by rw [List.length_take, Nat.min_eq_left hn]
        refine ⟨l ++ r.take n, ⟨l, by rwa [hv], rfl⟩, ?_⟩
        rw [List.append_assoc, List.take_append_drop]
      · cases h
    · cases h
  · rintro ⟨_, ⟨l, hl, rfl⟩, rfl⟩
    rw [List.append_assoc, readDelimited?, Varint.accepts_read?.read_append hl]
    simp

theorem accepts_readText? : Accepts readText? fun b s => Delimits b (Bytes.ofText s) := by
  refine (accepts_readDelimited?.filterMap Bytes.text?).congr (fun b => ?_) fun b s => ?_
  · cases h : readDelimited? b with
    | none => simp only [readText?, h, Option.bind_none]
    | some p => cases ht : p.1.text? <;> simp [readText?, h, ht]
  · simp only [Bytes.text?_eq_some_iff, exists_eq_right]

/-! ## Values that are passed over -/

/-- What follows the start key of a group: fields whose values `passed` allows, and an end key
with the number of the group. -/
inductive Members (passed : FieldKey → Bytes → Prop) (number : Nat) : Bytes → Prop where
  | close {k : Bytes} : FieldKey.Spells k ⟨number, .groupEnd⟩ → Members passed number k
  | field {k v rest : Bytes} {key : FieldKey} : FieldKey.Spells k key → passed key v →
    Members passed number rest → Members passed number (k ++ v ++ rest)

/-- Bytes are a value that the key's wire type allows, its groups within a number of levels. An
end key has no value. -/
def IsValue : Nat → FieldKey → Bytes → Prop
  | 0, _, _ => False
  | depth + 1, key, b =>
    match key.type with
    | .varint => ∃ n, Varint.Spells b n
    | .fixed64 => b.length = 8
    | .delimited => ∃ v, Delimits b v
    | .groupStart => Members (IsValue depth) key.number b
    | .groupEnd => False
    | .fixed32 => b.length = 4

theorem passes_skipBytes? (n : Nat) : Passes (skipBytes? n) fun b => b.length = n := by
  intro b rest
  constructor
  · intro h
    unfold skipBytes? at h
    split at h
    · rename_i hn
      cases h
      have hl : (b.take n).length = n := by rw [List.length_take, Nat.min_eq_left hn]
      exact ⟨b.take n, hl, (List.take_append_drop n b).symm⟩
    · cases h
  · rintro ⟨chunk, rfl, rfl⟩
    rw [skipBytes?, if_pos (by simp), List.drop_left]

section Members

variable {skip : FieldKey → Bytes → Option Bytes} {passed : FieldKey → Bytes → Prop} {number : Nat}

theorem members_of_skipMembers? (h : ∀ key, Passes (skip key) (passed key)) {fuel : Nat}
    {b rest : Bytes} (hs : skipMembers? skip number fuel b = some rest) :
    ∃ chunk, Members passed number chunk ∧ b = chunk ++ rest := by
  induction fuel generalizing b with
  | zero => cases hs
  | succ fuel ih =>
    rw [skipMembers?] at hs
    split at hs
    · cases hs
    · rename_i key r hk
      obtain ⟨k, hkey, rfl⟩ := FieldKey.accepts_read?.exists_chunk hk
      split at hs
      · rename_i ht
        split at hs
        · rename_i hn
          cases hs
          obtain ⟨n, t⟩ := key
          simp only at ht hn
          subst ht hn
          exact ⟨k, .close hkey, rfl⟩
        · cases hs
      · split at hs
        · cases hs
        · rename_i r' hv
          obtain ⟨v, hval, rfl⟩ := (h key _ _).1 hv
          obtain ⟨chunk, hc, rfl⟩ := ih hs
          exact ⟨k ++ v ++ chunk, .field hkey hval hc, by simp only [List.append_assoc]⟩

/-- Each field takes a byte or more, so a group of as many bytes as there is fuel is passed over. -/
theorem skipMembers?_of_members (h : ∀ key, Passes (skip key) (passed key))
    (hend : ∀ n v, ¬ passed ⟨n, .groupEnd⟩ v) {chunk : Bytes} (hm : Members passed number chunk) :
    ∀ {fuel : Nat} (rest : Bytes), chunk.length ≤ fuel →
      skipMembers? skip number fuel (chunk ++ rest) = some rest := by
  induction hm with
  | @close k hk =>
    intro fuel rest hf
    have hpos := List.length_pos_iff.2 hk.ne_nil
    obtain ⟨fuel, rfl⟩ := Nat.exists_eq_succ_of_ne_zero (show fuel ≠ 0 by omega)
    rw [skipMembers?, FieldKey.accepts_read?.read_append hk]
    simp
  | @field k v r key hk hv _ ih =>
    intro fuel rest hf
    have hpos := List.length_pos_iff.2 hk.ne_nil
    simp only [List.length_append] at hf
    obtain ⟨fuel, rfl⟩ := Nat.exists_eq_succ_of_ne_zero (show fuel ≠ 0 by omega)
    have ht : key.type ≠ .groupEnd := by
      obtain ⟨n, t⟩ := key
      rintro rfl
      exact hend n v hv
    have hread : FieldKey.read? (k ++ (v ++ (r ++ rest))) = some (key, v ++ (r ++ rest)) :=
      FieldKey.accepts_read?.read_append hk _
    have hskip : skip key (v ++ (r ++ rest)) = some (r ++ rest) := (h key _ _).2 ⟨v, hv, rfl⟩
    simp only [List.append_assoc, skipMembers?, hread, if_neg ht, hskip]
    exact ih rest (by omega)

theorem passes_skipMembers? (h : ∀ key, Passes (skip key) (passed key))
    (hend : ∀ n v, ¬ passed ⟨n, .groupEnd⟩ v) :
    Passes (fun b => skipMembers? skip number b.length b) (Members passed number) := by
  intro b rest
  constructor
  · exact members_of_skipMembers? h
  · rintro ⟨chunk, hc, rfl⟩
    exact skipMembers?_of_members h hend hc rest (by simp)

end Members

theorem not_isValue_groupEnd (depth n : Nat) (v : Bytes) : ¬ IsValue depth ⟨n, .groupEnd⟩ v := by
  cases depth <;> exact id

theorem passes_skipValue? (depth : Nat) (key : FieldKey) :
    Passes (skipValue? depth key) (IsValue depth key) := by
  induction depth generalizing key with
  | zero => exact fun b rest => ⟨fun h => (by cases h), fun ⟨_, h, _⟩ => h.elim⟩
  | succ depth ih =>
    obtain ⟨number, type⟩ := key
    cases type with
    | varint => exact Varint.accepts_read?.passes
    | fixed64 => exact passes_skipBytes? 8
    | delimited => exact accepts_readDelimited?.passes
    | groupStart => exact passes_skipMembers? ih (not_isValue_groupEnd depth)
    | groupEnd => exact fun b rest => ⟨fun h => (by cases h), fun ⟨_, h, _⟩ => h.elim⟩
    | fixed32 => exact passes_skipBytes? 4

/-! ## Records -/

/-- Bytes are one field: a key and then a value that the key allows, read as `a`. -/
def Field {α : Type} (value : FieldKey → Bytes → α → Prop) (b : Bytes) (a : α) : Prop :=
  ∃ key k v, FieldKey.Spells k key ∧ value key v a ∧ b = k ++ v

/-- Bytes are chunks one after another, each in the format and read as the value at its place. -/
inductive Row {α : Type} (format : Bytes → α → Prop) : Bytes → List α → Prop where
  | nil : Row format [] []
  | cons {b rest : Bytes} {a : α} {as : List α} : format b a → Row format rest as →
    Row format (b ++ rest) (a :: as)

/-- Bytes are the fields of a record, read as these parts. -/
abbrev Fields {α : Type} (value : FieldKey → Bytes → α → Prop) : Bytes → List α → Prop :=
  Row (Field value)

theorem Field.ne_nil {α : Type} {value : FieldKey → Bytes → α → Prop} {b : Bytes} {a : α}
    (h : Field value b a) : b ≠ [] := by
  obtain ⟨_, _, _, hk, _, rfl⟩ := h
  simp [hk.ne_nil]

section Rows

variable {α : Type} {read : Bytes → Option (α × Bytes)} {format : Bytes → α → Prop}

theorem row_of_readRun? (h : Accepts read format) {fuel : Nat} {b : Bytes} {as : List α}
    (hr : readRun? read fuel b = some as) : Row format b as := by
  induction fuel generalizing b as with
  | zero =>
    cases b with
    | nil => cases hr; exact .nil
    | cons x xs => cases hr
  | succ fuel ih =>
    cases b with
    | nil => cases hr; exact .nil
    | cons x xs =>
      rw [readRun?] at hr
      · split at hr
        · cases hr
        · rename_i a rest ha
          obtain ⟨as, has, rfl⟩ := Option.map_eq_some_iff.1 hr
          obtain ⟨chunk, hc, hb⟩ := h.exists_chunk ha
          rw [hb]
          exact .cons hc (ih has)
      · simp

theorem readRun?_of_row (h : Accepts read format) (hne : ∀ {b a}, format b a → b ≠ []) {b : Bytes}
    {as : List α} (hr : Row format b as) : ∀ {fuel : Nat}, b.length ≤ fuel →
      readRun? read fuel b = some as := by
  induction hr with
  | nil => intro fuel _; cases fuel <;> rfl
  | @cons b rest a as hb _ ih =>
    intro fuel hf
    have hread : read (b ++ rest) = some (a, rest) := h.read_append hb rest
    obtain ⟨x, xs, rfl⟩ := List.exists_cons_of_ne_nil (hne hb)
    simp only [List.cons_append, List.length_cons, List.length_append] at hf hread ⊢
    obtain ⟨fuel, rfl⟩ := Nat.exists_eq_succ_of_ne_zero (show fuel ≠ 0 by omega)
    simp only [readRun?, hread, ih (show rest.length ≤ fuel by omega), Option.map_some]

theorem readAll?_eq_some_iff (h : Accepts read format) (hne : ∀ {b a}, format b a → b ≠ [])
    {b : Bytes} {as : List α} : readAll? read b = some as ↔ Row format b as :=
  ⟨row_of_readRun? h, fun hr => readRun?_of_row h hne hr (Nat.le_refl _)⟩

end Rows

end MessageDepot.Wire
