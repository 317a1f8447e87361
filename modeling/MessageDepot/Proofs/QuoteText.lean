import MessageDepot.Proofs.JsonValue
import MessageDepot.Quote.Json

/-!
# Quotes and their texts

The texts that tell a quote: an object with members in any order, among them members of other names,
or a list of the four values. Integers are in plain decimal form, everything else in any of its
spellings, with space between all parts. What has been read of an object is a draft, and a draft
holds what the members before have told, whatever their order. So an object is a quote just if its
members tell the four fields, each once; and every object is of the wrong shape otherwise.

Results:
* `takes_symbol`, `takes_uint32`, `takes_int64`: the values of fields are read.
* `Draft.addAll_perm`, `Draft.parts_addAll`: the order of members, and what they leave in a draft.
* `readMembers_isMembers`: the members of an object are read one by one.
* `read_object`, `read_list`: what is read from a whole text.
* `ofMessage_toMessage`: a quote comes back from the message that was made for it.
* `ofMessage_told`: a message carries a quote just if its members tell the fields of the quote.
-/
namespace MessageDepot.Quote

open MessageDepot.Json
open scoped List

/-! ## Grammar -/

/-- Bytes with space around them. -/
def IsSpaced {α : Type} (format : Bytes → α → Prop) (b : Bytes) (a : α) : Prop :=
  ∃ s v t, IsSpaces s ∧ format v a ∧ IsSpaces t ∧ b = s ++ (v ++ t)

/-- Bytes are an integer in plain decimal form. -/
def IsInteger (b : Bytes) (i : Int) : Prop := b = integerBytes i

/-- What a member of an object tells of a quote. -/
inductive Part where
  | symbol (s : String)
  | price (n : UInt32)
  | quantity (n : UInt32)
  | quotedAt (t : Int64)
  | other
  deriving DecidableEq

def fieldNames : List String := ["symbol", "price", "quantity", "quoted_at"]

/-- Bytes are the value of a member of this name, and tell this part. -/
inductive IsPart : String → Bytes → Part → Prop where
  | symbol {b : Bytes} {s : String} : IsString b s → IsPart "symbol" b (.symbol s)
  | price {b : Bytes} {n : UInt32} : IsInteger b n.toNat → IsPart "price" b (.price n)
  | quantity {b : Bytes} {n : UInt32} : IsInteger b n.toNat → IsPart "quantity" b (.quantity n)
  | quotedAt {b : Bytes} {t : Int64} : IsInteger b t.toInt → IsPart "quoted_at" b (.quotedAt t)
  | other {name : String} {b : Bytes} : name ∉ fieldNames → IsValue b → IsPart name b .other

/-- Bytes are a member that tells this part. Its name is a text in any of its spellings. -/
inductive IsMember : Bytes → Part → Prop where
  | colon {a v : Bytes} {name : String} {p : Part} : IsSpaced IsString a name →
    IsSpaced (IsPart name) v p → IsMember (a ++ 0x3a :: v) p

/-- One or more members with commas between them. -/
inductive IsMembers : Bytes → List Part → Prop where
  | last {b : Bytes} {p : Part} : IsMember b p → IsMembers b [p]
  | more {b rest : Bytes} {p : Part} {ps : List Part} : IsMember b p → IsMembers rest ps →
    IsMembers (b ++ 0x2c :: rest) (p :: ps)

/-- Bytes are an object whose members tell these parts. -/
inductive IsObject : Bytes → List Part → Prop where
  | empty {s : Bytes} : IsSpaces s → IsObject (0x7b :: (s ++ [0x7d])) []
  | members {b : Bytes} {ps : List Part} : IsMembers b ps → IsObject (0x7b :: (b ++ [0x7d])) ps

/-- Bytes are a list of the four values in order. -/
inductive IsList : Bytes → Quote → Prop where
  | values {s p n t : Bytes} {q : Quote} : IsSpaced IsString s q.symbol →
    IsSpaced IsInteger p q.price.toNat → IsSpaced IsInteger n q.quantity.toNat →
    IsSpaced IsInteger t q.quotedAt.toInt →
    IsList (0x5b :: (s ++ 0x2c :: (p ++ 0x2c :: (n ++ 0x2c :: (t ++ [0x5d]))))) q

/-- The parts that tell a field. -/
def told (ps : List Part) : List Part := ps.filter (· ≠ .other)

def fields (q : Quote) : List Part :=
  [.symbol q.symbol, .price q.price, .quantity q.quantity, .quotedAt q.quotedAt]

/-! ## Integers -/

/-- An integer as the reader of numbers sees it. -/
def number (i : Int) : Number := if i < 0 then .negative i.natAbs else .natural i.natAbs

theorem ofText_repr (n : Nat) : Bytes.ofText n.repr = digitBytes n := by
  rw [Bytes.ofText_eq_flatMap, Nat.repr_eq_ofList_toDigits, String.toList_ofList, digitBytes,
    List.map_eq_flatMap]
  refine List.flatMap_congr fun c hc => utf8EncodeChar_of_ascii ?_
  have hdigit : c.isDigit := Nat.isDigit_of_mem_toDigits (by decide) (by decide) hc
  simp only [Char.isDigit, Bool.and_eq_true, decide_eq_true_eq] at hdigit
  exact Nat.lt_of_le_of_lt (UInt32.le_iff_toNat_le.1 hdigit.2) (by decide)

theorem integerBytes_eq (i : Int) :
    integerBytes i = (if i < 0 then [0x2d] else []) ++ digitBytes i.natAbs := by
  rw [integerBytes, Decimal.text, Int.repr_eq_if]
  split
  · rename_i h
    rw [if_neg (Int.not_lt.2 h), List.nil_append, ofText_repr, ← Int.toNat_of_nonneg h]
    rfl
  · rename_i h
    have habs : (-i).toNat = i.natAbs := by omega
    rw [if_pos (Int.not_le.1 h), habs, ← ofText_repr, Bytes.ofText_eq_flatMap, String.toList_append,
      List.flatMap_append, ← Bytes.ofText_eq_flatMap, ← Bytes.ofText_eq_flatMap]
    rfl

theorem isNumber_integerBytes (i : Int) : IsNumber (integerBytes i) := by
  have hsign : (if i < 0 then [0x2d] else []) ∈ [[], [(0x2d : UInt8)]] := by split <;> simp
  have h := IsNumber.parts hsign (isWhole_digitBytes i.natAbs) .none .none
  rwa [List.append_nil, List.append_nil, ← integerBytes_eq] at h

theorem readNumber_integerBytes {i : Int} {rest : Bytes} (hmin : -9223372036854775808 ≤ i)
    (hmax : i < 18446744073709551616) (hr : Stops rest) :
    readNumber (integerBytes i ++ rest) = .ok (number i, rest) := by
  rw [integerBytes_eq, number]
  split
  · exact readNumber_negative (by omega) (by omega) hr
  · exact readNumber_natural (by omega) hr

theorem uint32?_number (n : UInt32) : uint32? (number n.toNat) = some n := by
  have hlt := n.toNat_lt
  rw [number, if_neg (by omega), Int.natAbs_natCast, uint32?, if_pos hlt, UInt32.ofNat_toNat]

theorem int64?_number (t : Int64) : int64? (number t.toInt) = some t := by
  have hword := Decimal.word?_toInt t
  rw [number]
  split
  · rename_i h
    rw [int64?, show -((t.toInt.natAbs : Nat) : Int) = t.toInt by omega, hword]
  · rename_i h
    rw [int64?, show ((t.toInt.natAbs : Nat) : Int) = t.toInt by omega, hword]

/-! ## Values -/

/-- A reader takes bytes for a value behind any space, and leaves what follows them, unless a number
would go on with that. -/
def Takes {α : Type} (read : Bytes → Except Fault (α × Bytes)) (b : Bytes) (a : α) : Prop :=
  ∀ s rest, IsSpaces s → Stops rest → read (s ++ (b ++ rest)) = .ok (a, rest)

theorem takes_symbol {b : Bytes} {s : String} (h : IsString b s) : Takes readSymbol b s := by
  intro u rest hu _
  obtain ⟨body, rfl, hread⟩ := readString_isString h
  rw [readSymbol, skipSpace_append hu, List.cons_append, skipSpace_cons rfl]
  exact hread rest

theorem takes_integer {α : Type} {accept : Number → Option α} {a : α} {b : Bytes} {i : Int}
    (h : IsInteger b i) (hmin : -9223372036854775808 ≤ i) (hmax : i < 18446744073709551616)
    (ha : accept (number i) = some a) : Takes (readInteger accept) b a := by
  intro s rest hs hr
  obtain rfl : b = integerBytes i := h
  have hread := readNumber_integerBytes hmin hmax hr
  obtain ⟨c, t, he, hc⟩ := (isNumber_integerBytes i).exists_head
  rw [he, List.cons_append] at hread ⊢
  rw [readInteger, skipSpace_append hs, skipSpace_cons (number_head hc).1]
  simp only [if_pos hc, hread, ha]

theorem takes_uint32 {b : Bytes} {n : UInt32} (h : IsInteger b n.toNat) :
    Takes (readInteger uint32?) b n := by
  have hlt := n.toNat_lt
  exact takes_integer h (by omega) (by omega) (uint32?_number n)

theorem takes_int64 {b : Bytes} {t : Int64} (h : IsInteger b t.toInt) :
    Takes (readInteger int64?) b t := by
  have hmin := t.le_toInt
  have hmax := t.toInt_lt
  exact takes_integer h (by omega) (by omega) (int64?_number t)

/-! ## Drafts -/

namespace Draft

/-- A draft with a field more, which was not there yet. -/
def fill {α : Type} (present : Option α) (d : Draft) : Except Fault Draft :=
  if present.isSome then .error .wrongShape else .ok d

def add (d : Draft) : Part → Except Fault Draft
  | .symbol s => fill d.symbol { d with symbol := some s }
  | .price n => fill d.price { d with price := some n }
  | .quantity n => fill d.quantity { d with quantity := some n }
  | .quotedAt t => fill d.quotedAt { d with quotedAt := some t }
  | .other => .ok d

def addAll (d : Draft) (ps : List Part) : Except Fault Draft := ps.foldlM add d

/-- The parts that a draft holds. -/
def parts (d : Draft) : List Part :=
  (d.symbol.map Part.symbol).toList ++ ((d.price.map Part.price).toList ++
    ((d.quantity.map Part.quantity).toList ++ (d.quotedAt.map Part.quotedAt).toList))

theorem addAll_cons (d : Draft) (p : Part) (ps : List Part) :
    d.addAll (p :: ps) = d.add p >>= fun d => d.addAll ps := List.foldlM_cons

theorem exists_of_addAll_cons {d d' : Draft} {p : Part} {ps : List Part}
    (h : d.addAll (p :: ps) = .ok d') : ∃ d₁, d.add p = .ok d₁ ∧ d₁.addAll ps = .ok d' := by
  rw [addAll_cons] at h
  cases hadd : d.add p with
  | error f =>
    rw [hadd] at h
    cases h
  | ok d₁ =>
    rw [hadd] at h
    exact ⟨d₁, rfl, h⟩

/-- Two parts may change places: if they tell the same field, the second one is refused anyway. -/
theorem add_comm (d : Draft) (p r : Part) :
    (d.add p >>= fun d => d.add r) = d.add r >>= fun d => d.add p := by
  -- which fields are there decides, and not what they are
  obtain ⟨s, n, k, t⟩ := d
  cases p <;> cases r <;>
    first | rfl | (cases s <;> cases n <;> cases k <;> cases t <;> rfl)

/-- The order of members is nothing to a draft. -/
theorem addAll_perm {ps rs : List Part} (h : ps ~ rs) (d : Draft) :
    d.addAll ps = d.addAll rs := by
  induction h generalizing d with
  | nil => rfl
  | cons p _ ih => simp only [addAll_cons, ih]
  | swap p r ps =>
    simp only [addAll_cons, ← bind_assoc, add_comm d p r]
  | trans _ _ ih ih' => rw [ih, ih']

/-- Members of other names are nothing to a draft. -/
theorem addAll_told (d : Draft) (ps : List Part) : d.addAll (told ps) = d.addAll ps := by
  induction ps generalizing d with
  | nil => rfl
  | cons p ps ih =>
    by_cases hp : p = .other
    · rw [hp, addAll_cons, told, List.filter_cons_of_neg (by simp)]
      exact ih d
    · rw [addAll_cons, told, List.filter_cons_of_pos (by simpa using hp), addAll_cons]
      exact congrArg _ (funext ih)

/-- A part that is put in is added to what the draft holds. -/
theorem parts_add {d d' : Draft} {p : Part} (h : d.add p = .ok d') :
    d'.parts ~ told [p] ++ d.parts := by
  cases p with
  | symbol s =>
    obtain ⟨_ | _, n, k, t⟩ := d <;> cases h
    rfl
  | price n =>
    obtain ⟨s, _ | _, k, t⟩ := d <;> cases h
    exact List.perm_middle
  | quantity k =>
    obtain ⟨s, n, _ | _, t⟩ := d <;> cases h
    exact (List.perm_middle.append_left _).trans List.perm_middle
  | quotedAt t =>
    obtain ⟨s, n, k, _ | _⟩ := d <;> cases h
    simp only [parts, ← List.append_assoc]
    exact List.perm_middle
  | other =>
    cases h
    rfl

theorem parts_addAll {ps : List Part} {d d' : Draft} (h : d.addAll ps = .ok d') :
    d'.parts ~ told ps ++ d.parts := by
  induction ps generalizing d with
  | nil =>
    cases h
    rfl
  | cons p ps ih =>
    obtain ⟨d₁, hadd, h⟩ := exists_of_addAll_cons h
    have hsplit : told (p :: ps) = told [p] ++ told ps := List.filter_append [p] ps
    calc d'.parts
      _ ~ told ps ++ d₁.parts := ih h
      _ ~ told ps ++ (told [p] ++ d.parts) := (parts_add hadd).append_left _
      _ ~ told (p :: ps) ++ d.parts := by
        rw [hsplit, ← List.append_assoc]
        exact List.perm_append_comm.append_right _

theorem finish_eq_ok {d : Draft} {q : Quote} (h : d.finish = .ok q) : d.parts = fields q := by
  obtain ⟨_ | _, _ | _, _ | _, _ | _⟩ := d <;> cases h
  rfl

theorem eq_wrongShape_of_fill {α : Type} {present : Option α} {d : Draft} {f : Fault}
    (h : fill present d = .error f) : f = .wrongShape := by
  cases present <;> cases h
  rfl

theorem eq_wrongShape_of_add {d : Draft} {p : Part} {f : Fault} (h : d.add p = .error f) :
    f = .wrongShape := by
  cases p with
  | other => cases h
  | symbol | price | quantity | quotedAt => exact eq_wrongShape_of_fill h

theorem eq_wrongShape_of_finish {d : Draft} {f : Fault} (h : d.finish = .error f) :
    f = .wrongShape := by
  obtain ⟨_ | _, _ | _, _ | _, _ | _⟩ := d <;> cases h <;> rfl

/-- Nothing else can be wrong with parts than that one is missing or comes twice. -/
theorem eq_wrongShape {ps : List Part} {d : Draft} {f : Fault}
    (h : (d.addAll ps >>= finish) = .error f) : f = .wrongShape := by
  induction ps generalizing d with
  | nil => exact eq_wrongShape_of_finish h
  | cons p ps ih =>
    rw [addAll_cons] at h
    cases hadd : d.add p with
    | error g =>
      rw [hadd] at h
      cases h
      exact eq_wrongShape_of_add hadd
    | ok d₁ =>
      rw [hadd] at h
      exact ih h

/-- A quote comes of parts just if they tell its fields, in any order. -/
theorem finish_iff {ps : List Part} {q : Quote} :
    (empty.addAll ps >>= finish) = .ok q ↔ told ps ~ fields q := by
  constructor
  · intro h
    cases hadd : empty.addAll ps with
    | error f =>
      rw [hadd] at h
      cases h
    | ok d =>
      rw [hadd] at h
      have hparts := parts_addAll hadd
      have hempty : empty.parts = [] := rfl
      rw [finish_eq_ok h, hempty, List.append_nil] at hparts
      exact hparts.symm
  · intro h
    rw [← addAll_told, addAll_perm h]
    rfl

end Draft

/-! ## Members -/

/-- A field is read from its colon on, unless it is there already. -/
theorem readOnce_append {α : Type} {read : Bytes → Except Fault (α × Bytes)} {v : Bytes} {a : α}
    (h : Takes read v a) {s t rest : Bytes} (ht : IsSpaces t) (hs : IsSpaces s) (hr : Stops rest)
    (present : Option α) (put : α → Draft) :
    readOnce present read put (t ++ 0x3a :: (s ++ (v ++ rest))) =
      (Draft.fill present (put a)).map fun d => (d, rest) := by
  have hcolon := @readMark_append 0x3a rfl t ht
  rw [readOnce, Draft.fill]
  split
  · rfl
  · simp only [hcolon, h s rest hs hr]
    rfl

theorem readField_append {name : String} {v : Bytes} {p : Part} (h : IsPart name v p)
    {s t rest : Bytes} (ht : IsSpaces t) (hs : IsSpaces s) (hr : Stops rest) (d : Draft) :
    readField d name (t ++ 0x3a :: (s ++ (v ++ rest))) = (d.add p).map fun d => (d, rest) := by
  cases h with
  | symbol hb => exact readOnce_append (takes_symbol hb) ht hs hr _ _
  | price hb => exact readOnce_append (takes_uint32 hb) ht hs hr _ _
  | quantity hb => exact readOnce_append (takes_uint32 hb) ht hs hr _ _
  | quotedAt hb => exact readOnce_append (takes_int64 hb) ht hs hr _ _
  | other hname hb =>
    simp only [fieldNames, List.mem_cons, List.not_mem_nil, or_false, not_or] at hname
    obtain ⟨h₁, h₂, h₃, h₄⟩ := hname
    rw [readField, if_neg h₁, if_neg h₂, if_neg h₃, if_neg h₄, readMark_append rfl ht]
    simp only [skipValue_append hs hb hr]
    rfl

/-- Space after a member is left to what comes next. -/
theorem readMember_append {b : Bytes} {p : Part} (h : IsMember b p) :
    ∃ t, IsSpaces t ∧ ∀ d rest, Stops rest →
      readMember d (b ++ rest) = (d.add p).map fun d => (d, t ++ rest) := by
  obtain ⟨⟨s, a, s', hs, ha, hs', rfl⟩, ⟨t, v, t', ht, hv, ht', rfl⟩⟩ := h
  obtain ⟨body, rfl, hread⟩ := readString_isString ha
  refine ⟨t', ht', fun d rest hr => ?_⟩
  simp only [List.append_assoc, List.cons_append]
  rw [readMember, readMark_append rfl hs]
  simp only [hread]
  exact readField_append hv hs' ht (stops_append ht' hr) d

theorem readMember_skipSpace (d : Draft) (b : Bytes) :
    readMember d (skipSpace b) = readMember d b := by
  rw [readMember, readMember, readMark, readMark, skipSpace_skipSpace]

/-! ## Objects -/

section Objects

variable {s : Bytes} (hs : IsSpaces s) (fuel : Nat) (d : Draft)
include hs

theorem readMembers_closing (first : Bool) (rest : Bytes) :
    readMembers (fuel + 1) first d (s ++ 0x7d :: rest) = d.finish.map fun q => (q, rest) := by
  rw [readMembers, skipSpace_append hs, skipSpace_cons rfl]
  simp only [if_pos]
  cases d.finish <;> rfl

theorem readMembers_first (b : Bytes) :
    readMembers (fuel + 1) true d (s ++ 0x22 :: b) =
      readMember d (s ++ 0x22 :: b) >>= fun x => readMembers fuel false x.1 x.2 := by
  have hskip : skipSpace (s ++ 0x22 :: b) = 0x22 :: b := by
    rw [skipSpace_append hs, skipSpace_cons rfl]
  rw [readMembers, ← readMember_skipSpace d (s ++ _), hskip]
  simp only [if_neg (show (0x22 : UInt8) ≠ 0x7d by decide), if_pos]
  cases readMember d (0x22 :: b) <;> rfl

theorem readMembers_comma (b : Bytes) :
    readMembers (fuel + 1) false d (s ++ 0x2c :: b) =
      readMember d b >>= fun x => readMembers fuel false x.1 x.2 := by
  rw [readMembers, skipSpace_append hs, skipSpace_cons rfl]
  simp only [if_neg (show (0x2c : UInt8) ≠ 0x7d by decide), Bool.false_eq_true, if_false, if_pos]
  cases readMember d b <;> rfl

end Objects

theorem IsMember.exists_head {b : Bytes} {p : Part} (h : IsMember b p) :
    ∃ s t, IsSpaces s ∧ b = s ++ 0x22 :: t := by
  obtain ⟨⟨s, a, s', hs, ⟨body, -, rfl⟩, -, rfl⟩, -⟩ := h
  exact ⟨s, _, hs, by simp only [List.append_assoc, List.cons_append]; rfl⟩

theorem IsMembers.exists_head {b : Bytes} {ps : List Part} (h : IsMembers b ps) :
    ∃ s t, IsSpaces s ∧ b = s ++ 0x22 :: t := by
  cases h with
  | last hb => exact hb.exists_head
  | more hb =>
    obtain ⟨s, t, hs, rfl⟩ := hb.exists_head
    exact ⟨s, _, hs, List.append_assoc ..⟩

theorem IsMembers.length_le {b : Bytes} {ps : List Part} (h : IsMembers b ps) :
    ps.length ≤ b.length := by
  induction h with
  | last hb =>
    obtain ⟨s, t, -, rfl⟩ := hb.exists_head
    simp only [List.length_append, List.length_cons, List.length_nil]
    omega
  | more _ _ ih =>
    simp only [List.length_append, List.length_cons]
    omega

/-- The members of an object, from the first one on, put their parts in a draft one by one. -/
theorem readMembers_isMembers {b : Bytes} {ps : List Part} (h : IsMembers b ps) {fuel : Nat}
    (hfuel : ps.length ≤ fuel) (d : Draft) (rest : Bytes) :
    (readMember d (b ++ 0x7d :: rest) >>= fun x => readMembers fuel false x.1 x.2) =
      (d.addAll ps >>= Draft.finish).map fun q => (q, rest) := by
  induction h generalizing fuel d with
  | last hb =>
    obtain ⟨t, ht, hread⟩ := readMember_append hb
    obtain ⟨k, rfl⟩ := Nat.exists_eq_add_of_le' hfuel
    have hlast := hread d (0x7d :: rest) (stops_closing .object rest)
    rw [hlast, Draft.addAll_cons]
    cases d.add _ with
    | error => rfl
    | ok d => exact readMembers_closing ht k d false rest
  | more hb _ ih =>
    obtain ⟨t, ht, hread⟩ := readMember_append hb
    obtain ⟨k, rfl⟩ := Nat.exists_eq_add_of_le' hfuel
    rw [List.append_assoc, List.cons_append, hread d _ (stops_comma _), Draft.addAll_cons]
    cases d.add _ with
    | error => rfl
    | ok d => exact (readMembers_comma ht _ d _).trans (ih (Nat.le_add_left _ k) d)

theorem readValue_brace {s : Bytes} (hs : IsSpaces s) (b : Bytes) :
    readValue (s ++ 0x7b :: b) = readMembers (b.length + 1) true Draft.empty b := by
  rw [readValue, skipSpace_append hs, skipSpace_cons rfl]
  rfl

theorem readValue_bracket {s : Bytes} (hs : IsSpaces s) (b : Bytes) :
    readValue (s ++ 0x5b :: b) = readElements b := by
  rw [readValue, skipSpace_append hs, skipSpace_cons rfl]
  rfl

theorem readValue_isObject {b : Bytes} {ps : List Part} (h : IsObject b ps) {s : Bytes}
    (hs : IsSpaces s) (rest : Bytes) :
    readValue (s ++ (b ++ rest)) =
      (Draft.empty.addAll ps >>= Draft.finish).map fun q => (q, rest) := by
  cases h with
  | empty hu =>
    rw [List.cons_append, readValue_brace hs, List.append_assoc]
    exact readMembers_closing hu _ _ _ _
  | @members b _ hm =>
    have hfuel : ps.length ≤ ((b ++ [0x7d]) ++ rest).length := by
      have hlength := hm.length_le
      simp only [List.length_append]
      omega
    have hmembers := readMembers_isMembers hm hfuel Draft.empty rest
    obtain ⟨u, t, hu, rfl⟩ := hm.exists_head
    rw [List.cons_append, readValue_brace hs, ← hmembers]
    simp only [List.append_assoc, List.cons_append]
    exact readMembers_first hu _ _ _

/-! ## Lists -/

/-- A reader takes bytes for a value, which is not the end of a list. -/
def IsElement {α : Type} (read : Bytes → Except Fault (α × Bytes)) (b : Bytes) (a : α) : Prop :=
  Takes read b a ∧ ∃ c t, b = c :: t ∧ isSpace c = false ∧ c ≠ 0x5d

theorem isElement_symbol {b : Bytes} {s : String} (h : IsString b s) :
    IsElement readSymbol b s := by
  refine ⟨takes_symbol h, ?_⟩
  obtain ⟨body, -, rfl⟩ := h
  exact ⟨_, _, rfl, rfl, by decide⟩

theorem isElement_integer {α : Type} {read : Bytes → Except Fault (α × Bytes)} {b : Bytes} {i : Int}
    {a : α} (h : IsInteger b i) (hread : Takes read b a) : IsElement read b a := by
  obtain rfl : b = integerBytes i := h
  have hnumber : IsPhrase none (integerBytes i) := .number (isNumber_integerBytes i)
  exact ⟨hread, hnumber.exists_head⟩

section Elements

variable {α : Type} {read : Bytes → Except Fault (α × Bytes)} {s v rest : Bytes} {a : α}

theorem readElement_first (hs : IsSpaces s) (hv : IsElement read v a) (hr : Stops rest) :
    readElement true read (s ++ (v ++ rest)) = .ok (a, rest) := by
  obtain ⟨htakes, c, t, rfl, hspace, hc⟩ := hv
  rw [readElement, skipSpace_append hs, List.cons_append, skipSpace_cons hspace]
  simp only [if_neg hc, if_pos]
  exact htakes [] rest isSpaces_nil hr

theorem readElement_comma {t : Bytes} (ht : IsSpaces t) (hs : IsSpaces s) (hv : IsElement read v a)
    (hr : Stops rest) :
    readElement false read (t ++ 0x2c :: (s ++ (v ++ rest))) = .ok (a, rest) := by
  obtain ⟨htakes, c, u, rfl, hspace, hc⟩ := hv
  rw [readElement, skipSpace_append ht, skipSpace_cons rfl]
  simp only [if_neg (show (0x2c : UInt8) ≠ 0x5d by decide), Bool.false_eq_true, if_false, if_pos,
    skipSpace_append hs, List.cons_append, skipSpace_cons hspace, if_neg hc]
  exact htakes [] rest isSpaces_nil hr

end Elements

theorem readElements_eq_ok {b b₁ b₂ b₃ b₄ rest : Bytes} {q : Quote}
    (hsymbol : readElement true readSymbol b = .ok (q.symbol, b₁))
    (hprice : readElement false (readInteger uint32?) b₁ = .ok (q.price, b₂))
    (hquantity : readElement false (readInteger uint32?) b₂ = .ok (q.quantity, b₃))
    (hquotedAt : readElement false (readInteger int64?) b₃ = .ok (q.quotedAt, b₄))
    (hclosing : readMark 0x5d b₄ = .ok rest) : readElements b = .ok (q, rest) := by
  simp only [readElements, hsymbol, hprice, hquantity, hquotedAt, hclosing]

theorem readValue_isList {b : Bytes} {q : Quote} (h : IsList b q) {s : Bytes} (hs : IsSpaces s)
    (rest : Bytes) : readValue (s ++ (b ++ rest)) = .ok (q, rest) := by
  obtain ⟨⟨s₁, v₁, t₁, hs₁, hv₁, ht₁, rfl⟩, ⟨s₂, v₂, t₂, hs₂, hv₂, ht₂, rfl⟩,
    ⟨s₃, v₃, t₃, hs₃, hv₃, ht₃, rfl⟩, ⟨s₄, v₄, t₄, hs₄, hv₄, ht₄, rfl⟩⟩ := h
  have hcomma {t : Bytes} (ht : IsSpaces t) (rest : Bytes) := stops_append ht (stops_comma rest)
  have hend : Stops (t₄ ++ 0x5d :: rest) := stops_append ht₄ (stops_closing .list rest)
  simp only [List.append_assoc, List.cons_append, List.nil_append]
  rw [readValue_bracket hs]
  exact readElements_eq_ok
    (readElement_first hs₁ (isElement_symbol hv₁) (hcomma ht₁ _))
    (readElement_comma ht₁ hs₂ (isElement_integer hv₂ (takes_uint32 hv₂)) (hcomma ht₂ _))
    (readElement_comma ht₂ hs₃ (isElement_integer hv₃ (takes_uint32 hv₃)) (hcomma ht₃ _))
    (readElement_comma ht₃ hs₄ (isElement_integer hv₄ (takes_int64 hv₄)) hend)
    (readMark_append rfl ht₄ rest)

/-! ## Whole texts -/

/-- Space after the value is all that may be left. -/
theorem read_of_readValue {b t : Bytes} {r : Except Fault Quote} (ht : IsSpaces t)
    (h : readValue b = r.map fun q => (q, t)) : read b = r := by
  rw [read, h]
  cases r with
  | error => rfl
  | ok q => exact if_pos (skipSpace_spaces ht)

theorem read_object {b : Bytes} {ps : List Part} (h : IsSpaced IsObject b ps) :
    read b = Draft.empty.addAll ps >>= Draft.finish := by
  obtain ⟨s, v, t, hs, hv, ht, rfl⟩ := h
  exact read_of_readValue ht (readValue_isObject hv hs t)

theorem read_list {b : Bytes} {q : Quote} (h : IsSpaced IsList b q) : read b = .ok q := by
  obtain ⟨s, v, t, hs, hv, ht, rfl⟩ := h
  exact read_of_readValue ht (readValue_isList hv hs t)

/-! ## Writing -/

theorem isSpaced_self {α : Type} {format : Bytes → α → Prop} {b : Bytes} {a : α}
    (h : format b a) : IsSpaced format b a :=
  ⟨[], b, [], isSpaces_nil, h, isSpaces_nil, by simp⟩

theorem isMember_member {name : String} {v : Bytes} {p : Part} (h : IsPart name v p) :
    IsMember (member name v) p :=
  .colon (isSpaced_self (isString_writeString name)) (isSpaced_self h)

theorem isObject_write (q : Quote) : IsObject q.write (fields q) := by
  have hsymbol := isMember_member (.symbol (isString_writeString q.symbol))
  have hprice := isMember_member (.price (rfl : IsInteger _ q.price.toNat))
  have hquantity := isMember_member (.quantity (rfl : IsInteger _ q.quantity.toNat))
  have hquotedAt := isMember_member (.quotedAt (rfl : IsInteger _ q.quotedAt.toInt))
  have h := IsObject.members (.more hsymbol (.more hprice (.more hquantity (.last hquotedAt))))
  simpa only [write, fields, List.append_assoc, List.cons_append] using h

theorem read_write (q : Quote) : read q.write = .ok q := by
  rw [read_object (isSpaced_self (isObject_write q)), Draft.finish_iff]
  rfl

/-- A message that was made for a quote names its symbol, and its payload is an object of the four
fields in order, from which the quote is read back. -/
theorem ofMessage_toMessage (q : Quote) (id : Uuid) (now : Int64) :
    (q.toMessage id now).header? symbolHeader = some q.symbol ∧
      IsObject (q.toMessage id now).payload (fields q) ∧
      ofMessage (q.toMessage id now) = .ok q := by
  refine ⟨?_, isObject_write q, read_write q⟩
  rw [toMessage, Message.header?, Message.withHeader, Headers.get?_insert, if_pos rfl]

/-! ## Messages -/

/-- A message carries a quote just if the members of its object tell the fields of the quote, in any
order and each of them once. Every other object is of the wrong shape: so it is when a field is
missing, or when one is told again. A list of the four values carries the quote of them. -/
theorem ofMessage_told (m : Message) :
    (∀ ps, IsSpaced IsObject m.payload ps →
      (∀ q, ofMessage m = .ok q ↔ told ps ~ fields q) ∧
      (∀ f, ofMessage m = .error f → f = .wrongShape) ∧
      (∀ q p, p :: told ps ~ fields q → ofMessage m = .error .wrongShape) ∧
      (∀ q p, told ps ~ p :: fields q → ofMessage m = .error .wrongShape)) ∧
    ∀ q, IsSpaced IsList m.payload q → ofMessage m = .ok q := by
  refine ⟨fun ps h => ?_, fun q h => read_list h⟩
  have hread : ofMessage m = Draft.empty.addAll ps >>= Draft.finish := read_object h
  have hiff (q : Quote) : ofMessage m = .ok q ↔ told ps ~ fields q := by
    rw [hread]
    exact Draft.finish_iff
  have hfault (f : Fault) (hf : ofMessage m = .error f) : f = .wrongShape :=
    Draft.eq_wrongShape (hread.symm.trans hf)
  have hlength (hne : (told ps).length ≠ 4) : ofMessage m = .error .wrongShape := by
    cases hm : ofMessage m with
    | ok q => exact absurd ((hiff q).1 hm).length_eq hne
    | error f => rw [hfault f hm]
  refine ⟨hiff, hfault, fun q p hp => hlength ?_, fun q p hp => hlength ?_⟩
  · have h4 : (told ps).length + 1 = 4 := hp.length_eq
    omega
  · have h5 : (told ps).length = 5 := hp.length_eq
    omega

/-- An object with members out of order, one of them of another name and with a number beyond every
double, and a text spelled by surrogates; a list of the same values; then objects without a quantity
and with two prices. -/
theorem ofMessage_told_escaped :
    let smile := Bytes.ofText "\"\\ud83d\\ude00\""
    let symbol := member "symbol" smile
    let price := member "price" (integerBytes 7)
    let quantity := member "quantity" (integerBytes 3)
    let quotedAt := member "quoted_at" (integerBytes (-5))
    let note := member "note" (Bytes.ofText "[1e999, []]")
    let carried (b : Bytes) := ofMessage (.create ⟨List.replicate 16 0, rfl⟩ 0 b)
    let object (b : Bytes) := carried (0x20 :: 0x7b :: (b ++ [0x7d]))
    object (quotedAt ++ 0x2c :: (note ++ 0x2c :: (price ++ 0x2c :: (quantity ++ 0x2c :: symbol)))) =
        .ok ⟨"😀", 7, 3, -5⟩ ∧
      carried (0x5b :: (smile ++ 0x2c :: (integerBytes 7 ++ 0x2c :: (integerBytes 3 ++
        0x2c :: (integerBytes (-5) ++ [0x5d]))))) = .ok ⟨"😀", 7, 3, -5⟩ ∧
      object (quotedAt ++ 0x2c :: (price ++ 0x2c :: symbol)) = .error .wrongShape ∧
      object (quotedAt ++ 0x2c :: (price ++ 0x2c :: (quantity ++ 0x2c :: (symbol ++
        0x2c :: price)))) = .error .wrongShape := by
  have hnone : IsSpaces [] := by simp [IsSpaces]
  have hspace : IsSpaces [0x20] := by simp [IsSpaces, isSpace]
  intro smile symbol price quantity quotedAt note carried object
  have hdigit {x : UInt8} {n : Nat} (h : hexDigit? x = some n) := hexDigit?_eq_some_iff.1 h
  have hhigh : IsUnit (Bytes.ofText "d83d") 0xd83d :=
    @IsUnit.digits _ _ _ _ 13 8 3 13 (hdigit rfl) (hdigit rfl) (hdigit rfl) (hdigit rfl)
  have hlow : IsUnit (Bytes.ofText "de00") 0xde00 :=
    @IsUnit.digits _ _ _ _ 13 14 0 0 (hdigit rfl) (hdigit rfl) (hdigit rfl) (hdigit rfl)
  have hsmile : IsString smile "😀" :=
    ⟨_, .cons (.pair hhigh hlow rfl rfl rfl) .nil, by decide⟩
  have hsymbol : IsMember symbol (.symbol "😀") := isMember_member (.symbol hsmile)
  have hprice : IsMember price (.price 7) := isMember_member (.price rfl)
  have hquantity : IsMember quantity (.quantity 3) := isMember_member (.quantity rfl)
  have hquotedAt : IsMember quotedAt (.quotedAt (-5)) := isMember_member (.quotedAt rfl)
  have hnote : IsMember note .other := by
    have hdigits : IsDigits [0x39, 0x39, 0x39] := ⟨by simp, by simp [isDigit]⟩
    have hone : IsWhole [0x31] := .digits rfl (by decide) (by simp)
    have hnumber : IsPhrase none (Bytes.ofText "1e999") :=
      .number (.parts (.head _) hone .none (.some (.inl rfl) (.head _) hdigits))
    have hempty : IsPhrase none (Bytes.ofText "[]") := .empty .list hnone
    have hitems : IsPhrase (some .list) (Bytes.ofText "1e999, []") :=
      .more (.list hnone) hnumber hnone (.last (.list hspace) hempty hnone)
    exact isMember_member (.other (by decide) (.bracket hitems))
  have hobject {b : Bytes} {ps : List Part} (h : IsMembers b ps) :=
    (ofMessage_told (.create ⟨List.replicate 16 0, rfl⟩ 0 (0x20 :: 0x7b :: (b ++ [0x7d])))).1 ps
      ⟨[0x20], _, [], hspace, .members h, hnone,
        congrArg (0x20 :: ·) (List.append_nil _).symm⟩
  have hlist : IsList _ ⟨"😀", 7, 3, -5⟩ :=
    .values (isSpaced_self hsmile) (isSpaced_self rfl) (isSpaced_self rfl) (isSpaced_self rfl)
  refine ⟨?_, (ofMessage_told _).2 _ (isSpaced_self hlist), ?_, ?_⟩
  · have h := hobject
      (.more hquotedAt (.more hnote (.more hprice (.more hquantity (.last hsymbol)))))
    exact (h.1 _).2 (by decide)
  · have h := hobject (.more hquotedAt (.more hprice (.last hsymbol)))
    exact h.2.2.1 ⟨"😀", 7, 3, -5⟩ (.quantity 3) (by decide)
  · have h := hobject
      (.more hquotedAt (.more hprice (.more hquantity (.more hsymbol (.last hprice)))))
    exact h.2.2.2 ⟨"😀", 7, 3, -5⟩ (.price 7) (by decide)

end MessageDepot.Quote
