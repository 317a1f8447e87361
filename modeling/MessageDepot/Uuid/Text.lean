import MessageDepot.Hex
import MessageDepot.Uuid.Basic

/-!
# Identifiers as text

An identifier is written as 32 lower-case hex digits in groups of 8, 4, 4, 4 and 12 with
hyphens between. Four spellings are read, with hex digits of either case: the 32 digits
alone, the hyphenated groups, those in braces, and those after `urn:uuid:`.

Results:
* `join?_grouped`: the digits come back from their groups.
* `ofText?_text`, `text_injective`: every identifier is read back from its text.
-/
namespace MessageDepot.Uuid

/-- Sizes of all groups of digits but the last, which takes the rest. -/
def groupSizes : List Nat := [8, 4, 4, 4]

/-- Puts a hyphen after each group of the given sizes. -/
def grouped : List Nat → List Char → List Char
  | [], cs => cs
  | n :: ns, cs => cs.take n ++ '-' :: grouped ns (cs.drop n)

/-- Takes out the hyphens after the groups of the given sizes. -/
def join? : List Nat → List Char → Option (List Char)
  | [], cs => some cs
  | n :: ns, cs =>
    match cs.drop n with
    | '-' :: rest => (join? ns rest).map (cs.take n ++ ·)
    | _ => none

theorem join?_grouped (ns : List Nat) (cs : List Char) (h : ns.foldr (· + ·) 0 ≤ cs.length) :
    join? ns (grouped ns cs) = some cs := by
  induction ns generalizing cs with
  | nil => rfl
  | cons n ns ih =>
    simp only [List.foldr_cons] at h
    have hn : n ≤ cs.length := by omega
    have e : (grouped (n :: ns) cs).drop n = '-' :: grouped ns (cs.drop n) := by
      rw [grouped, List.drop_append_of_le_length (by simp; omega)]
      simp
    have t : (grouped (n :: ns) cs).take n = cs.take n := by
      rw [grouped, List.take_append_of_le_length (by simp; omega), List.take_take, Nat.min_self]
    simp only [join?, e, t]
    rw [ih _ (by simp; omega)]
    simp

/-- The hyphenated lower-case characters. -/
def chars (u : Uuid) : List Char := grouped groupSizes (Hex.ofBytes u.bytes)

/-- The hyphenated lower-case text (`hyphenated`). -/
def text (u : Uuid) : String := String.ofList u.chars

/-- An identifier from 32 hex digits. -/
def ofHex? (cs : List Char) : Option Uuid :=
  match Hex.bytes? cs with
  | some b => if h : b.length = 16 then some ⟨b, h⟩ else none
  | none => none

/-- An identifier from hyphenated groups of digits. -/
def ofGrouped? (cs : List Char) : Option Uuid :=
  if cs.length = 36 then (join? groupSizes cs).bind ofHex? else none

/-- What comes before the groups in the long spelling. -/
def urnScheme : List Char := "urn:uuid:".toList

/-- An identifier from the characters of any of its spellings. -/
def ofChars? (cs : List Char) : Option Uuid :=
  if cs.length = 32 then ofHex? cs
  else if cs.length = 36 then ofGrouped? cs
  else if cs.length = 38 then
    if cs.head? = some '{' ∧ cs.getLast? = some '}' then ofGrouped? cs.tail.dropLast else none
  else if cs.length = 45 then
    if (cs.take 9).map Char.toLower = urnScheme then ofGrouped? (cs.drop 9) else none
  else none

/-- An identifier from any of its spellings (`Uuid.parse_str`). -/
def ofText? (s : String) : Option Uuid := ofChars? s.toList

theorem ofHex?_ofBytes (u : Uuid) : ofHex? (Hex.ofBytes u.bytes) = some u := by
  simp [ofHex?, u.length_bytes]

theorem length_chars (u : Uuid) : u.chars.length = 36 := by
  simp [chars, groupSizes, grouped, u.length_bytes]

@[simp] theorem ofText?_text (u : Uuid) : ofText? u.text = some u := by
  have h := length_chars u
  simp only [ofText?, text, String.toList_ofList, ofChars?, h, ofGrouped?]
  rw [chars, join?_grouped _ _ (by simp [groupSizes, u.length_bytes])]
  simp [ofHex?_ofBytes]

theorem text_injective {u v : Uuid} (h : u.text = v.text) : u = v :=
  Option.some.inj (by rw [← ofText?_text u, h, ofText?_text])

@[simp] theorem text_inj {u v : Uuid} : u.text = v.text ↔ u = v := ⟨text_injective, congrArg text⟩

end MessageDepot.Uuid
