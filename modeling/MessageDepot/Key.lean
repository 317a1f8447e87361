import MessageDepot.Decimal
import MessageDepot.Uuid.Named
import MessageDepot.Uuid.Text

/-!
# Keys

Group keys come in many kinds and are all stored as the text of an identifier. A key that is
an identifier, or spells one, keeps it. Every other key is hashed into a named identifier:
text and derived bytes as they are, the other kinds behind a tag for their kind, so that the
number 42, the text `42` and the bytes of `42` are three keys.

Results:
* `identifier_text`: a stored text is a key for the identifier that it was made from.
* `canonical_eq_iff`: two keys are stored under one text exactly when their identifiers agree.
-/
namespace MessageDepot

/-- Namespace of text keys and of bytes hashed as they are (`KEY_NAMESPACE`). -/
def plainSpace : Uuid :=
  ⟨[0x3f, 0x1c, 0x5e, 0x8a, 0x27, 0x64, 0x5b, 0x0d, 0x9e, 0x41, 0xa2, 0x7c, 0x10, 0xd3, 0x6b,
    0x58], rfl⟩

/-- Namespace of keys hashed behind a tag (`TAGGED_KEY_NAMESPACE`). -/
def taggedSpace : Uuid :=
  ⟨[0x8b, 0x52, 0x0e, 0x4f, 0xc1, 0x9a, 0x5d, 0x37, 0xa6, 0x13, 0x4e, 0xf0, 0x72, 0x2d, 0x95,
    0xc4], rfl⟩

/-- A fixed-width integer type. -/
structure IntegerType where
  signed : Bool
  bits : Nat
  deriving DecidableEq, Repr

namespace IntegerType

/-- The numbers of the type. -/
def Holds (t : IntegerType) (i : Int) : Prop :=
  if t.signed then -(Nat.pow 2 (t.bits - 1) : Int) ≤ i ∧ i < Nat.pow 2 (t.bits - 1)
  else 0 ≤ i ∧ i < Nat.pow 2 t.bits

instance (t : IntegerType) (i : Int) : Decidable (t.Holds i) := by
  unfold Holds; infer_instance

end IntegerType

/-- A value that names a group, of one of the kinds of `StoreKey`. -/
inductive Key where
  /-- Text; a spelling of an identifier stands for that identifier. -/
  | text (s : String)
  | uuid (u : Uuid)
  | bytes (b : Bytes)
  | integer (type : IntegerType) (value : Int) (inRange : type.Holds value)
  | char (c : Char)
  | bool (b : Bool)
  /-- Bytes of a kind that the caller names (`derive_tagged_uuid`). -/
  | tagged (tag : String) (b : Bytes)
  /-- Bytes hashed as they are (`derive_uuid`). -/
  | derived (b : Bytes)
  /-- An instrument symbol, in which the case of ASCII letters does not count. -/
  | symbol (s : String)

namespace Key

/-- Where a key's identifier comes from. -/
inductive Source where
  | identity (u : Uuid)
  | hashed (space : Uuid) (name : Bytes)
  deriving DecidableEq

/-- A name with its tag in front, as `derive_tagged_uuid` joins them. -/
def taggedName (tag : String) (b : Bytes) : Bytes := Bytes.ofText tag ++ 0x3a :: b

/-- The identifier a key is, or what is hashed into it. The cases are those of `to_store_uuid`. -/
def source : Key → Source
  | text s =>
    match Uuid.ofText? s with
    | some u => .identity u
    | none => .hashed plainSpace (Bytes.ofText s)
  | uuid u => .identity u
  | bytes b => .hashed taggedSpace (taggedName "bytes" b)
  | integer _ i _ => .hashed taggedSpace (taggedName "int" (Bytes.ofText (Decimal.text i)))
  | char c => .hashed taggedSpace (taggedName "char" (Bytes.ofText (String.singleton c)))
  | bool b => .hashed taggedSpace (taggedName "bool" (Bytes.ofText (if b then "true" else "false")))
  | tagged tag b => .hashed taggedSpace (taggedName tag b)
  | derived b => .hashed plainSpace b
  | symbol s => .hashed plainSpace (Bytes.ofText (s.map Char.toUpper))

/-- The identifier itself, or the one that `derive_uuid` or `derive_tagged_uuid` makes. -/
def Source.uuid : Source → Uuid
  | .identity u => u
  | .hashed space name => Uuid.named space name

/-- What SHA-1 is fed for a key that is hashed. -/
def Source.hashInput? : Source → Option Bytes
  | .identity _ => none
  | .hashed space name => some (space.bytes ++ name)

/-- The identifier a key stands for (`StoreKey.to_store_uuid`). -/
def identifier (k : Key) : Uuid := k.source.uuid

/-- The text under which a key is stored (`canonical_key`). -/
def canonical (k : Key) : String := k.identifier.text

/-- The stored text of a key stands for the same identifier. -/
@[simp] theorem identifier_text (u : Uuid) : (text u.text).identifier = u := by
  simp [identifier, source, Source.uuid]

theorem canonical_eq_iff {k l : Key} : k.canonical = l.canonical ↔ k.identifier = l.identifier :=
  ⟨Uuid.text_injective, congrArg Uuid.text⟩

end Key

end MessageDepot
