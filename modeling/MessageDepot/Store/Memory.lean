import MessageDepot.Codec
import MessageDepot.Sorting
import MessageDepot.Store.Backend

/-!
# Stores in memory

The tables are two lists in the order of insertion, shared by the stores of all regions.
Messages are kept in their stored form and read back from it.
-/
namespace MessageDepot.Memory

/-- A stored message: an entry of the map from region and identifier to stored form. -/
structure MessageRow where
  region : String
  messageId : String
  bytes : Bytes
  deriving DecidableEq, Repr

/-- A member of a group (`GroupRow`). -/
structure MemberRow where
  groupKey : String
  messageId : String
  region : String
  createdDate : Int64
  marked : Bool
  bytes : Bytes
  deriving DecidableEq, Repr

structure Tables where
  messages : List MessageRow
  members : List MemberRow
  deriving DecidableEq, Repr

/-- Why an operation failed (`MockStoreError`). -/
inductive Error where
  /-- There is a row for the message already. -/
  | rowExists (messageId : String)
  | encode (cause : EncodeError)
  | decode (cause : DecodeError)
  deriving DecidableEq, Repr

namespace Error

def message : Error → String
  | rowExists messageId => s!"row {messageId} already exists"
  | encode _ => "failed to encode message"
  | decode _ => "failed to decode stored message"

end Error

def Tables.empty : Tables := ⟨[], []⟩

/-- A view of the tables for one region (`MockMessageStore`). -/
structure Store where
  region : String
  codec : Codec
  deriving DecidableEq, Repr

namespace Store

variable (s : Store)

/-! ## Messages -/

/-- Whether a row holds the message of an identifier in this region. -/
def holds (id : Uuid) (r : MessageRow) : Bool := r.region = s.region && r.messageId = id.text

def find? (id : Uuid) (t : Tables) : Option MessageRow := t.messages.find? (s.holds id)

def decodeRow (r : MessageRow) : Except Error Message := (s.codec.decode r.bytes).mapError .decode

/-- Adds a message under a new stamp (`add_message`). A message that carries a stamp and equals
the stored one was delivered before, and is answered as it is. -/
def addMessage (now : Int64) (m : Message) (t : Tables) : Except Error Message × Tables :=
  match s.find? m.id t with
  | some row =>
    if m.isSaved && m.createdDate?.isSome then
      match s.decodeRow row with
      | .error e => (.error e, t)
      | .ok stored =>
        if stored = m then (.ok m, t) else (.error (.rowExists m.id.text), t)
    else (.error (.rowExists m.id.text), t)
  | none =>
    let stamped := m.markSaved now
    match s.codec.encode stamped with
    | .error e => (.error (.encode e), t)
    | .ok bytes =>
      (.ok stamped, { t with messages := t.messages ++ [⟨s.region, m.id.text, bytes⟩] })

/-- The message of an identifier, if it is stored (`get_message`). -/
def getMessage (id : Uuid) (t : Tables) : Except Error (Option Message) :=
  match s.find? id t with
  | none => .ok none
  | some row => (s.decodeRow row).map some

/-- Removes a message and gives it (`remove_message`); the row goes even when it cannot be
read. -/
def removeMessage (id : Uuid) (t : Tables) : Except Error (Option Message) × Tables :=
  (s.getMessage id t, { t with messages := t.messages.filter fun r => !s.holds id r })

/-- The number of messages of the region (`message_count`). -/
def messageCount (t : Tables) : Nat := (t.messages.filter (·.region = s.region)).length

/-! ## Groups -/

/-- Whether a row is a member of a group in this region. -/
def inGroup (group : Uuid) (r : MemberRow) : Bool :=
  r.groupKey = group.text && r.region = s.region

/-- Whether a row is the member of a group with an identifier. -/
def isMember (group id : Uuid) (r : MemberRow) : Bool := s.inGroup group r && r.messageId = id.text

def decodeMember (r : MemberRow) : Except Error (Bool × Message) :=
  match s.codec.decode r.bytes with
  | .error e => .error (.decode e)
  | .ok m => .ok (r.marked, m)

/-- Loads a group, members in the order of their clocks and then of their insertion
(`load_group`). -/
def getGroup (group : Uuid) (t : Tables) : Except Error Group :=
  let rows := t.members.filter (s.inGroup group)
  match (rows.map (·.createdDate)).min? with
  | none => .ok (Group.empty group)
  | some oldest =>
    let rows := sort (fun a b => a.createdDate ≤ b.createdDate) rows
    match rows.mapM s.decodeMember with
    | .error e => .error e
    | .ok members =>
      .ok ⟨group, (members.filter (!·.1)).map (·.2), (members.filter (·.1)).map (·.2), some oldest⟩

/-- The group as it is stored after a change of its rows. -/
def reload (group : Uuid) (t : Tables) : Except Error Group × Tables := (s.getGroup group t, t)

/-- Adds an unmarked member, unless it is one already (`add_message_to_group`). -/
def addToGroup (now : Int64) (group : Uuid) (m : Message) (t : Tables) :
    Except Error Group × Tables :=
  if t.members.any (s.isMember group m.id) then (.error (.rowExists m.id.text), t)
  else
    match s.codec.encode m with
    | .error e => (.error (.encode e), t)
    | .ok bytes =>
      s.reload group
        { t with members := t.members ++ [⟨group.text, m.id.text, s.region, now, false, bytes⟩] }

/-- Marks all members (`mark_message_group`, through `mark`). -/
def markGroup (group : Uuid) (t : Tables) : Except Error Group × Tables :=
  s.reload group
    { t with members := t.members.map fun r => if s.inGroup group r then { r with marked := true } else r }

/-- Marks one member (`mark_message_from_group`, through `mark`). -/
def markMessage (group id : Uuid) (t : Tables) : Except Error Group × Tables :=
  s.reload group
    { t with members := t.members.map fun r => if s.isMember group id r then { r with marked := true } else r }

/-- Removes one member (`remove_message_from_group`). -/
def removeFromGroup (group id : Uuid) (t : Tables) : Except Error Group × Tables :=
  s.reload group { t with members := t.members.filter fun r => !s.isMember group id r }

/-- Removes all members (`remove_message_group`). -/
def removeGroup (group : Uuid) (t : Tables) : Tables :=
  { t with members := t.members.filter fun r => !s.inGroup group r }

/-- The keys of the region in ascending order, as `iterate_groups` takes them. -/
def groupKeys (t : Tables) : List String :=
  sort (fun a b => a ≤ b) (distinct ((t.members.filter (·.region = s.region)).map (·.groupKey)))

/-- A store in memory as a backend. -/
def backend : Backend Tables Error where
  addMessage := s.addMessage
  getMessage := s.getMessage
  removeMessage := s.removeMessage
  messageCount t := .ok (s.messageCount t)
  addToGroup := s.addToGroup
  getGroup := s.getGroup
  markGroup _ := s.markGroup
  markMessage _ := s.markMessage
  removeFromGroup := s.removeFromGroup
  removeGroup group t := (.ok (), s.removeGroup group t)
  groupKeys t := .ok (s.groupKeys t)
  groupCount t := .ok (s.groupKeys t).length

end Store

end MessageDepot.Memory
