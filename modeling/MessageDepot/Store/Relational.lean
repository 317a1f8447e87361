import MessageDepot.Codec
import MessageDepot.Store.Backend
import MessageDepot.Store.Table

/-!
# Stores in a database

A store works on the two tables of its prefix, on the rows of its region. Every write is one
statement; a group is put together from three reads, its marked rows, its unmarked rows in the
order of their clocks and then of their row numbers, and its least clock.
-/
namespace MessageDepot.Sql

/-- What is wrong with the settings of a store (`SqlError.Precondition`). -/
inductive SettingsFault where
  | databaseMissing
  | invalidPrefix
  deriving DecidableEq, Repr

namespace SettingsFault

def message : SettingsFault → String
  | databaseMissing => "a sqlite pool must be provided"
  | invalidPrefix => "table prefix may only contain ASCII letters, digits and underscores"

end SettingsFault

/-- Why an operation failed (`SqlError`). -/
inductive Error where
  | statement (fault : Fault)
  | encode (cause : EncodeError)
  | decode (cause : DecodeError)
  /-- A group has members and no clock. -/
  | consistency (groupKey : String)
  | precondition (fault : SettingsFault)
  deriving DecidableEq, Repr

namespace Error

def message : Error → String
  | statement _ => "sqlx error"
  | encode _ => "failed to encode message"
  | decode _ => "failed to decode stored message"
  | consistency groupKey => s!"could not locate created date for group {groupKey}"
  | precondition fault => s!"invalid configuration: {fault.message}"

end Error

/-- A view of the tables of a prefix for one region (`SqliteMessageStore`). -/
structure Store where
  region : String
  tablePrefix : String
  codec : Codec
  deriving DecidableEq, Repr

/-! ## Settings -/

/-- The region of a store that none was given for (`DEFAULT_REGION`). -/
def defaultRegion : String := "DEFAULT"

/-- The prefix of a store that none was given for (`DEFAULT_TABLE_PREFIX`). -/
def defaultTablePrefix : String := "INT_"

/-- What a store is built from; what is not given has a default, but for the database
(`SqliteMessageStoreBuilder`). -/
structure Settings where
  hasDatabase : Bool
  region : Option String
  tablePrefix : Option String
  codec : Option Codec
  deriving DecidableEq, Repr

/-- Whether a prefix can be spliced into statements. -/
def isPrefixSafe (tablePrefix : String) : Bool :=
  tablePrefix.toList.all fun c => c.isAlphanum || c = '_'

/-- The store of the settings, if these are sound (`SqliteMessageStoreBuilder.build`). -/
def Settings.build (s : Settings) : Except Error Store :=
  if !s.hasDatabase then .error (.precondition .databaseMissing)
  else
    let tablePrefix := s.tablePrefix.getD defaultTablePrefix
    if isPrefixSafe tablePrefix then
      .ok ⟨s.region.getD defaultRegion, tablePrefix, s.codec.getD Codec.standard⟩
    else .error (.precondition .invalidPrefix)

namespace Store

/-- The store of the default region, prefix and codec (`SqliteMessageStore.new`). -/
def standard : Store := ⟨defaultRegion, defaultTablePrefix, Codec.standard⟩

variable (s : Store)

/-- Makes the tables of the store's prefix, as far as they are missing (`initialize_schema`). -/
def createSchema (db : Database) : Except Error Database :=
  (db.createSchema s.tablePrefix).mapError .statement

/-- The message of a row, whose stored form may be missing and then counts as no bytes
(`decode_row`). -/
def decodeBytes (bytes : Option Bytes) : Except Error Message :=
  (s.codec.decode (bytes.getD [])).mapError .decode

/-- Rows of the message table. -/
def messageRows (db : Database) : Except Error (List MessageRow) :=
  match db.messages? s.tablePrefix with
  | some t => .ok t.rows
  | none => .error (.statement .statement)

/-- The member table. -/
def memberTable (db : Database) : Except Error MemberTable :=
  match db.members? s.tablePrefix with
  | some t => .ok t
  | none => .error (.statement .statement)

/-! ## Messages -/

/-- Whether a row holds the message of an identifier in this region. -/
def holds (id : Uuid) (r : MessageRow) : Bool := r.messageId = id.text && r.region = s.region

/-- The message of an identifier, if it is stored (`get_message`). -/
def getMessage (id : Uuid) (db : Database) : Except Error (Option Message) :=
  match s.messageRows db with
  | .error e => .error e
  | .ok rows =>
    match rows.find? (s.holds id) with
    | none => .ok none
    | some r => (s.decodeBytes r.bytes).map some

/-- Whether a message carries a stamp and equals the stored one: the look-up of `add_message`. -/
def isRedelivery (m : Message) (db : Database) : Except Error Bool :=
  if m.isSaved && m.createdDate?.isSome then (s.getMessage m.id db).map (· = some m)
  else .ok false

/-- Adds a message under a new stamp, unless it was delivered before (`add_message`). -/
def addMessage (now : Int64) (m : Message) (db : Database) : Except Error Message × Database :=
  match s.isRedelivery m db with
  | .error e => (.error e, db)
  | .ok true => (.ok m, db)
  | .ok false =>
    let stamped := m.markSaved now
    match s.codec.encode stamped with
    | .error e => (.error (.encode e), db)
    | .ok bytes =>
      match db.insertMessage s.tablePrefix ⟨m.id.text, s.region, some now, some bytes⟩ with
      | .error f => (.error (.statement f), db)
      | .ok db => (.ok stamped, db)

/-- Removes a message that can be read, and gives it if any row was there to be deleted
(`remove_message`). -/
def removeMessage (id : Uuid) (db : Database) : Except Error (Option Message) × Database :=
  match s.getMessage id db with
  | .error e => (.error e, db)
  | .ok none => (.ok none, db)
  | .ok (some m) =>
    match db.deleteMessages s.tablePrefix (s.holds id) with
    | .error f => (.error (.statement f), db)
    | .ok (affected, db) => (.ok (if affected = 0 then none else some m), db)

/-- The number of messages of the region (`message_count`). -/
def messageCount (db : Database) : Except Error Nat :=
  (s.messageRows db).map fun rows => (rows.filter (·.region = s.region)).length

/-! ### Rows that are read and rows that are deleted -/

theorem getMessage_of_table {db : Database} {t : MessageTable}
    (ht : db.messages? s.tablePrefix = some t) (id : Uuid) : s.getMessage id db =
      (t.rows.find? (s.holds id)).elim (.ok none) fun r => (s.decodeBytes r.bytes).map some := by
  rw [getMessage, messageRows, ht]
  cases h : t.rows.find? (s.holds id) <;> simp only [h] <;> rfl

theorem getMessage_of_no_table {db : Database} (ht : db.messages? s.tablePrefix = none)
    (id : Uuid) : s.getMessage id db = .error (.statement .statement) := by
  rw [getMessage, messageRows, ht]

/-- What is found was read from a row of the identifier. -/
theorem exists_row_of_getMessage {db : Database} {id : Uuid} {m : Message}
    (h : s.getMessage id db = .ok (some m)) : ∃ t, db.messages? s.tablePrefix = some t ∧
      ∃ r ∈ t.rows, s.holds id r ∧ s.codec.decode (r.bytes.getD []) = .ok m := by
  cases ht : db.messages? s.tablePrefix with
  | none =>
    rw [s.getMessage_of_no_table ht] at h
    cases h
  | some t =>
    rw [s.getMessage_of_table ht] at h
    cases hr : t.rows.find? (s.holds id) with
    | none =>
      rw [hr] at h
      cases h
    | some r =>
      refine ⟨t, rfl, r, List.mem_of_find?_eq_some hr, List.find?_some hr, ?_⟩
      rw [hr, Option.elim_some, decodeBytes] at h
      cases hd : s.codec.decode (r.bytes.getD []) with
      | error c =>
        rw [hd] at h
        cases h
      | ok x =>
        rw [hd] at h
        cases h
        rfl

/-- Rows are read and deleted by one test. So the row that a message was read from is deleted with
all others of the identifier, and no removal of a message that was found comes too late. -/
theorem removeMessage_of_found {db : Database} {id : Uuid} {m : Message}
    (h : s.getMessage id db = .ok (some m)) : ∃ t n db', db.messages? s.tablePrefix = some t ∧
      db' = db.put (messageTable s.tablePrefix)
        (.messages { t with rows := t.rows.filter fun r => !s.holds id r }) ∧
      db.deleteMessages s.tablePrefix (s.holds id) = .ok (n + 1, db') ∧
      s.removeMessage id db = (.ok (some m), db') := by
  obtain ⟨t, ht, r, hr, hholds, -⟩ := s.exists_row_of_getMessage h
  have hpos : 0 < (t.rows.filter (s.holds id)).length :=
    List.length_pos_of_mem (List.mem_filter.2 ⟨hr, hholds⟩)
  obtain ⟨n, hn⟩ := Nat.exists_eq_add_of_lt hpos
  rw [Nat.zero_add] at hn
  have hdelete : db.deleteMessages s.tablePrefix (s.holds id) =
      .ok (n + 1, db.put (messageTable s.tablePrefix)
        (.messages { t with rows := t.rows.filter fun r => !s.holds id r })) := by
    rw [Database.deleteMessages, ht]
    simp only [hn]
  refine ⟨t, n, _, ht, rfl, hdelete, ?_⟩
  rw [removeMessage, h]
  simp only [hdelete]
  rfl

/-! ## Groups -/

/-- Whether a row belongs to a group in this region. -/
def inGroup (group : Uuid) (r : MemberRow) : Bool :=
  r.groupKey = group.text && r.region = s.region

/-- Whether a row is the member of a group with an identifier. -/
def isMember (group id : Uuid) (r : MemberRow) : Bool := s.inGroup group r && r.messageId = id.text

/-- By clock and then by row number; a missing clock comes first. -/
def createdBefore (a b : Nat × MemberRow) : Bool :=
  match a.2.createdDate, b.2.createdDate with
  | none, none => a.1 ≤ b.1
  | none, some _ => true
  | some _, none => false
  | some x, some y => x < y || x = y && a.1 ≤ b.1

/-- The rows that `Statements.listMarked` gives. -/
def markedRows (group : Uuid) (t : MemberTable) : List MemberRow :=
  t.rows.filter fun r => s.inGroup group r && r.marked = some 1

/-- The rows that `Statements.listUnmarked` gives, in its order. -/
def unmarkedRows (group : Uuid) (t : MemberTable) : List MemberRow :=
  (sort createdBefore (t.entries.filter fun e => s.inGroup group e.2 && e.2.marked = some 0)).map
    (·.2)

/-- The least clock of all rows of a group, however they are marked: what
`Statements.minCreatedDate` gives. -/
def oldest? (group : Uuid) (t : MemberTable) : Option Int64 :=
  ((t.rows.filter (s.inGroup group)).filterMap (·.createdDate)).min?

def decodeRows (rows : List MemberRow) : Except Error (List Message) :=
  rows.mapM fun r => s.decodeBytes r.bytes

/-- Puts a group together from its rows, or gives the empty group when it has neither marked
nor unmarked ones: `get_message_group` on a table that is there. -/
def assemble (group : Uuid) (t : MemberTable) : Except Error Group :=
  let marked := s.markedRows group t
  let unmarked := s.unmarkedRows group t
  if marked = [] ∧ unmarked = [] then .ok (Group.empty group)
  else
    match s.oldest? group t with
    | none => .error (.consistency group.text)
    | some oldest =>
      match s.decodeRows unmarked with
      | .error e => .error e
      | .ok unmarked =>
        match s.decodeRows marked with
        | .error e => .error e
        | .ok marked => .ok ⟨group, unmarked, marked, some oldest⟩

/-- Loads a group (`get_message_group`). -/
def getGroup (group : Uuid) (db : Database) : Except Error Group :=
  match s.memberTable db with
  | .error e => .error e
  | .ok t => s.assemble group t

/-- The group as it is stored after a write, or the fault of the write. -/
def reload (group : Uuid) (db : Database) (written : Except Fault Database) :
    Except Error Group × Database :=
  match written with
  | .error f => (.error (.statement f), db)
  | .ok db => (s.getGroup group db, db)

/-- Adds an unmarked member (`add_message_to_group`). -/
def addToGroup (now : Int64) (group : Uuid) (m : Message) (db : Database) :
    Except Error Group × Database :=
  match s.codec.encode m with
  | .error e => (.error (.encode e), db)
  | .ok bytes =>
    s.reload group db (db.insertMember s.tablePrefix
      ⟨group.text, m.id.text, s.region, some now, some 0, none, some bytes⟩)

/-- Marks an unmarked row that `covers` picks, and notes the clock. -/
def mark (now : Int64) (covers : MemberRow → Bool) (r : MemberRow) : MemberRow :=
  if r.marked = some 0 && covers r then { r with marked := some 1, updatedDate := some now } else r

/-- Marks all members that are not (`mark_message_group`). -/
def markGroup (now : Int64) (group : Uuid) (db : Database) : Except Error Group × Database :=
  s.reload group db (db.updateMembers s.tablePrefix (·.update (mark now (s.inGroup group))))

/-- Marks one member if it is not (`mark_message_from_group`). -/
def markMessage (now : Int64) (group id : Uuid) (db : Database) : Except Error Group × Database :=
  s.reload group db (db.updateMembers s.tablePrefix (·.update (mark now (s.isMember group id))))

/-- Removes one member (`remove_message_from_group`). -/
def removeFromGroup (group id : Uuid) (db : Database) : Except Error Group × Database :=
  s.reload group db (db.updateMembers s.tablePrefix (·.delete (s.isMember group id)))

/-- Removes all members (`remove_message_group`). -/
def removeGroup (group : Uuid) (db : Database) : Except Error Unit × Database :=
  match db.updateMembers s.tablePrefix (·.delete (s.inGroup group)) with
  | .error f => (.error (.statement f), db)
  | .ok db => (.ok (), db)

/-- The keys that `iterate_groups` takes (`Statements.listGroupKeys`). -/
def groupKeys (db : Database) : Except Error (List String) :=
  (s.memberTable db).map fun t => t.groupKeys s.region

/-- The number of keys with rows (`message_group_count`). -/
def groupCount (db : Database) : Except Error Nat :=
  (s.memberTable db).map fun t =>
    (distinct ((t.rows.filter (·.region = s.region)).map (·.groupKey))).length

/-- A store in a database as a backend. -/
def backend : Backend Database Error where
  addMessage := s.addMessage
  getMessage := s.getMessage
  removeMessage := s.removeMessage
  messageCount := s.messageCount
  addToGroup := s.addToGroup
  getGroup := s.getGroup
  markGroup := s.markGroup
  markMessage := s.markMessage
  removeFromGroup := s.removeFromGroup
  removeGroup := s.removeGroup
  groupKeys := s.groupKeys
  groupCount := s.groupCount

end Store

end MessageDepot.Sql
