import MessageDepot.Bytes
import MessageDepot.Sorting

/-!
# Tables of a database

A database holds tables under names in which the case of ASCII letters does not count. For
each prefix there are two, one for messages and one for members of groups. A table is a list
of rows; a keyed table refuses missing values and a second row under one key, a loose one takes
every row. Columns that may be missing are optional. Members lie under row numbers: a new row
gets the number after the largest one there, so the number of a row that was the last and was
deleted is given again.

Results:
* `messageTable_ne_memberTable`: no message table shares its name with a member table.
-/
namespace MessageDepot.Sql

/-- Why a statement failed. -/
inductive Fault where
  /-- The statement does not parse, or names no table that it may use. -/
  | statement
  /-- A row would repeat a primary key. -/
  | duplicateKey
  /-- A row lacks a value that its table asks for. -/
  | missingValue
  deriving DecidableEq, Repr

namespace Fault

/-- The result code of the database. -/
def code : Fault → String
  | statement => "1"
  | duplicateKey => "1555"
  | missingValue => "1299"

end Fault

/-! ## Rows -/

/-- A row of `MESSAGE`: a stored message. -/
structure MessageRow where
  messageId : String
  region : String
  createdDate : Option Int64
  bytes : Option Bytes
  deriving DecidableEq, Repr

/-- A row of `MESSAGE_GROUP`: a member of a group. `marked` is 0 or 1 in every row that a store
writes. -/
structure MemberRow where
  groupKey : String
  messageId : String
  region : String
  createdDate : Option Int64
  marked : Option Int64
  updatedDate : Option Int64
  bytes : Option Bytes
  deriving DecidableEq, Repr

namespace MessageRow

/-- Whether two rows have the same primary key. -/
def sameKey (a b : MessageRow) : Bool := a.messageId = b.messageId && a.region = b.region

/-- Whether no value is missing that must be there. -/
def isComplete (r : MessageRow) : Bool := r.createdDate.isSome && r.bytes.isSome

end MessageRow

namespace MemberRow

/-- Whether two rows have the same primary key. -/
def sameKey (a b : MemberRow) : Bool :=
  a.groupKey = b.groupKey && a.messageId = b.messageId && a.region = b.region

/-- Whether no value is missing that must be there. -/
def isComplete (r : MemberRow) : Bool :=
  r.createdDate.isSome && r.marked.isSome && r.bytes.isSome

end MemberRow

/-! ## Tables -/

/-- Messages, with the primary key and the constraints of the schema or without them. -/
structure MessageTable where
  keyed : Bool
  rows : List MessageRow
  deriving DecidableEq, Repr

/-- Members, with an index over region and group key or without it. -/
structure MemberTable where
  keyed : Bool
  indexed : Bool
  /-- Rows with their numbers, in the order of the numbers. -/
  entries : List (Nat × MemberRow)
  deriving DecidableEq, Repr

namespace MessageTable

def insert (t : MessageTable) (r : MessageRow) : Except Fault MessageTable :=
  if t.keyed && !r.isComplete then .error .missingValue
  else if t.keyed && t.rows.any r.sameKey then .error .duplicateKey
  else .ok { t with rows := t.rows ++ [r] }

end MessageTable

namespace MemberTable

def rows (t : MemberTable) : List MemberRow := t.entries.map (·.2)

/-- One more than the largest row number, which is 0 in an empty table. -/
def nextRowid (t : MemberTable) : Nat := (t.entries.map (·.1)).foldr max 0 + 1

def insert (t : MemberTable) (r : MemberRow) : Except Fault MemberTable :=
  if t.keyed && !r.isComplete then .error .missingValue
  else if t.keyed && t.rows.any r.sameKey then .error .duplicateKey
  else .ok { t with entries := t.entries ++ [(t.nextRowid, r)] }

/-- Takes out the rows that `gone` picks; the others keep their numbers. -/
def delete (t : MemberTable) (gone : MemberRow → Bool) : MemberTable :=
  { t with entries := t.entries.filter fun e => !gone e.2 }

/-- Rewrites every row in place. -/
def update (t : MemberTable) (f : MemberRow → MemberRow) : MemberTable :=
  { t with entries := t.entries.map fun e => (e.1, f e.2) }

/-- The group keys of a region, each once: ascending through the index, else in the order of
their first rows. -/
def groupKeys (t : MemberTable) (region : String) : List String :=
  let keys := distinct ((t.rows.filter (·.region = region)).map (·.groupKey))
  if t.indexed then sort (fun a b => a ≤ b) keys else keys

end MemberTable

inductive Table where
  | messages (t : MessageTable)
  | members (t : MemberTable)
  deriving DecidableEq, Repr

/-! ## Names -/

/-- A table name with the case of its ASCII letters taken out. -/
def foldName (name : String) : List Char := name.toList.map Char.toLower

def messageTable (tablePrefix : String) : List Char := foldName (tablePrefix ++ "MESSAGE")

def memberTable (tablePrefix : String) : List Char := foldName (tablePrefix ++ "MESSAGE_GROUP")

theorem messageTable_eq (p : String) : messageTable p = foldName p ++ "message".toList := by
  simp [messageTable, foldName]

theorem memberTable_eq (p : String) : memberTable p = foldName p ++ "message_group".toList := by
  simp [memberTable, foldName]

/-- One ends in `E` and the other in `P`. -/
theorem messageTable_ne_memberTable (p q : String) : messageTable p ≠ memberTable q := by
  intro h
  have := congrArg List.getLast? h
  simp [messageTable_eq, memberTable_eq] at this

/-- Whether tables can be made under a prefix: a name starts with no digit, and those that start
with `sqlite_` are reserved. -/
def isCreatable (tablePrefix : String) : Bool :=
  !(messageTable tablePrefix).head?.any Char.isDigit
    && !"sqlite_".toList.isPrefixOf (messageTable tablePrefix)

/-! ## Databases -/

structure Database where
  tables : List (List Char × Table)
  deriving DecidableEq, Repr

namespace Database

def empty : Database := ⟨[]⟩

def messages? (db : Database) (tablePrefix : String) : Option MessageTable :=
  match db.tables.lookup (messageTable tablePrefix) with
  | some (.messages t) => some t
  | _ => none

def members? (db : Database) (tablePrefix : String) : Option MemberTable :=
  match db.tables.lookup (memberTable tablePrefix) with
  | some (.members t) => some t
  | _ => none

/-- Puts a table in the place of the one of its name. -/
def put (db : Database) (name : List Char) (t : Table) : Database :=
  ⟨db.tables.map fun e => if e.1 = name then (name, t) else e⟩

/-- Adds a table unless there is one of its name. -/
def create (db : Database) (name : List Char) (t : Table) : Database :=
  if (db.tables.lookup name).isSome then db else ⟨db.tables ++ [(name, t)]⟩

/-- Puts the index over region and group key on the member table of a prefix. -/
def createIndex (db : Database) (tablePrefix : String) : Database :=
  match db.members? tablePrefix with
  | some t => db.put (memberTable tablePrefix) (.members { t with indexed := true })
  | none => db

/-- Makes the two keyed tables of a prefix and the index, as far as they are missing: the
statements of `SCHEMA`. -/
def createSchema (db : Database) (tablePrefix : String) : Except Fault Database :=
  if isCreatable tablePrefix then
    .ok (((db.create (messageTable tablePrefix) (.messages ⟨true, []⟩)).create
      (memberTable tablePrefix) (.members ⟨true, false, []⟩)).createIndex tablePrefix)
  else .error .statement

/-- Makes the two tables of a prefix without keys, constraints and index. -/
def createLoose (db : Database) (tablePrefix : String) : Database :=
  (db.create (messageTable tablePrefix) (.messages ⟨false, []⟩)).create
    (memberTable tablePrefix) (.members ⟨false, false, []⟩)

/-- Inserts a row into the message table of a prefix. -/
def insertMessage (db : Database) (tablePrefix : String) (r : MessageRow) : Except Fault Database :=
  match db.messages? tablePrefix with
  | none => .error .statement
  | some t => (t.insert r).map fun t => db.put (messageTable tablePrefix) (.messages t)

/-- Inserts a row into the member table of a prefix. -/
def insertMember (db : Database) (tablePrefix : String) (r : MemberRow) : Except Fault Database :=
  match db.members? tablePrefix with
  | none => .error .statement
  | some t => (t.insert r).map fun t => db.put (memberTable tablePrefix) (.members t)

/-- Deletes the rows of the message table of a prefix that `gone` picks, and counts them. -/
def deleteMessages (db : Database) (tablePrefix : String) (gone : MessageRow → Bool) :
    Except Fault (Nat × Database) :=
  match db.messages? tablePrefix with
  | none => .error .statement
  | some t => .ok ((t.rows.filter gone).length, db.put (messageTable tablePrefix) (.messages
      { t with rows := t.rows.filter fun r => !gone r }))

/-- Changes the member table of a prefix. -/
def updateMembers (db : Database) (tablePrefix : String) (f : MemberTable → MemberTable) :
    Except Fault Database :=
  match db.members? tablePrefix with
  | none => .error .statement
  | some t => .ok (db.put (memberTable tablePrefix) (.members (f t)))

end Database

end MessageDepot.Sql
