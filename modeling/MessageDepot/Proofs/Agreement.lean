import MessageDepot.Proofs.MemoryRefinement
import MessageDepot.Proofs.RelationalRefinement

/-!
# Stores in memory stand in for stores in a database

Stores in memory and stores in a database refine the same ledger, so they refine each other: a
session has the same answers from both, whichever regions its stores have and however its clock
moves. Only the order of marked members and the kind of an error may differ.

Results:
* `Memory.Store.refines_database`: the operations, one by one.
* `memory_answers_like_database`: whole sessions from new tables.
-/
namespace MessageDepot

/-- Stores of some regions in memory. -/
def memoryStores (regions : Nat → Option String) (i : Nat) :
    Option (Backend Memory.Tables Memory.Error) :=
  (regions i).map fun region => (Memory.Store.mk region .standard).backend

/-- Stores of some regions on the tables of one prefix. -/
def databaseStores (tablePrefix : String) (regions : Nat → Option String) :
    Nat → Option (Backend Sql.Database Sql.Error) :=
  Sql.backends fun i => (regions i).map fun region => ⟨region, tablePrefix, .standard⟩

/-- Tables in memory and those of a prefix in a database that stand for one ledger. -/
def SameTables (tablePrefix : String) (t : Memory.Tables) (db : Sql.Database) : Prop :=
  ∃ W : Sql.Ledgers, Memory.Represents t (W (Sql.foldName tablePrefix)) ∧
    Sql.Represents [tablePrefix] db W

theorem Memory.Store.refines_database (region tablePrefix : String) (codec : Codec) :
    Refines (Memory.Store.mk region codec).backend (Sql.Store.mk region tablePrefix codec).backend
      (SameTables tablePrefix) :=
  ((Memory.Store.mk region codec).refines_ledger.within (Sql.foldName tablePrefix)).comp
    ((Sql.Store.mk region tablePrefix codec).refines_ledger (by simp))

theorem sameTables_of_createSchema {tablePrefix : String} {db : Sql.Database}
    (h : Sql.Database.empty.createSchema tablePrefix = .ok db) :
    SameTables tablePrefix Memory.Tables.empty db := by
  have hi : Sql.Database.initialise [tablePrefix] = .ok db := by
    rw [Sql.Database.initialise, List.foldlM_cons, h]
    rfl
  exact ⟨fun _ => Ledger.empty, Memory.represents_empty, Sql.represents_of_initialise hi⟩

/-- Both kinds of stores answer every session alike, step by step. -/
theorem memory_answers_like_database {tablePrefix : String} {db : Sql.Database}
    (h : Sql.Database.empty.createSchema tablePrefix = .ok db) (regions : Nat → Option String)
    (clock : Int64) (es : List Event) :
    List.Forall₂ Response.Alike
      ((Session.start Memory.Tables.empty clock).run (memoryStores regions) es).1
      ((Session.start db clock).run (databaseStores tablePrefix regions) es).1 := by
  have hstores (i : Nat) : Option.Rel (fun b c => Refines b c (SameTables tablePrefix))
      (memoryStores regions i) (databaseStores tablePrefix regions i) := by
    simp only [memoryStores, databaseStores, Sql.backends]
    cases regions i with
    | none => exact .none
    | some region => exact .some (Memory.Store.refines_database region tablePrefix .standard)
  exact (Session.run_alike hstores es ⟨sameTables_of_createSchema h, rfl, rfl⟩).1

/-- Two members at falling clocks, one of them marked, an open stream, and expiry. -/
theorem memory_answers_like_standard_database :
    let db : Sql.Database := ⟨[(Sql.messageTable "INT_", .messages ⟨true, []⟩),
      (Sql.memberTable "INT_", .members ⟨true, true, []⟩)]⟩
    let m : Message := .create plainSpace 0 [1]
    let n : Message := .create taggedSpace 0 []
    let regions : Nat → Option String := fun i => ["DEFAULT", "other"][i]?
    let es : List Event := [.request 0 (.addToGroup (.text "g") m), .openStream 0 "s", .clock (-3),
      .request 0 (.addToGroup (.text "g") n), .request 0 (.markMessage (.text "g") m), .poll "s",
      .request 1 (.addToGroup (.text "g") m), .request 0 (.expire ⟨0, 0, by decide⟩)]
    Sql.Database.empty.createSchema "INT_" = .ok db ∧
      List.Forall₂ Response.Alike
        ((Session.start Memory.Tables.empty 7).run (memoryStores regions) es).1
        ((Session.start db 7).run (databaseStores "INT_" regions) es).1 :=
  ⟨rfl, memory_answers_like_database rfl _ _ _⟩

end MessageDepot
