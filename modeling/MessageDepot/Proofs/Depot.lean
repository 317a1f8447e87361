import MessageDepot.Proofs.MemoryRefinement
import MessageDepot.Proofs.RelationalRefinement

/-!
# Depots

A depot is a family of stores on shared tables, all of them in memory or all of them in one
database. What is said of a depot holds of both kinds: from new tables, the stores of either
refine ledgers, one for each pair of tables, and a session of the depot is answered as the
session of its ledgers.

Results:
* `exists_represents`: the stores of a depot with new tables refine ledgers.
* `run_alike_ledgers`: sessions from new tables and from empty ledgers.
* `step_ledgers`: what one event does to the ledger of some tables.
-/
namespace MessageDepot

/-- What a store works on, the rows of one region in one pair of tables, and the codec that it
writes with. Tables in a database go by their prefix without the case of its letters; those in
memory have no name. -/
structure View where
  tables : List Char
  region : String
  codec : Codec

/-- Stores that share their tables. -/
inductive Depot where
  | memory (stores : Nat → Option Memory.Store)
  | database (stores : Nat → Option Sql.Store)

namespace Depot

/-- The shared tables. -/
def State : Depot → Type
  | memory _ => Memory.Tables
  | database _ => Sql.Database

/-- Why an operation fails. -/
def Failure : Depot → Type
  | memory _ => Memory.Error
  | database _ => Sql.Error

def backends : (D : Depot) → Nat → Option (Backend D.State D.Failure)
  | memory stores, i => (stores i).map (·.backend)
  | database stores, i => Sql.backends stores i

def view : Depot → Nat → Option View
  | memory stores, i => (stores i).map fun s => ⟨[], s.region, s.codec⟩
  | database stores, i =>
    (stores i).map fun s => ⟨Sql.foldName s.tablePrefix, s.region, s.codec⟩

/-- Tables as they are made, those of the prefixes of all stores among them, without rows. -/
def IsNew : (D : Depot) → D.State → Prop
  | memory _, t => t = Memory.Tables.empty
  | database stores, db => ∃ prefixes, Sql.Database.initialise prefixes = .ok db ∧
    ∀ i, ∀ s ∈ stores i, s.tablePrefix ∈ prefixes

/-- Whether two stores work on the same rows. -/
def shares (D : Depot) (i j : Nat) : Bool :=
  (D.view i).any fun v => (D.view j).any fun w => v.tables = w.tables && v.region = w.region

/-- The tables of a store hold the entries of a ledger. -/
def Holds : (D : Depot) → Nat → D.State → Ledger → Prop
  | memory _, _, t, L => Memory.Represents t L
  | database stores, i, db, L => ∀ s ∈ stores i, Sql.Holds s.tablePrefix db L

/-- The ledgers that the stores keep. -/
def ledgers (D : Depot) (i : Nat) : Option (Backend Sql.Ledgers Ledger.Refusal) :=
  (D.view i).map fun v => (Ledger.backend v.region v.codec).within v.tables

variable {D : Depot} {tables : D.State}

/-- A relation of tables and ledgers under which the stores refine the ledgers. -/
structure Represents (D : Depot) (R : D.State → Sql.Ledgers → Prop) : Prop where
  refines : ∀ i, Option.Rel (fun b c => Refines b c R) (D.backends i) (D.ledgers i)
  holds : ∀ {s W}, R s W → ∀ i, ∀ v ∈ D.view i, D.Holds i s (W v.tables)

/-- The stores of a depot with new tables refine ledgers that are empty at first. -/
theorem exists_represents (h : D.IsNew tables) :
    ∃ R, D.Represents R ∧ R tables fun _ => Ledger.empty := by
  cases D with
  | memory stores =>
    refine ⟨fun t W => Memory.Represents t (W []), ⟨fun i => ?_, fun r i v hv => ?_⟩, ?_⟩
    · simp only [backends, ledgers, view]
      cases stores i with
      | none => exact .none
      | some s => exact .some (s.refines_ledger.within [])
    · obtain ⟨s, -, rfl⟩ := Option.map_eq_some_iff.1 hv
      exact r
    · cases h
      exact Memory.represents_empty
  | database stores =>
    obtain ⟨prefixes, hdb, hp⟩ := h
    refine ⟨Sql.Represents prefixes, ⟨fun i => ?_, fun r i v hv => ?_⟩,
      Sql.represents_of_initialise hdb⟩
    · have hl : (database stores).ledgers i = Sql.ledgers stores i := by
        simp only [ledgers, view, Sql.ledgers, Option.map_map]
        rfl
      rw [hl]
      exact Sql.backends_refine_ledgers hp i
    · obtain ⟨s, hs, rfl⟩ := Option.map_eq_some_iff.1 hv
      intro s' hs'
      obtain rfl : s = s' := Option.some.inj (hs.symm.trans hs')
      exact r _ (hp i s hs)

/-- A session on new tables is answered as one on empty ledgers. -/
theorem run_alike_ledgers (h : D.IsNew tables) (clock : Int64) (es : List Event) :
    ∃ R, D.Represents R ∧
      List.Forall₂ Response.Alike ((Session.start tables clock).run D.backends es).1
        ((Session.start (fun _ => Ledger.empty) clock).run D.ledgers es).1 ∧
      Session.Related R ((Session.start tables clock).run D.backends es).2
        ((Session.start (fun _ => Ledger.empty) clock).run D.ledgers es).2 := by
  obtain ⟨R, hR, hnew⟩ := exists_represents h
  exact ⟨R, hR, Session.run_alike hR.refines es ⟨hnew, rfl, rfl⟩⟩

/-- An event leaves the ledger of some tables alone, unless it is a request to a store that works
on them. -/
theorem step_ledgers (D : Depot) (tables : List Char) (e : Event) (t : Session Sql.Ledgers) :
    let x := t.step D.ledgers e
    (x.2.state tables = t.state tables ∧
      ∀ i q, e = .request i q → ∀ v ∈ D.view i, v.tables ≠ tables) ∨
    ∃ i q v, e = .request i q ∧ D.view i = some v ∧ v.tables = tables ∧
      let y := (Ledger.backend v.region v.codec).perform t.clock q (t.state tables)
      x.2.state tables = y.2 ∧ x.1 = .ofExcept y.1 := by
  cases e with
  | clock now => exact .inl ⟨rfl, by simp⟩
  | request i q =>
    simp only [Session.step, ledgers]
    cases hv : D.view i with
    | none => exact .inl ⟨rfl, by simp [hv]⟩
    | some v =>
      simp only [Option.map_some, Backend.perform_within, Backend.putAt]
      by_cases hn : v.tables = tables
      · subst hn
        exact .inr ⟨i, q, v, rfl, hv, rfl, Function.update_self .., rfl⟩
      · refine .inl ⟨Function.update_of_ne (Ne.symm hn) .., ?_⟩
        intro i' q' he v' hv'
        cases he
        rw [hv] at hv'
        cases hv'
        exact hn
  | openStream i name =>
    refine .inl ⟨?_, by simp⟩
    simp only [Session.step]
    split
    · rfl
    · split <;> rfl
  | poll name =>
    refine .inl ⟨?_, by simp⟩
    simp only [Session.step]
    split
    · rfl
    · split
      · rfl
      · split <;> rfl

theorem shares_eq {i j : Nat} {v w : View} (hv : D.view i = some v) (hw : D.view j = some w) :
    D.shares i j = (decide (v.tables = w.tables) && decide (v.region = w.region)) := by
  simp [shares, hv, hw]

theorem exists_view {i : Nat} {B : Backend D.State D.Failure} (hB : D.backends i = some B) :
    ∃ v, D.view i = some v := by
  cases D with
  | memory stores =>
    obtain ⟨s, hs, -⟩ := Option.map_eq_some_iff.1 hB
    exact ⟨_, congrArg (Option.map _) hs⟩
  | database stores =>
    obtain ⟨s, hs, -⟩ := Option.map_eq_some_iff.1 hB
    exact ⟨_, congrArg (Option.map _) hs⟩

theorem Represents.refines_of_view {R : D.State → Sql.Ledgers → Prop} (hR : D.Represents R)
    {i : Nat} {v : View} {B : Backend D.State D.Failure} (hv : D.view i = some v)
    (hB : D.backends i = some B) :
    Refines B ((Ledger.backend v.region v.codec).within v.tables) R := by
  have hi := hR.refines i
  rw [hB, ledgers, hv] at hi
  cases hi with
  | some h => exact h

/-! ## A depot -/

/-- A new database with the tables of the default prefix. -/
def newDatabase : Sql.Database :=
  ⟨[(Sql.messageTable "INT_", .messages ⟨true, []⟩),
    (Sql.memberTable "INT_", .members ⟨true, true, []⟩)]⟩

/-- Two stores of one region, and one of another under a limit of 200 bytes. -/
def threeStores : Depot :=
  .database fun i => [⟨"DEFAULT", "INT_", .standard⟩, ⟨"DEFAULT", "int_", .standard⟩,
    ⟨"other", "INT_", .withMaxSize 200⟩][i]?

theorem isNew_threeStores : threeStores.IsNew newDatabase := by
  refine ⟨["INT_", "int_"], by decide +kernel, fun i s hs => ?_⟩
  have hm := List.mem_of_getElem? hs
  simp only [List.mem_cons, List.not_mem_nil, or_false] at hm
  rcases hm with rfl | rfl | rfl <;> simp

end Depot

end MessageDepot
