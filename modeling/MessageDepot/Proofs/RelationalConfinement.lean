import MessageDepot.Proofs.Confinement
import MessageDepot.Proofs.StableSort
import MessageDepot.Proofs.Tables
import MessageDepot.Store.Relational

/-!
# Stores in a database keep to the rows of their region

A place in a database is the rows of a region in the table of a name. The rows of all regions of a
member table take their numbers from one sequence, so the numbers of a region's rows tell of rows
elsewhere. What a store answers depends only on how they compare: two tables are alike when they
have the same rows in the same order, with numbers that compare alike (`NumberedAlike`). New
numbers are above all others, so an insertion keeps two tables alike; a group is ordered by clock
and number, which comes out the same in both.

Results:
* `NumberedAlike.map_sort_eq`: rows with numbers that compare alike are ordered alike.
* `confined_change`: a change that keeps to the rows of a region is confined to them.
* `Store.confined`: a store in a database is confined to the rows of its region in its tables.
-/
namespace MessageDepot.Sql

variable {α : Type}

/-! ## Rows with numbers -/

/-- The same rows in the same order, with numbers that compare alike. -/
def NumberedAlike (es fs : List (Nat × MemberRow)) : Prop :=
  ∃ zs : List (Nat × Nat × MemberRow), zs.Pairwise (fun a b => a.1 ≤ b.1 ↔ a.2.1 ≤ b.2.1) ∧
    es = zs.map (fun z => (z.1, z.2.2)) ∧ fs = zs.map fun z => (z.2.1, z.2.2)

namespace NumberedAlike

theorem refl (es : List (Nat × MemberRow)) : NumberedAlike es es :=
  ⟨es.map fun e => (e.1, e.1, e.2), List.pairwise_map.2 (List.pairwise_of_forall fun _ _ => .rfl),
    by simp [Function.comp_def], by simp [Function.comp_def]⟩

variable {es fs : List (Nat × MemberRow)} (h : NumberedAlike es fs)
include h

theorem map_snd_eq : es.map (·.2) = fs.map (·.2) := by
  obtain ⟨zs, -, rfl, rfl⟩ := h
  simp

theorem filter (p : MemberRow → Bool) :
    NumberedAlike (es.filter fun e => p e.2) (fs.filter fun e => p e.2) := by
  obtain ⟨zs, hzs, rfl, rfl⟩ := h
  exact ⟨zs.filter fun z => p z.2.2, hzs.filter _, List.filter_map, List.filter_map⟩

theorem map (f : MemberRow → MemberRow) :
    NumberedAlike (es.map fun e => (e.1, f e.2)) (fs.map fun e => (e.1, f e.2)) := by
  obtain ⟨zs, hzs, rfl, rfl⟩ := h
  exact ⟨zs.map fun z => (z.1, z.2.1, f z.2.2), List.pairwise_map.2 hzs, by simp, by simp⟩

/-- A row goes behind all others in both, under numbers above theirs. -/
theorem append {m n : Nat} (hm : ∀ e ∈ es, e.1 < m) (hn : ∀ e ∈ fs, e.1 < n) (row : MemberRow) :
    NumberedAlike (es ++ [(m, row)]) (fs ++ [(n, row)]) := by
  obtain ⟨zs, hzs, rfl, rfl⟩ := h
  refine ⟨zs ++ [(m, n, row)], List.pairwise_append.2 ⟨hzs, by simp, fun z hz y hy => ?_⟩,
    by simp, by simp⟩
  rw [List.mem_singleton.1 hy]
  have hzm := hm _ (List.mem_map_of_mem hz)
  have hzn := hn _ (List.mem_map_of_mem hz)
  simp only at hzm hzn ⊢
  omega

/-- Ordering by clock and number only compares the numbers. -/
theorem map_sort_eq : (sort Store.createdBefore es).map (·.2) =
    (sort Store.createdBefore fs).map (·.2) := by
  obtain ⟨zs, hzs, rfl, rfl⟩ := h
  let byFirst (a b : Nat × Nat × MemberRow) := Store.createdBefore (a.1, a.2.2) (b.1, b.2.2)
  let bySecond (a b : Nat × Nat × MemberRow) := Store.createdBefore (a.2.1, a.2.2) (b.2.1, b.2.2)
  have hcompare : zs.Pairwise fun a b => byFirst a b = bySecond a b := by
    refine hzs.imp fun {a b} hab => ?_
    simp only [byFirst, bySecond, Store.createdBefore, hab]
  have hfirst : (sort byFirst zs).map (fun z => (z.1, z.2.2)) =
      sort Store.createdBefore (zs.map fun z => (z.1, z.2.2)) := map_sort (fun _ _ => rfl) zs
  have hsecond : (sort bySecond zs).map (fun z => (z.2.1, z.2.2)) =
      sort Store.createdBefore (zs.map fun z => (z.2.1, z.2.2)) := map_sort (fun _ _ => rfl) zs
  rw [← hfirst, ← hsecond, sort_congr hcompare, List.map_map, List.map_map]
  rfl

end NumberedAlike

/-! ## Tables -/

def MessageTable.only (r : String) (t : MessageTable) : MessageTable :=
  { t with rows := rowsIn MessageRow.region r t.rows }

def MemberTable.only (r : String) (t : MemberTable) : MemberTable :=
  { t with entries := rowsIn (fun e : Nat × MemberRow => e.2.region) r t.entries }

/-- A table with the rows of one region only. -/
def Table.only (r : String) : Table → Table
  | .messages t => .messages (t.only r)
  | .members t => .members (t.only r)

/-- Two member tables that differ at most in the numbers of their rows. -/
structure MemberTable.Alike (t u : MemberTable) : Prop where
  keyed : t.keyed = u.keyed
  indexed : t.indexed = u.indexed
  entries : NumberedAlike t.entries u.entries

def Table.Alike : Table → Table → Prop
  | .messages t, .messages u => t = u
  | .members t, .members u => t.Alike u
  | _, _ => False

theorem Table.Alike.refl : ∀ t : Table, t.Alike t
  | .messages _ => rfl
  | .members t => ⟨rfl, rfl, .refl t.entries⟩

/-- The rows of a region in the table of a name. -/
def places : Places Database (List Char × String) where
  Sight := Option Table
  look p db := (db.tables.lookup p.1).map (Table.only p.2)
  Alike := Option.Rel Table.Alike
  refl
    | none => .none
    | some t => .some (.refl t)

variable {name : List Char} {r : String}

/-- Two databases look alike at a place: both have no table there, or tables that are alike. -/
theorem same_iff {db db' : Database} : places.Same (name, r) db db' ↔
    Option.Rel (fun t u : Table => (t.only r).Alike (u.only r)) (db.tables.lookup name)
      (db'.tables.lookup name) := by
  show Option.Rel Table.Alike ((db.tables.lookup name).map _) ((db'.tables.lookup name).map _) ↔ _
  generalize db.tables.lookup name = x
  generalize db'.tables.lookup name = y
  constructor
  · intro h
    cases x <;> cases y <;> cases h
    · exact .none
    · rename_i h
      exact .some h
  · intro h
    cases h with
    | none => exact .none
    | some h => exact .some h

/-! ## Changes of a table -/

/-- Both fail alike, or both succeed with related values. -/
inductive Together (rel : α → α → Prop) : Except Fault α → Except Fault α → Prop where
  | error (f : Fault) : Together rel (.error f) (.error f)
  | ok {a b : α} : rel a b → Together rel (.ok a) (.ok b)

/-- A change of a table that depends on the rows of a region and changes no others. -/
structure Table.RegionLocal (r : String) (F : Table → Except Fault Table) : Prop where
  own : ∀ {t u : Table}, (t.only r).Alike (u.only r) →
    Together (fun t u => (t.only r).Alike (u.only r)) (F t) (F u)
  others : ∀ {t t' : Table}, F t = .ok t' → ∀ r', r' ≠ r → t'.only r' = t.only r'

/-- Changes the table of a name, if there is one. -/
def Database.change (db : Database) (name : List Char) (F : Table → Except Fault Table) :
    Except Fault Database :=
  match db.tables.lookup name with
  | none => .error .statement
  | some t => (F t).map (db.put name)

/-- Performs a write, which changes nothing when it fails. -/
def attempt (write : Database → Except Fault Database) (db : Database) :
    Except Fault Unit × Database :=
  match write db with
  | .error f => (.error f, db)
  | .ok db => (.ok (), db)

theorem lookup_put_self {db : Database} {t : Table} (h : db.tables.lookup name = some t)
    (t' : Table) : (db.put name t').tables.lookup name = some t' := by
  rw [Database.lookup_put, if_pos rfl, h]
  rfl

theorem attempt_change (F : Table → Except Fault Table) (db : Database) :
    attempt (·.change name F) db =
      match db.tables.lookup name with
      | none => (.error .statement, db)
      | some t =>
        match F t with
        | .error f => (.error f, db)
        | .ok t' => (.ok (), db.put name t') := by
  simp only [attempt, Database.change]
  cases db.tables.lookup name with
  | none => rfl
  | some t =>
    simp only
    cases F t <;> rfl

theorem confined_change {F : Table → Except Fault Table} (h : Table.RegionLocal r F) :
    places.Confined (name, r) (attempt (·.change name F)) where
  answer {db db'} hsame := by
    have hlookup := same_iff.1 hsame
    rw [attempt_change, attempt_change]
    generalize db.tables.lookup name = x at hlookup ⊢
    generalize db'.tables.lookup name = y at hlookup ⊢
    cases hlookup with
    | none => rfl
    | @some t u halike =>
      have hown := h.own halike
      simp only
      generalize F t = a at hown ⊢
      generalize F u = b at hown ⊢
      cases hown <;> rfl
  state {db db'} hsame := by
    have hlookup := same_iff.1 hsame
    rw [attempt_change, attempt_change]
    cases hx : db.tables.lookup name with
    | none =>
      rw [hx] at hlookup
      cases hy : db'.tables.lookup name with
      | none => exact hsame
      | some u => rw [hy] at hlookup; cases hlookup
    | some t =>
      rw [hx] at hlookup
      cases hy : db'.tables.lookup name with
      | none => rw [hy] at hlookup; cases hlookup
      | some u =>
        rw [hy] at hlookup
        cases hlookup with
        | some halike =>
          have hown := h.own halike
          simp only
          generalize F t = a at hown ⊢
          generalize F u = b at hown ⊢
          cases hown with
          | error f => exact hsame
          | ok halike' =>
            rw [same_iff, lookup_put_self hx, lookup_put_self hy]
            exact .some halike'
  elsewhere {q db} hq := by
    obtain ⟨name', r'⟩ := q
    rw [attempt_change]
    cases hx : db.tables.lookup name with
    | none => rfl
    | some t =>
      simp only
      cases ht : F t with
      | error f => rfl
      | ok t' =>
        show ((db.put name t').tables.lookup name').map (Table.only r') =
          (db.tables.lookup name').map (Table.only r')
        by_cases hname : name' = name
        · -- the rows of another region in the table that was changed
          subst hname
          have hr : r' ≠ r := fun he => hq (by rw [he])
          rw [lookup_put_self hx, hx, Option.map_some, Option.map_some, h.others ht r' hr]
        · rw [Database.lookup_put, if_neg hname]

/-! ## The changes that stores make -/

namespace Table

def onMessages (F : MessageTable → Except Fault MessageTable) : Table → Except Fault Table
  | .messages t => (F t).map .messages
  | .members _ => .error .statement

def onMembers (F : MemberTable → Except Fault MemberTable) : Table → Except Fault Table
  | .members t => (F t).map .members
  | .messages _ => .error .statement

theorem regionLocal_onMessages {F : MessageTable → Except Fault MessageTable}
    (hown : ∀ t, F (t.only r) = (F t).map (·.only r))
    (hothers : ∀ {t t'}, F t = .ok t' → ∀ r', r' ≠ r → t'.only r' = t.only r') :
    RegionLocal r (onMessages F) where
  own {t u} halike := by
    cases t with
    | members t =>
      cases u with
      | members u => exact .error _
      | messages u => exact halike.elim
    | messages t =>
      cases u with
      | members u => exact halike.elim
      | messages u =>
        have htu : (F t).map (·.only r) = (F u).map (·.only r) := by
          rw [← hown, ← hown]
          exact congrArg F halike
        simp only [onMessages]
        generalize F t = x at htu ⊢
        generalize F u = y at htu ⊢
        cases x with
        | error f =>
          cases y with
          | error f' => cases htu; exact .error f
          | ok u' => cases htu
        | ok t' =>
          cases y with
          | error f' => cases htu
          | ok u' => exact .ok (Except.ok.inj htu)
  others {t t'} ht r' hr := by
    cases t with
    | members t => cases ht
    | messages t =>
      cases hF : F t with
      | error f => rw [onMessages, hF] at ht; cases ht
      | ok u =>
        rw [onMessages, hF] at ht
        cases ht
        exact congrArg Table.messages (hothers hF r' hr)

theorem regionLocal_onMembers {F : MemberTable → Except Fault MemberTable}
    (hown : ∀ {t u}, (t.only r).Alike (u.only r) →
      Together (fun t u => (t.only r).Alike (u.only r)) (F t) (F u))
    (hothers : ∀ {t t'}, F t = .ok t' → ∀ r', r' ≠ r → t'.only r' = t.only r') :
    RegionLocal r (onMembers F) where
  own {t u} halike := by
    cases t with
    | messages t =>
      cases u with
      | messages u => exact .error _
      | members u => exact halike.elim
    | members t =>
      cases u with
      | messages u => exact halike.elim
      | members u =>
        have htu := hown halike
        simp only [onMembers]
        generalize F t = x at htu ⊢
        generalize F u = y at htu ⊢
        cases htu with
        | error f => exact .error f
        | ok h => exact .ok h
  others {t t'} ht r' hr := by
    cases t with
    | messages t => cases ht
    | members t =>
      cases hF : F t with
      | error f => rw [onMembers, hF] at ht; cases ht
      | ok u =>
        rw [onMembers, hF] at ht
        cases ht
        exact congrArg Table.members (hothers hF r' hr)

end Table

theorem change_messages (db : Database) (p : String)
    (F : MessageTable → Except Fault MessageTable) :
    (match db.messages? p with
      | none => .error .statement
      | some t => (F t).map fun t => db.put (messageTable p) (.messages t)) =
      db.change (messageTable p) (Table.onMessages F) := by
  unfold Database.messages? Database.change
  cases db.tables.lookup (messageTable p) with
  | none => rfl
  | some t =>
    cases t with
    | members t => rfl
    | messages t => simp only [Table.onMessages]; cases F t <;> rfl

theorem change_members (db : Database) (p : String) (F : MemberTable → Except Fault MemberTable) :
    (match db.members? p with
      | none => .error .statement
      | some t => (F t).map fun t => db.put (memberTable p) (.members t)) =
      db.change (memberTable p) (Table.onMembers F) := by
  unfold Database.members? Database.change
  cases db.tables.lookup (memberTable p) with
  | none => rfl
  | some t =>
    cases t with
    | messages t => rfl
    | members t => simp only [Table.onMembers]; cases F t <;> rfl

theorem insertMessage_eq_change (db : Database) (p : String) (row : MessageRow) :
    db.insertMessage p row = db.change (messageTable p) (Table.onMessages (·.insert row)) :=
  change_messages db p _

theorem deleteMessages_eq_change (db : Database) (p : String) (gone : MessageRow → Bool) :
    (db.deleteMessages p gone).map (·.2) = db.change (messageTable p)
      (Table.onMessages fun t => .ok { t with rows := t.rows.filter fun r => !gone r }) := by
  rw [← change_messages, Database.deleteMessages]
  cases db.messages? p <;> rfl

theorem insertMember_eq_change (db : Database) (p : String) (row : MemberRow) :
    db.insertMember p row = db.change (memberTable p) (Table.onMembers (·.insert row)) :=
  change_members db p _

theorem updateMembers_eq_change (db : Database) (p : String) (f : MemberTable → MemberTable) :
    db.updateMembers p f = db.change (memberTable p) (Table.onMembers fun t => .ok (f t)) :=
  change_members db p fun t => .ok (f t)

theorem regionLocal_insertMessage {row : MessageRow} (h : row.region = r) :
    Table.RegionLocal r (Table.onMessages (·.insert row)) := by
  have happend : RegionLocal MessageRow.region r (· ++ [row]) := .append h
  refine Table.regionLocal_onMessages (fun t => ?_) fun {t t'} ht r' hr => ?_
  · have hkey (a : MessageRow) (ha : row.sameKey a = true) : a.region = r := by
      simp only [MessageRow.sameKey, Bool.and_eq_true, decide_eq_true_eq] at ha
      exact ha.2.symm.trans h
    have hown : rowsIn MessageRow.region r (t.rows ++ [row]) =
        rowsIn MessageRow.region r t.rows ++ [row] := happend.own t.rows
    simp only [MessageTable.insert, MessageTable.only, any_rowsIn hkey]
    split
    · rfl
    · split
      · rfl
      · simp only [Except.map, hown]
  · unfold MessageTable.insert at ht
    split at ht
    · cases ht
    · split at ht <;> cases ht
      simp only [MessageTable.only]
      rw [happend.others hr]

theorem regionLocal_messages {f : List MessageRow → List MessageRow}
    (h : RegionLocal MessageRow.region r f) :
    Table.RegionLocal r (Table.onMessages fun t => .ok { t with rows := f t.rows }) := by
  refine Table.regionLocal_onMessages (fun t => ?_) fun {t t'} ht r' hr => ?_
  · simp only [MessageTable.only, Except.map, h.own]
  · cases ht
    simp only [MessageTable.only, h.others hr]

namespace MemberTable

theorem rows_only (t : MemberTable) : (t.only r).rows = rowsIn MemberRow.region r t.rows := by
  simp only [rows, only, rowsIn, List.filter_map]
  rfl

/-- Alike tables have the same rows of the region. -/
theorem Alike.rows_eq {t u : MemberTable} (h : (t.only r).Alike (u.only r)) :
    rowsIn MemberRow.region r t.rows = rowsIn MemberRow.region r u.rows := by
  rw [← rows_only, ← rows_only]
  exact h.entries.map_snd_eq

end MemberTable

theorem regionLocal_insertMember {row : MemberRow} (h : row.region = r) :
    Table.RegionLocal r (Table.onMembers (·.insert row)) := by
  have happend (n : Nat) :
      RegionLocal (fun e : Nat × MemberRow => e.2.region) r (· ++ [(n, row)]) := .append h
  refine Table.regionLocal_onMembers (fun {t u} halike => ?_) fun {t t'} ht r' hr => ?_
  · have hkey (a : MemberRow) (ha : row.sameKey a = true) : a.region = r := by
      simp only [MemberRow.sameKey, Bool.and_eq_true, decide_eq_true_eq] at ha
      exact ha.2.symm.trans h
    have hkeyed : t.keyed = u.keyed := halike.keyed
    have htaken : t.rows.any row.sameKey = u.rows.any row.sameKey := by
      rw [← any_rowsIn hkey, halike.rows_eq, any_rowsIn hkey]
    have hbelow (v : MemberTable) (e) (he : e ∈ (v.only r).entries) : e.1 < v.nextRowid :=
      MemberTable.lt_nextRowid (List.mem_filter.1 he).1
    simp only [MemberTable.insert, hkeyed, htaken]
    split
    · exact .error _
    · split
      · exact .error _
      · refine .ok ⟨rfl, halike.indexed, ?_⟩
        have hentries := halike.entries.append (hbelow t) (hbelow u) row
        simp only [MemberTable.only]
        rw [(happend _).own, (happend _).own]
        exact hentries
  · unfold MemberTable.insert at ht
    split at ht
    · cases ht
    · split at ht <;> cases ht
      simp only [MemberTable.only]
      rw [(happend _).others hr]

theorem regionLocal_delete {gone : MemberRow → Bool} (h : ∀ a, gone a = true → a.region = r) :
    Table.RegionLocal r (Table.onMembers fun t => .ok (t.delete gone)) := by
  have hfilter : RegionLocal (fun e : Nat × MemberRow => e.2.region) r
      (·.filter fun e => !gone e.2) := .filter fun e => h e.2
  refine Table.regionLocal_onMembers (fun {t u} halike => ?_) fun {t t'} ht r' hr => ?_
  · refine .ok ⟨halike.keyed, halike.indexed, ?_⟩
    simp only [MemberTable.only, MemberTable.delete]
    rw [hfilter.own, hfilter.own]
    exact halike.entries.filter fun a => !gone a
  · cases ht
    simp only [MemberTable.only, MemberTable.delete]
    rw [hfilter.others hr]

theorem regionLocal_update {f : MemberRow → MemberRow} (hkeep : ∀ a, (f a).region = a.region)
    (hother : ∀ a, a.region ≠ r → f a = a) :
    Table.RegionLocal r (Table.onMembers fun t => .ok (t.update f)) := by
  have hmap : RegionLocal (fun e : Nat × MemberRow => e.2.region) r
      (List.map fun e => (e.1, f e.2)) :=
    .map (fun e => hkeep e.2) fun e he => Prod.ext rfl (hother e.2 he)
  refine Table.regionLocal_onMembers (fun {t u} halike => ?_) fun {t t'} ht r' hr => ?_
  · refine .ok ⟨halike.keyed, halike.indexed, ?_⟩
    simp only [MemberTable.only, MemberTable.update]
    rw [hmap.own, hmap.own]
    exact halike.entries.map f
  · cases ht
    simp only [MemberTable.only, MemberTable.update]
    rw [hmap.others hr]

/-! ## Operations -/

/-- A statement that a store issues for its effect alone. -/
theorem confined_statement {write : Database → Except Fault Database}
    {F : Table → Except Fault Table} (hF : Table.RegionLocal r F)
    (hwrite : ∀ db, write db = db.change name F) (a : α) :
    places.Confined (name, r) fun db => match write db with
      | .error f => (.error (.statement f), db)
      | .ok db => ((.ok a : Except Error α), db) := by
  refine ((confined_change hF).map fun
    | .error f => .error (.statement f)
    | .ok () => .ok a).congr fun db => ?_
  simp only [attempt, hwrite]
  cases db.change name F <;> rfl

namespace Store

variable (s : Store)

theorem region_of_holds {id : Uuid} {a : MessageRow} (h : s.holds id a = true) :
    a.region = s.region := by
  simp only [holds, Bool.and_eq_true, decide_eq_true_eq] at h
  exact h.2

theorem region_of_inGroup {g : Uuid} {a : MemberRow} (h : s.inGroup g a = true) :
    a.region = s.region := by
  simp only [inGroup, Bool.and_eq_true, decide_eq_true_eq] at h
  exact h.2

theorem region_of_isMember {g id : Uuid} {a : MemberRow} (h : s.isMember g id a = true) :
    a.region = s.region := by
  simp only [isMember, Bool.and_eq_true] at h
  exact s.region_of_inGroup h.1

/-- Where the messages of a store are, and the members of its groups. -/
def place : Kind → List Char × String
  | .message => (messageTable s.tablePrefix, s.region)
  | .group => (Sql.memberTable s.tablePrefix, s.region)

/-- The places of two stores are two, but for one kind of rows of one region under one prefix. -/
theorem place_ne {s t : Store} {k l : Kind} (h : k ≠ l ∨
    ¬(foldName s.tablePrefix = foldName t.tablePrefix ∧ s.region = t.region)) :
    s.place k ≠ t.place l := by
  intro he
  obtain ⟨hname, hregion⟩ := Prod.ext_iff.1 he
  cases k <;> cases l <;> simp only [place] at hname hregion
  · exact h.elim (· rfl) (· ⟨messageTable_inj.1 hname, hregion⟩)
  · exact messageTable_ne_memberTable _ _ hname
  · exact messageTable_ne_memberTable _ _ hname.symm
  · exact h.elim (· rfl) (· ⟨memberTable_inj.1 hname, hregion⟩)

/-! ### Messages -/

/-- What is made of the rows of a region is read from its place. -/
theorem reads_messageRows {f : List MessageRow → Except Error α} (h : ∀ {rows rows'},
    rowsIn MessageRow.region s.region rows = rowsIn MessageRow.region s.region rows' →
      f rows = f rows') :
    places.Reads (s.place .message) fun db => (s.messageRows db).bind f := by
  intro db db' hsame
  have hlookup := same_iff.1 hsame
  simp only [messageRows, Database.messages?]
  generalize db.tables.lookup (messageTable s.tablePrefix) = x at hlookup ⊢
  generalize db'.tables.lookup (messageTable s.tablePrefix) = y at hlookup ⊢
  cases hlookup with
  | none => rfl
  | @some t u halike =>
    cases t with
    | messages t =>
      cases u with
      | messages u => exact h (congrArg MessageTable.rows halike)
      | members u => exact halike.elim
    | members t =>
      cases u with
      | messages u => exact halike.elim
      | members u => rfl

theorem reads_getMessage (id : Uuid) : places.Reads (s.place .message) (s.getMessage id) := by
  have hholds (a : MessageRow) : s.holds id a = true → a.region = s.region := s.region_of_holds
  refine (s.reads_messageRows (f := fun rows => (rows.find? (s.holds id)).elim (.ok none)
    fun a => (s.decodeBytes a.bytes).map some) fun {rows rows'} hrows => ?_).congr fun db => ?_
  · rw [← find?_rowsIn hholds, hrows, find?_rowsIn hholds]
  · unfold getMessage
    cases s.messageRows db with
    | error e => rfl
    | ok rows =>
      simp only [Except.bind]
      cases rows.find? (s.holds id) <;> rfl

theorem reads_isRedelivery (m : Message) :
    places.Reads (s.place .message) (s.isRedelivery m) := by
  intro db db' hsame
  rw [isRedelivery, isRedelivery, s.reads_getMessage m.id db db' hsame]

theorem reads_messageCount : places.Reads (s.place .message) s.messageCount := by
  refine s.reads_messageRows
    (f := fun rows => .ok (rows.filter (·.region = s.region)).length) fun {rows rows'} hrows => ?_
  exact congrArg (fun rows => Except.ok (List.length rows)) hrows

theorem confined_addMessage (now : Int64) (m : Message) :
    places.Confined (s.place .message) (s.addMessage now m) := by
  refine (s.reads_isRedelivery m).cases fun known => ?_
  cases known with
  | error e => exact ⟨_, .pure (.error e), fun db hdb => by simp [addMessage, hdb]⟩
  | ok known =>
    cases known with
    | true => exact ⟨_, .pure (.ok m), fun db hdb => by simp [addMessage, hdb]⟩
    | false =>
      cases he : s.codec.encode (m.markSaved now) with
      | error e =>
        exact ⟨_, .pure (.error (.encode e)), fun db hdb => by simp [addMessage, hdb, he]⟩
      | ok bytes =>
        refine ⟨_, confined_statement (regionLocal_insertMessage rfl)
          (fun db => insertMessage_eq_change db s.tablePrefix
            ⟨m.id.text, s.region, some now, some bytes⟩) (m.markSaved now), fun db hdb => ?_⟩
        cases hw : db.insertMessage s.tablePrefix
          ⟨m.id.text, s.region, some now, some bytes⟩ <;> simp [addMessage, hdb, he, hw]

theorem confined_removeMessage (id : Uuid) :
    places.Confined (s.place .message) (s.removeMessage id) := by
  refine (s.reads_getMessage id).cases fun found => ?_
  cases found with
  | error e => exact ⟨_, .pure (.error e), fun db hdb => by simp [removeMessage, hdb]⟩
  | ok found =>
    cases found with
    | none => exact ⟨_, .pure (.ok none), fun db hdb => by simp [removeMessage, hdb]⟩
    | some m =>
      have hfilter : RegionLocal MessageRow.region s.region (·.filter fun a => !s.holds id a) :=
        .filter fun _ => s.region_of_holds
      refine ⟨_, confined_statement (regionLocal_messages hfilter)
        (fun db => deleteMessages_eq_change db s.tablePrefix _) (some m), fun db hdb => ?_⟩
      obtain ⟨t, n, db', -, -, hdelete, hremove⟩ := s.removeMessage_of_found hdb
      rw [hremove, hdelete]
      rfl

/-! ### Groups -/

/-- What alike tables give alike is read from the place of the members. -/
theorem reads_memberTable {f : MemberTable → Except Error α}
    (h : ∀ {t u : MemberTable}, (t.only s.region).Alike (u.only s.region) → f t = f u) :
    places.Reads (s.place .group) fun db => (s.memberTable db).bind f := by
  intro db db' hsame
  have hlookup := same_iff.1 hsame
  simp only [memberTable, Database.members?]
  generalize db.tables.lookup (Sql.memberTable s.tablePrefix) = x at hlookup ⊢
  generalize db'.tables.lookup (Sql.memberTable s.tablePrefix) = y at hlookup ⊢
  cases hlookup with
  | none => rfl
  | @some t u halike =>
    cases t with
    | messages t =>
      cases u with
      | messages u => rfl
      | members u => exact halike.elim
    | members t =>
      cases u with
      | messages u => exact halike.elim
      | members u => exact h halike

theorem assemble_alike {t u : MemberTable} (h : (t.only s.region).Alike (u.only s.region))
    (g : Uuid) : s.assemble g t = s.assemble g u := by
  have hrows {p : MemberRow → Bool} (hp : ∀ a, p a = true → a.region = s.region) :
      t.rows.filter p = u.rows.filter p := by
    rw [← filter_rowsIn hp, h.rows_eq, filter_rowsIn hp]
  have hmarked : s.markedRows g t = s.markedRows g u := hrows fun a ha => by
    simp only [Bool.and_eq_true] at ha
    exact s.region_of_inGroup ha.1
  have holdest : s.oldest? g t = s.oldest? g u := by
    unfold oldest?
    rw [hrows fun _ => s.region_of_inGroup]
  have hunmarked : s.unmarkedRows g t = s.unmarkedRows g u := by
    have hpick (e : Nat × MemberRow)
        (he : (s.inGroup g e.2 && decide (e.2.marked = some 0)) = true) :
        e.2.region = s.region := by
      simp only [Bool.and_eq_true] at he
      exact s.region_of_inGroup he.1
    have hpicked := h.entries.filter fun a => s.inGroup g a && a.marked = some 0
    simp only [MemberTable.only] at hpicked
    rw [filter_rowsIn hpick, filter_rowsIn hpick] at hpicked
    exact hpicked.map_sort_eq
  unfold assemble
  rw [hmarked, hunmarked, holdest]

theorem reads_getGroup (g : Uuid) : places.Reads (s.place .group) (s.getGroup g) :=
  (s.reads_memberTable fun h => s.assemble_alike h g).congr fun db => by
    unfold getGroup
    cases s.memberTable db <;> rfl

/-- A statement after which a store loads the group. -/
theorem confined_reload {write : Database → Except Fault Database}
    {F : Table → Except Fault Table} (hF : Table.RegionLocal s.region F)
    (hwrite : ∀ db, write db = db.change (Sql.memberTable s.tablePrefix) F) (g : Uuid) :
    places.Confined (s.place .group) fun db => s.reload g db (write db) := by
  refine ((confined_statement hF hwrite ()).bind (g := fun x db => match x with
    | .error e => (.error e, db)
    | .ok () => (s.getGroup g db, db)) fun x => ?_).congr fun db => ?_
  · cases x with
    | error e => exact .pure _
    | ok _ => exact (s.reads_getGroup g).confined
  · unfold reload
    cases write db <;> rfl

theorem confined_addToGroup (now : Int64) (g : Uuid) (m : Message) :
    places.Confined (s.place .group) (s.addToGroup now g m) := by
  cases he : s.codec.encode m with
  | error e => exact (Places.Confined.pure _).congr fun db => by rw [addToGroup, he]
  | ok bytes =>
    refine (s.confined_reload (regionLocal_insertMember rfl) (fun db =>
      insertMember_eq_change db s.tablePrefix
        ⟨g.text, m.id.text, s.region, some now, some 0, none, some bytes⟩) g).congr fun db => ?_
    rw [addToGroup, he]

/-- A row that marking changes is of the region, and stays so. -/
theorem regionLocal_mark (now : Int64) {covers : MemberRow → Bool}
    (h : ∀ a, covers a = true → a.region = s.region) :
    Table.RegionLocal s.region (Table.onMembers fun t => .ok (t.update (mark now covers))) := by
  refine regionLocal_update (fun a => ?_) fun a ha => ?_
  · unfold mark
    split <;> rfl
  · have hc : covers a = false := Bool.eq_false_iff.2 fun hc => ha (h a hc)
    simp [mark, hc]

theorem confined_removeGroup (g : Uuid) :
    places.Confined (s.place .group) (s.removeGroup g) :=
  (confined_statement (regionLocal_delete fun _ => s.region_of_inGroup)
    (fun db => updateMembers_eq_change db s.tablePrefix _) ()).congr fun _ => rfl

theorem reads_groupKeys : places.Reads (s.place .group) s.groupKeys := by
  refine s.reads_memberTable (f := fun t => .ok (t.groupKeys s.region)) fun {t u} h => ?_
  have hindexed : t.indexed = u.indexed := h.indexed
  have hrows : t.rows.filter (·.region = s.region) = u.rows.filter (·.region = s.region) :=
    h.rows_eq
  simp only [MemberTable.groupKeys, hindexed, hrows]

theorem reads_groupCount : places.Reads (s.place .group) s.groupCount := by
  refine s.reads_memberTable (f := fun t => .ok
    (distinct ((t.rows.filter (·.region = s.region)).map (·.groupKey))).length) fun {t u} h => ?_
  have hrows : t.rows.filter (·.region = s.region) = u.rows.filter (·.region = s.region) :=
    h.rows_eq
  simp only [hrows]

/-- A store in a database is confined to the rows of its region in the tables of its prefix. -/
theorem confined : s.backend.Confined places s.place where
  addMessage := s.confined_addMessage
  getMessage := s.reads_getMessage
  removeMessage := s.confined_removeMessage
  messageCount := s.reads_messageCount
  addToGroup := s.confined_addToGroup
  getGroup := s.reads_getGroup
  markGroup now g := s.confined_reload (s.regionLocal_mark now fun _ => s.region_of_inGroup)
    (fun db => updateMembers_eq_change db s.tablePrefix _) g
  markMessage now g _ := s.confined_reload (s.regionLocal_mark now fun _ => s.region_of_isMember)
    (fun db => updateMembers_eq_change db s.tablePrefix _) g
  removeFromGroup g _ := s.confined_reload (regionLocal_delete fun _ => s.region_of_isMember)
    (fun db => updateMembers_eq_change db s.tablePrefix _) g
  removeGroup := s.confined_removeGroup
  groupKeys := s.reads_groupKeys
  groupCount := s.reads_groupCount

end Store

end MessageDepot.Sql
