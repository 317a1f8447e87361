import MessageDepot.Store.Table

/-!
# Finding tables, and new rows in them

The tables of two prefixes are the same when the prefixes differ only in the case of ASCII
letters, and a message table is never found under the name of a member table. So a table that is
put in its place is found again under all spellings of its prefix and changes nothing else.

Results:
* `messages?_putMessages`, `members?_putMembers`: what is found after a table was put.
* `messages?_putMembers`, `members?_putMessages`: the other kind of table stays as it was.
* `blank_of_initialise`: in a new database every prefix finds its two tables, without rows.
* `lt_nextRowid`: a new row number is above all others.
-/
namespace MessageDepot.Sql

/-! ## Names -/

theorem messageTable_inj {p q : String} :
    messageTable p = messageTable q ↔ foldName p = foldName q := by
  rw [messageTable_eq, messageTable_eq]
  exact ⟨fun h => List.append_cancel_right h, fun h => by rw [h]⟩

theorem memberTable_inj {p q : String} :
    memberTable p = memberTable q ↔ foldName p = foldName q := by
  rw [memberTable_eq, memberTable_eq]
  exact ⟨fun h => List.append_cancel_right h, fun h => by rw [h]⟩

namespace Database

/-! ## Lookups -/

theorem lookup_map_put (name name' : List Char) (t : Table) (es : List (List Char × Table)) :
    (es.map fun e => if e.1 = name then (name, t) else e).lookup name' =
      if name' = name then (es.lookup name).map fun _ => t else es.lookup name' := by
  induction es with
  | nil => simp
  | cons e es ih =>
    obtain ⟨n, u⟩ := e
    rw [List.map_cons]
    by_cases hn : n = name
    · subst hn
      by_cases hm : name' = n
      · simp [hm]
      · simp [List.lookup_cons, ih, hm, beq_eq_false_iff_ne.2 hm]
    · by_cases hm : name' = n
      · subst hm
        simp [hn]
      · by_cases hk : name' = name
        · subst hk
          simp [List.lookup_cons, ih, hn, beq_eq_false_iff_ne.2 hm]
        · simp [List.lookup_cons, ih, hn, hk, beq_eq_false_iff_ne.2 hm]

theorem lookup_put (db : Database) (name name' : List Char) (t : Table) :
    (db.put name t).tables.lookup name' =
      if name' = name then (db.tables.lookup name).map fun _ => t else db.tables.lookup name' :=
  lookup_map_put name name' t db.tables

theorem lookup_create (db : Database) (name name' : List Char) (t : Table) :
    (db.create name t).tables.lookup name' =
      if name' = name then some ((db.tables.lookup name).getD t) else db.tables.lookup name' := by
  unfold create
  cases hl : db.tables.lookup name with
  | some u => by_cases hn : name' = name <;> simp [hn, hl]
  | none =>
    by_cases hn : name' = name
    · subst hn
      simp [List.lookup_append, hl]
    · simp [List.lookup_append, List.lookup_cons, hn, beq_eq_false_iff_ne.2 hn]

theorem lookup_of_messages? {db : Database} {p : String} {t : MessageTable}
    (h : db.messages? p = some t) : db.tables.lookup (messageTable p) = some (.messages t) := by
  unfold messages? at h
  split at h
  · rename_i hl
    cases h
    exact hl
  · cases h

theorem lookup_of_members? {db : Database} {p : String} {t : MemberTable}
    (h : db.members? p = some t) : db.tables.lookup (memberTable p) = some (.members t) := by
  unfold members? at h
  split at h
  · rename_i hl
    cases h
    exact hl
  · cases h

variable {db : Database} {p q : String}

theorem messages?_putMessages {t u : MessageTable} (h : db.messages? p = some u) :
    (db.put (messageTable p) (.messages t)).messages? q =
      if foldName q = foldName p then some t else db.messages? q := by
  rw [messages?, lookup_put, lookup_of_messages? h]
  by_cases hn : foldName q = foldName p
  · rw [if_pos hn, if_pos (messageTable_inj.2 hn)]; rfl
  · rw [if_neg hn, if_neg (mt messageTable_inj.1 hn)]; rfl

theorem members?_putMembers {t u : MemberTable} (h : db.members? p = some u) :
    (db.put (memberTable p) (.members t)).members? q =
      if foldName q = foldName p then some t else db.members? q := by
  rw [members?, lookup_put, lookup_of_members? h]
  by_cases hn : foldName q = foldName p
  · rw [if_pos hn, if_pos (memberTable_inj.2 hn)]; rfl
  · rw [if_neg hn, if_neg (mt memberTable_inj.1 hn)]; rfl

theorem members?_putMessages (t : Table) :
    (db.put (messageTable p) t).members? q = db.members? q := by
  rw [members?, lookup_put, if_neg (messageTable_ne_memberTable p q).symm]; rfl

theorem messages?_putMembers (t : Table) :
    (db.put (memberTable p) t).messages? q = db.messages? q := by
  rw [messages?, lookup_put, if_neg (messageTable_ne_memberTable q p)]; rfl

/-! ## Schemas -/

/-- The two tables of a prefix are there, with their keys and the index, and hold no row. -/
structure Blank (db : Database) (p : String) : Prop where
  messages : db.tables.lookup (messageTable p) = some (.messages ⟨true, []⟩)
  members : db.tables.lookup (memberTable p) = some (.members ⟨true, true, []⟩)

/-- The tables of a prefix that are there are as they were made. -/
structure Unused (db : Database) (p : String) : Prop where
  messages : ∀ t ∈ db.tables.lookup (messageTable p), t = .messages ⟨true, []⟩
  members : ∀ t ∈ db.tables.lookup (memberTable p), t = .members ⟨true, true, []⟩

theorem unused_empty (p : String) : empty.Unused p := ⟨by simp [empty], by simp [empty]⟩

variable {db' : Database}

/-- Among unused tables, making those of a prefix gives new ones for it and leaves the others. -/
theorem lookup_create_messages (hu : db.Unused p) (q : String) :
    ((db.create (messageTable p) (.messages ⟨true, []⟩)).create (memberTable p)
        (.members ⟨true, false, []⟩)).tables.lookup (messageTable q) =
      if foldName q = foldName p then some (.messages ⟨true, []⟩)
      else db.tables.lookup (messageTable q) := by
  rw [lookup_create, if_neg (messageTable_ne_memberTable q p), lookup_create]
  simp only [messageTable_inj]
  cases hl : db.tables.lookup (messageTable p) with
  | none => rfl
  | some t => rw [hu.messages t hl]; rfl

/-- The member table may have its index from before. -/
theorem lookup_create_members (hu : db.Unused p) (q : String) : ∃ indexed,
    ((db.create (messageTable p) (.messages ⟨true, []⟩)).create (memberTable p)
        (.members ⟨true, false, []⟩)).tables.lookup (memberTable q) =
      if foldName q = foldName p then some (.members ⟨true, indexed, []⟩)
      else db.tables.lookup (memberTable q) := by
  rw [lookup_create, lookup_create, if_neg (messageTable_ne_memberTable p p).symm,
    lookup_create, if_neg (messageTable_ne_memberTable p q).symm]
  simp only [memberTable_inj]
  cases hl : db.tables.lookup (memberTable p) with
  | none => exact ⟨false, rfl⟩
  | some t => exact ⟨true, by rw [hu.members t hl]; rfl⟩

theorem lookup_createSchema (hs : db.createSchema p = .ok db') (hu : db.Unused p) (q : String) :
    db'.tables.lookup (messageTable q) = (if foldName q = foldName p
      then some (.messages ⟨true, []⟩) else db.tables.lookup (messageTable q)) ∧
    db'.tables.lookup (memberTable q) = if foldName q = foldName p
      then some (.members ⟨true, true, []⟩) else db.tables.lookup (memberTable q) := by
  unfold createSchema at hs
  split at hs
  case isFalse => cases hs
  simp only [Except.ok.injEq] at hs
  have hmessages := lookup_create_messages hu
  have hmembers := lookup_create_members hu
  generalize (db.create (messageTable p) (.messages ⟨true, []⟩)).create (memberTable p)
    (.members ⟨true, false, []⟩) = made at hs hmessages hmembers
  obtain ⟨indexed, hp⟩ := hmembers p
  rw [if_pos rfl] at hp
  have hi : made.members? p = some ⟨true, indexed, []⟩ := by rw [members?, hp]
  rw [createIndex, hi] at hs
  subst hs
  rw [lookup_put, lookup_put, if_neg (messageTable_ne_memberTable q p), hp, hmessages]
  refine ⟨rfl, ?_⟩
  simp only [memberTable_inj]
  by_cases hq : foldName q = foldName p
  · rw [if_pos hq, if_pos hq]
    rfl
  · obtain ⟨_, h⟩ := hmembers q
    rw [if_neg hq, h, if_neg hq, if_neg hq]

theorem Unused.createSchema (hs : db.createSchema p = .ok db') (hu : ∀ q, db.Unused q)
    (q : String) : db'.Unused q := by
  obtain ⟨h1, h2⟩ := lookup_createSchema hs (hu p) q
  constructor
  · rw [h1]
    split
    · simp
    · exact (hu q).messages
  · rw [h2]
    split
    · simp
    · exact (hu q).members

theorem Blank.createSchema (hs : db.createSchema p = .ok db') (hu : db.Unused p)
    (hq : foldName q = foldName p ∨ db.Blank q) : db'.Blank q := by
  obtain ⟨h1, h2⟩ := lookup_createSchema hs hu q
  by_cases hn : foldName q = foldName p
  · exact ⟨by rw [h1, if_pos hn], by rw [h2, if_pos hn]⟩
  · have hb := hq.resolve_left hn
    exact ⟨by rw [h1, if_neg hn, hb.messages], by rw [h2, if_neg hn, hb.members]⟩

/-- A new database with the tables of some prefixes. -/
def initialise (prefixes : List String) : Except Fault Database :=
  prefixes.foldlM createSchema empty

theorem blank_foldlM {ps : List String} : ∀ {db db' : Database},
    ps.foldlM Database.createSchema db = .ok db' → (∀ q, db.Unused q) →
      ∀ q, q ∈ ps ∨ db.Blank q → db'.Blank q := by
  induction ps with
  | nil =>
    intro db db' h _ q hq
    cases h
    exact hq.resolve_left (by simp)
  | cons p ps ih =>
    intro db db' h hu q hq
    rw [List.foldlM_cons] at h
    cases hs : db.createSchema p with
    | error f => rw [hs] at h; cases h
    | ok made =>
      rw [hs] at h
      refine ih h (Unused.createSchema hs hu) q ?_
      rcases hq with hq | hq
      · rcases List.mem_cons.1 hq with rfl | hq
        · exact .inr (Blank.createSchema hs (hu q) (.inl rfl))
        · exact .inl hq
      · exact .inr (Blank.createSchema hs (hu p) (.inr hq))

theorem blank_of_initialise {prefixes : List String} (h : initialise prefixes = .ok db)
    (hp : p ∈ prefixes) : db.Blank p :=
  blank_foldlM h unused_empty p (.inl hp)

end Database

/-! ## Row numbers -/

theorem le_foldr_max {n : Nat} : ∀ {ns : List Nat}, n ∈ ns → n ≤ ns.foldr max 0
  | m :: ms, h => by
    rw [List.foldr_cons]
    rcases List.mem_cons.1 h with rfl | h
    · exact Nat.le_max_left ..
    · exact Nat.le_trans (le_foldr_max h) (Nat.le_max_right ..)

theorem MemberTable.lt_nextRowid {t : MemberTable} {e : Nat × MemberRow} (h : e ∈ t.entries) :
    e.1 < t.nextRowid :=
  Nat.lt_succ_of_le (le_foldr_max (List.mem_map_of_mem h))

end MessageDepot.Sql
