import MessageDepot.Proofs.CodecRoundTrip
import MessageDepot.Proofs.GroupLoading
import MessageDepot.Proofs.History
import MessageDepot.Proofs.Tables

/-!
# What a failed operation leaves behind

Tables may hold anything here: repeated keys where there is no constraint, rows without a stored
form or with bytes that are no message. Operations on single messages read first and write last, by
one statement, so one that fails has changed nothing. A change of a group writes first, by one
statement too, and then loads the group for its answer: it fails before the write, and nothing has
changed, or on the load, and then the write is done. The kind of the error tells which, and to make
the change once more changes nothing then.

Results:
* `addMessage_cases`, `removeMessage_cases`: how operations on single messages turn out.
* `single_messages_of_content`: they leave the tables alone unless they succeed.
* `perform_changed`: how a change of a group turns out.
* `failed_change`: what it leaves behind where it fails.
-/
namespace MessageDepot.Sql

/-! ## One table replaced -/

/-- The second database is the first but for the message table of a prefix. -/
structure Database.WithMessages (db : Database) (tablePrefix : String) (t : MessageTable)
    (db' : Database) : Prop where
  messages : ∀ p, db'.messages? p =
    if foldName p = foldName tablePrefix then some t else db.messages? p
  members : ∀ p, db'.members? p = db.members? p

/-- The second database is the first but for the member table of a prefix. -/
structure Database.WithMembers (db : Database) (tablePrefix : String) (t : MemberTable)
    (db' : Database) : Prop where
  messages : ∀ p, db'.messages? p = db.messages? p
  members : ∀ p, db'.members? p =
    if foldName p = foldName tablePrefix then some t else db.members? p

theorem Database.withMessages_put {db : Database} {p : String} {u : MessageTable}
    (h : db.messages? p = some u) (t : MessageTable) :
    db.WithMessages p t (db.put (messageTable p) (.messages t)) where
  messages _ := messages?_putMessages h
  members _ := members?_putMessages _

theorem Database.withMembers_put {db : Database} {p : String} {u : MemberTable}
    (h : db.members? p = some u) (t : MemberTable) :
    db.WithMembers p t (db.put (memberTable p) (.members t)) where
  messages _ := messages?_putMembers _
  members _ := members?_putMembers h

theorem Database.put_put (db : Database) (name : List Char) (t u : Table) :
    (db.put name t).put name u = db.put name u := by
  unfold put
  rw [List.map_map, Database.mk.injEq]
  refine List.map_congr_left fun e _ => ?_
  by_cases he : e.1 = name <;> simp [he]

/-- One row is inserted or none. -/
theorem Database.insertMessage_cases (db : Database) (p : String) (r : MessageRow) :
    (∃ f, db.insertMessage p r = .error f) ∨ ∃ t, db.messages? p = some t ∧
      db.insertMessage p r =
        .ok (db.put (messageTable p) (.messages { t with rows := t.rows ++ [r] })) := by
  unfold insertMessage
  cases db.messages? p with
  | none => exact .inl ⟨.statement, rfl⟩
  | some t =>
    simp only [MessageTable.insert]
    by_cases hmissing : t.keyed && !r.isComplete
    · rw [if_pos hmissing]
      exact .inl ⟨.missingValue, rfl⟩
    · by_cases htaken : t.keyed && t.rows.any r.sameKey
      · rw [if_neg hmissing, if_pos htaken]
        exact .inl ⟨.duplicateKey, rfl⟩
      · rw [if_neg hmissing, if_neg htaken]
        exact .inr ⟨t, rfl, rfl⟩

namespace Store

variable (s : Store)

/-! ## Single messages -/

theorem getMessage_eq_none_iff {db : Database} {id : Uuid} : s.getMessage id db = .ok none ↔
    ∃ t, db.messages? s.tablePrefix = some t ∧ ∀ r ∈ t.rows, s.holds id r = false := by
  cases ht : db.messages? s.tablePrefix with
  | none => simp [s.getMessage_of_no_table ht]
  | some t =>
    rw [s.getMessage_of_table ht]
    cases hr : t.rows.find? (s.holds id) with
    | none =>
      refine iff_of_true rfl ⟨t, rfl, fun r hmem => ?_⟩
      exact Bool.eq_false_iff.2 (List.find?_eq_none.1 hr r hmem)
    | some r =>
      refine iff_of_false (fun h => ?_) ?_
      · cases hd : s.decodeBytes r.bytes <;> simp [hd, Except.map] at h
      · rintro ⟨u, hu, hnone⟩
        cases hu
        exact Bool.eq_false_iff.1 (hnone r (List.mem_of_find?_eq_some hr)) (List.find?_some hr)

/-- The row that an addition inserts. -/
def messageRow (now : Int64) (m : Message) (bytes : Bytes) : MessageRow :=
  ⟨m.id.text, s.region, some now, some bytes⟩

/-- An addition fails and changes nothing, or finds the message as it is stored and changes nothing,
or stamps it and adds one row. -/
theorem addMessage_cases (now : Int64) (m : Message) (db : Database) :
    (∃ e, s.addMessage now m db = (.error e, db)) ∨
      (s.getMessage m.id db = .ok (some m) ∧ s.addMessage now m db = (.ok m, db)) ∨
      ∃ t bytes, db.messages? s.tablePrefix = some t ∧
        s.codec.encode (m.markSaved now) = .ok bytes ∧
        s.addMessage now m db = (.ok (m.markSaved now), db.put (messageTable s.tablePrefix)
          (.messages { t with rows := t.rows ++ [s.messageRow now m bytes] })) := by
  unfold addMessage
  cases hr : s.isRedelivery m db with
  | error e => exact .inl ⟨e, rfl⟩
  | ok again =>
    cases again with
    | true =>
      refine .inr (.inl ⟨?_, rfl⟩)
      unfold isRedelivery at hr
      split at hr
      · cases hg : s.getMessage m.id db with
        | error e => simp [hg, Except.map] at hr
        | ok found => simpa [hg, Except.map] using hr
      · cases hr
    | false =>
      simp only
      cases he : s.codec.encode (m.markSaved now) with
      | error e => exact .inl ⟨.encode e, rfl⟩
      | ok bytes =>
        simp only
        rcases db.insertMessage_cases s.tablePrefix (s.messageRow now m bytes) with
          ⟨f, hf⟩ | ⟨t, ht, hok⟩
        · rw [messageRow] at hf
          rw [hf]
          exact .inl ⟨.statement f, rfl⟩
        · rw [messageRow] at hok
          rw [hok]
          exact .inr (.inr ⟨t, bytes, ht, rfl, rfl⟩)

/-- A removal answers what is found. It changes nothing unless a message was found, and then takes
out all rows of the identifier. -/
theorem removeMessage_cases (id : Uuid) (db : Database) :
    (s.removeMessage id db = (s.getMessage id db, db) ∧ ∀ m, s.getMessage id db ≠ .ok (some m)) ∨
      ∃ m t, s.getMessage id db = .ok (some m) ∧ db.messages? s.tablePrefix = some t ∧
        s.removeMessage id db = (.ok (some m), db.put (messageTable s.tablePrefix)
          (.messages { t with rows := t.rows.filter fun r => !s.holds id r })) := by
  cases hg : s.getMessage id db with
  | error e =>
    rw [removeMessage, hg]
    exact .inl ⟨rfl, fun m h => by cases h⟩
  | ok found =>
    cases found with
    | none =>
      rw [removeMessage, hg]
      exact .inl ⟨rfl, fun m h => by cases h⟩
    | some m =>
      obtain ⟨t, n, db', ht, rfl, -, hremove⟩ := s.removeMessage_of_found hg
      exact .inr ⟨m, t, rfl, ht, hremove⟩

/-- Operations on single messages, on tables of any content. A look-up changes nothing, and finds
nothing just when there is no row of the identifier in the region. A removal answers the same: it
fails or finds nothing, and changes nothing; or it gives a message that was read from such a row,
and all these rows are gone and no others. An addition that fails changes nothing; one that succeeds
finds its very message stored and changes nothing, or has added one row. -/
theorem single_messages_of_content (db : Database) (now : Int64) :
    (∀ id, let x := s.backend.perform now (.getMessage id) db
      x.2 = db ∧ (x.1 = .ok (.found none) ↔ ∃ t, db.messages? s.tablePrefix = some t ∧
        ∀ r ∈ t.rows, s.holds id r = false)) ∧
    (∀ id, let x := s.backend.perform now (.removeMessage id) db
      x.1 = (s.backend.perform now (.getMessage id) db).1 ∧
        (((∃ e, x.1 = .error e) ∨ x.1 = .ok (.found none)) ∧ x.2 = db ∨
          ∃ m t, x.1 = .ok (.found (some m)) ∧ db.messages? s.tablePrefix = some t ∧
            (∃ r ∈ t.rows, s.holds id r ∧ s.codec.decode (r.bytes.getD []) = .ok m) ∧
              db.WithMessages s.tablePrefix
                { t with rows := t.rows.filter fun r => !s.holds id r } x.2)) ∧
    ∀ m, let x := s.backend.perform now (.addMessage m) db
      (∀ e, x.1 = .error e → x.2 = db) ∧ ∀ a, x.1 = .ok a →
        a = .message m ∧ s.getMessage m.id db = .ok (some m) ∧ x.2 = db ∨
          a = .message (m.markSaved now) ∧ ∃ t bytes, db.messages? s.tablePrefix = some t ∧
            s.codec.encode (m.markSaved now) = .ok bytes ∧ db.WithMessages s.tablePrefix
              { t with rows := t.rows ++ [s.messageRow now m bytes] } x.2 := by
  have hget (id : Uuid) : s.backend.perform now (.getMessage id) db =
      ((s.getMessage id db).map .found, db) := rfl
  have hremove (id : Uuid) : s.backend.perform now (.removeMessage id) db =
      ((s.removeMessage id db).1.map .found, (s.removeMessage id db).2) := rfl
  have hadd (m : Message) : s.backend.perform now (.addMessage m) db =
      ((s.addMessage now m db).1.map .message, (s.addMessage now m db).2) := rfl
  refine ⟨fun id => ?_, fun id => ?_, fun m => ?_⟩
  · rw [hget, ← s.getMessage_eq_none_iff]
    refine ⟨rfl, ?_⟩
    cases s.getMessage id db with
    | error e => simp [Except.map]
    | ok found => simp [Except.map]
  · rw [hget, hremove]
    rcases s.removeMessage_cases id db with ⟨hx, hnone⟩ | ⟨m, t, hg, ht, hx⟩
    · rw [hx]
      refine ⟨rfl, .inl ⟨?_, rfl⟩⟩
      cases hg : s.getMessage id db with
      | error e => exact .inl ⟨e, rfl⟩
      | ok found =>
        cases found with
        | none => exact .inr rfl
        | some m => exact absurd hg (hnone m)
    · rw [hx, hg]
      obtain ⟨u, hu, hrow⟩ := s.exists_row_of_getMessage hg
      obtain rfl : t = u := Option.some.inj (ht.symm.trans hu)
      exact ⟨rfl, .inr ⟨m, t, rfl, ht, hrow, Database.withMessages_put ht _⟩⟩
  · rw [hadd]
    rcases s.addMessage_cases now m db with ⟨e, hx⟩ | ⟨hg, hx⟩ | ⟨t, bytes, ht, he, hx⟩
    · rw [hx]
      exact ⟨fun _ _ => rfl, nofun⟩
    · rw [hx]
      refine ⟨fun _ _ => rfl, fun a ha => ?_⟩
      cases ha
      exact .inl ⟨rfl, hg, rfl⟩
    · rw [hx]
      refine ⟨nofun, fun a ha => ?_⟩
      cases ha
      exact .inr ⟨rfl, t, bytes, ht, he, Database.withMessages_put ht _⟩

/-! ## Changes of groups -/

/-- The row that an addition inserts. -/
def memberRow (now : Int64) (group : Uuid) (m : Message) : MemberRow :=
  ⟨group.text, m.id.text, s.region, some now, some 0, none, some (Codec.frame m)⟩

/-- What the one statement of a request makes of the member table. -/
def effect (now : Int64) : Request → MemberTable → MemberTable
  | .addToGroup key m, t =>
    { t with entries := t.entries ++ [(t.nextRowid, s.memberRow now key.identifier m)] }
  | .markGroup g, t => t.update (mark now (s.inGroup g.id))
  | .markMessage key m, t => t.update (mark now (s.isMember key.identifier m.id))
  | .removeFromGroup key m, t => t.delete (s.isMember key.identifier m.id)
  | _, t => t

/-- The database after the statement of a request on its member table. -/
def written (now : Int64) (q : Request) (t : MemberTable) (db : Database) : Database :=
  db.put (Sql.memberTable s.tablePrefix) (.members (s.effect now q t))

/-- The statement of a request is not refused by a member table: a message that is added has a
stored form, and its key is free where keys count. -/
def Admits (now : Int64) (q : Request) (t : MemberTable) : Prop :=
  ∀ key m, q = .addToGroup key m → (Codec.envelope m).size ≤ s.codec.maxSize ∧
    (t.keyed = true → t.rows.any (s.memberRow now key.identifier m).sameKey = false)

/-- How a change of a group turns out: it is refused and changes nothing, or its statement is
carried out and the group is loaded then. -/
inductive Changes (now : Int64) (q : Request) (g : Uuid) (db : Database) :
    Except Error (Answer Error) × Database → Prop where
  | refused {e : Error} (kind : (∃ c, e = .encode c) ∨ ∃ f, e = .statement f) :
    Changes now q g db (.error e, db)
  | written {t : MemberTable} (stored : db.members? s.tablePrefix = some t)
    (admits : s.Admits now q t) : Changes now q g db
      ((s.getGroup g (s.written now q t db)).map .group, s.written now q t db)

variable {s} {q : Request} {g : Uuid} {db : Database} {t : MemberTable}

theorem mark_bytes (now : Int64) (covers : MemberRow → Bool) (r : MemberRow) :
    s.inGroup g (mark now covers r) = s.inGroup g r ∧
      (mark now covers r).bytes = r.bytes ∧ (mark now covers r).createdDate = r.createdDate := by
  unfold mark
  split <;> exact ⟨rfl, rfl, rfl⟩

theorem mark_of_not_covered {now : Int64} {covers : MemberRow → Bool} {r : MemberRow}
    (h : covers r = false) : mark now covers r = r := by
  simp [mark, h]

theorem mark_mark (now now' : Int64) (covers : MemberRow → Bool) (r : MemberRow) :
    mark now' covers (mark now covers r) = mark now covers r := by
  by_cases h : r.marked = some 0 && covers r
  · have hm : mark now covers r = { r with marked := some 1, updatedDate := some now } := if_pos h
    rw [hm]
    rfl
  · have hm : mark now covers r = r := if_neg h
    rw [hm]
    exact if_neg h

theorem update_mark_mark (now now' : Int64) (covers : MemberRow → Bool) (t : MemberTable) :
    (t.update (mark now covers)).update (mark now' covers) = t.update (mark now covers) := by
  simp [MemberTable.update, mark_mark]

/-- The rows of other groups stay as they are when rows are marked in one group. -/
theorem filter_update_mark {covers : MemberRow → Bool}
    (hc : ∀ r, s.inGroup g r = false → covers r = false) (now : Int64) (t : MemberTable) :
    (t.update (mark now covers)).entries.filter (fun e => !s.inGroup g e.2) =
      t.entries.filter fun e => !s.inGroup g e.2 := by
  rw [MemberTable.update, List.filter_map]
  simp only [Function.comp_def, (mark_bytes _ _ _).1]
  refine (List.map_congr_left fun e he => ?_).trans (List.map_id _)
  have hout : s.inGroup g e.2 = false := by simpa using (List.mem_filter.1 he).2
  rw [mark_of_not_covered (hc e.2 hout)]
  rfl

theorem isMember_eq_false {id : Uuid} {r : MemberRow} (hr : s.inGroup g r = false) :
    s.isMember g id r = false := by
  simp [isMember, hr]

/-- A change leaves the rows of all other groups as they are, under their numbers. -/
theorem filter_effect (hq : q.changed? = some g) (now : Int64) (t : MemberTable) :
    (s.effect now q t).entries.filter (fun e => !s.inGroup g e.2) =
      t.entries.filter fun e => !s.inGroup g e.2 := by
  cases q with
  | addToGroup key m =>
    cases hq
    simp [effect, memberRow, inGroup, List.filter_append]
  | markGroup group =>
    cases hq
    exact filter_update_mark (fun _ hr => hr) now t
  | markMessage key m =>
    cases hq
    exact filter_update_mark (fun _ => isMember_eq_false) now t
  | removeFromGroup key m =>
    cases hq
    rw [effect, MemberTable.delete, List.filter_filter]
    refine List.filter_congr fun e _ => ?_
    cases hr : s.inGroup key.identifier e.2 with
    | true => rfl
    | false => simp [isMember_eq_false hr]
  | _ => cases hq

/-- A change puts no row into the table but the one that is added; the others keep their clocks and
stored forms. -/
theorem row_of_effect {now : Int64} {r : MemberRow} (hr : r ∈ (s.effect now q t).rows) :
    (∃ o ∈ t.rows, s.inGroup g o = s.inGroup g r ∧ o.bytes = r.bytes ∧
      o.createdDate = r.createdDate) ∨
        ∃ key m, q = .addToGroup key m ∧ r = s.memberRow now key.identifier m := by
  have hupdate (covers : MemberRow → Bool) (hr : r ∈ (t.update (mark now covers)).rows) :
      ∃ o ∈ t.rows, s.inGroup g o = s.inGroup g r ∧ o.bytes = r.bytes ∧
        o.createdDate = r.createdDate := by
    simp only [MemberTable.rows, MemberTable.update, List.map_map, List.mem_map] at hr
    obtain ⟨e, he, rfl⟩ := hr
    obtain ⟨hgroup, hbytes, hclock⟩ := mark_bytes (s := s) (g := g) now covers e.2
    exact ⟨e.2, List.mem_map_of_mem he, hgroup.symm, hbytes.symm, hclock.symm⟩
  cases q with
  | addToGroup key m =>
    simp only [effect, MemberTable.rows, List.map_append, List.mem_append, List.map_cons,
      List.map_nil, List.mem_singleton] at hr
    rcases hr with hr | hr
    · exact .inl ⟨r, hr, rfl, rfl, rfl⟩
    · exact .inr ⟨key, m, rfl, hr⟩
  | markGroup group => exact .inl (hupdate _ hr)
  | markMessage key m => exact .inl (hupdate _ hr)
  | removeFromGroup key m =>
    obtain ⟨e, he, rfl⟩ := List.mem_map.1 hr
    exact .inl ⟨e.2, List.mem_map_of_mem (List.mem_filter.1 he).1, rfl, rfl, rfl⟩
  | _ => exact .inl ⟨r, hr, rfl, rfl, rfl⟩

/-- A row is inserted into a table without its key, or the statement is refused. -/
theorem insertMember_cases (db : Database) (p : String) (r : MemberRow) :
    (∃ f, db.insertMember p r = .error f) ∨ ∃ t, db.members? p = some t ∧
      (t.keyed = true → t.rows.any r.sameKey = false) ∧ db.insertMember p r =
        .ok (db.put (Sql.memberTable p)
          (.members { t with entries := t.entries ++ [(t.nextRowid, r)] })) := by
  unfold Database.insertMember
  cases db.members? p with
  | none => exact .inl ⟨.statement, rfl⟩
  | some t =>
    simp only [MemberTable.insert]
    by_cases hmissing : t.keyed && !r.isComplete
    · rw [if_pos hmissing]
      exact .inl ⟨.missingValue, rfl⟩
    · by_cases htaken : t.keyed && t.rows.any r.sameKey
      · rw [if_neg hmissing, if_pos htaken]
        exact .inl ⟨.duplicateKey, rfl⟩
      · rw [if_neg hmissing, if_neg htaken]
        exact .inr ⟨t, rfl, fun hkeyed => by simpa [hkeyed] using htaken, rfl⟩

theorem perform_changed (hq : q.changed? = some g) (now : Int64) (db : Database) :
    s.Changes now q g db (s.backend.perform now q db) := by
  -- marking and taking out differ in what they do to the rows, and are never refused for them
  have hupdate (f : MemberTable → MemberTable) (hf : s.effect now q = f)
      (hadmits : ∀ t, s.Admits now q t) (hperform : s.backend.perform now q db =
        ((s.reload g db (db.updateMembers s.tablePrefix f)).1.map .group,
          (s.reload g db (db.updateMembers s.tablePrefix f)).2)) :
      s.Changes now q g db (s.backend.perform now q db) := by
    rw [hperform, Database.updateMembers, ← hf]
    cases ht : db.members? s.tablePrefix with
    | none => exact .refused (.inr ⟨_, rfl⟩)
    | some t => exact .written ht (hadmits t)
  cases q with
  | addToGroup key m =>
    cases hq
    have hperform : s.backend.perform now (.addToGroup key m) db =
        ((s.addToGroup now key.identifier m db).1.map .group,
          (s.addToGroup now key.identifier m db).2) := rfl
    rw [hperform, addToGroup, Codec.encode_eq]
    by_cases hsize : s.codec.maxSize < (Codec.envelope m).size
    · rw [if_pos hsize]
      exact .refused (.inl ⟨_, rfl⟩)
    · rw [if_neg hsize]
      rcases insertMember_cases db s.tablePrefix (s.memberRow now key.identifier m) with
        ⟨f, hf⟩ | ⟨t, ht, hfree, hok⟩
      · rw [memberRow] at hf
        simp only [hf]
        exact .refused (.inr ⟨f, rfl⟩)
      · have hadmits : s.Admits now (.addToGroup key m) t := by
          intro key' m' he
          cases he
          exact ⟨Nat.le_of_not_lt hsize, hfree⟩
        rw [memberRow] at hok
        simp only [hok]
        exact .written ht hadmits
  | markGroup group =>
    cases hq
    exact hupdate (·.update (mark now (s.inGroup group.id))) rfl (fun _ => nofun) rfl
  | markMessage key m =>
    cases hq
    exact hupdate (·.update (mark now (s.isMember key.identifier m.id))) rfl (fun _ => nofun) rfl
  | removeFromGroup key m =>
    cases hq
    exact hupdate (·.delete (s.isMember key.identifier m.id)) rfl (fun _ => nofun) rfl
  | _ => cases hq

theorem members?_written {now : Int64} (ht : db.members? s.tablePrefix = some t) :
    (s.written now q t db).members? s.tablePrefix = some (s.effect now q t) :=
  (Database.members?_putMembers ht).trans (if_pos rfl)

/-- A load after a change fails for a row of the group that was there before. -/
theorem row_of_getGroup_error {now : Int64} (ht : db.members? s.tablePrefix = some t)
    (hadmits : s.Admits now q t) {e : Error} (he : s.getGroup g (s.written now q t db) = .error e) :
    ((∃ c, e = .decode c) ∨ e = .consistency g.text) ∧
      ∃ r ∈ t.rows, s.inGroup g r ∧ (r.createdDate = none ∨ ∃ c, s.Fails r c) := by
  have hload : s.getGroup g (s.written now q t db) = s.assemble g (s.effect now q t) :=
    getGroup_of_table (members?_written ht) g
  have hlisted {r : MemberRow} (hl : s.isListed g r = true) : s.inGroup g r = true := by
    simp only [isListed, isUnmarked, isMarked, Bool.or_eq_true, Bool.and_eq_true] at hl
    exact hl.elim And.left And.left
  have h := s.loads g (s.effect now q t)
  rw [← hload, he] at h
  cases h with
  | undated listed undated =>
    refine ⟨.inr rfl, ?_⟩
    obtain ⟨r, hr, hl⟩ := listed
    have hclock := undated r hr (hlisted hl)
    rcases row_of_effect (g := g) hr with ⟨o, ho, hgroup, -, hdate⟩ | ⟨key, m, -, rfl⟩
    · exact ⟨o, ho, hgroup.trans (hlisted hl), .inl (hdate.trans hclock)⟩
    · cases hclock
  | @unreadable listed dated c givesUp =>
    refine ⟨.inl ⟨c, rfl⟩, ?_⟩
    obtain ⟨r, hr, hl, hfails⟩ := givesUp.exists_fails
    rcases row_of_effect (g := g) hr with ⟨o, ho, hgroup, hbytes, -⟩ | ⟨key, m, hq, rfl⟩
    · refine ⟨o, ho, hgroup.trans (hlisted hl), .inr ⟨c, ?_⟩⟩
      unfold Fails
      rw [hbytes]
      exact hfails
    · -- the row that was added is read back
      have hsize := (hadmits key m hq).1
      have hyields : s.Yields (s.memberRow now key.identifier m) m :=
        s.codec.decode_frame (Nat.lt_of_le_of_lt hsize s.codec.maxSize_lt)
      exact absurd hfails hyields.not_fails

/-- To make a change once more, at any clock, changes nothing. -/
theorem effect_effect (hq : ∀ key m, q ≠ .addToGroup key m) (now now' : Int64) (t : MemberTable) :
    s.effect now' q (s.effect now q t) = s.effect now q t := by
  cases q with
  | addToGroup key m => exact absurd rfl (hq key m)
  | markGroup group => exact update_mark_mark now now' _ t
  | markMessage key m => exact update_mark_mark now now' _ t
  | removeFromGroup key m => simp [effect, MemberTable.delete, List.filter_filter]
  | _ => rfl

/-- After its statement has been carried out, a change leaves the database alone, but for an
addition to a table without keys. -/
theorem perform_written (hq : q.changed? = some g) {now : Int64}
    (ht : db.members? s.tablePrefix = some t)
    (hagain : t.keyed = true ∨ ∀ key m, q ≠ .addToGroup key m) (now' : Int64) :
    (s.backend.perform now' q (s.written now q t db)).2 = s.written now q t db := by
  have h := perform_changed (s := s) hq now' (s.written now q t db)
  generalize s.backend.perform now' q (s.written now q t db) = x at h
  cases h with
  | refused => rfl
  | @written u hu admits =>
    have hsame : u = s.effect now q t := Option.some.inj (hu.symm.trans (members?_written ht))
    subst hsame
    have hno (key : Key) (m : Message) : q ≠ .addToGroup key m := by
      rcases hagain with hkeyed | hno
      · -- the row of the first addition has the key of the second
        rintro rfl
        have htaken : (s.effect now (.addToGroup key m) t).rows.any
            (s.memberRow now' key.identifier m).sameKey = true := by
          simp [effect, MemberTable.rows, memberRow, MemberRow.sameKey]
        rw [(admits key m rfl).2 hkeyed] at htaken
        cases htaken
      · exact hno key m
    simp only [Store.written, Database.put_put, effect_effect hno]

/-- A change of a group that fails, on tables of any content. Where the message has no stored form
or the statement is refused, nothing has changed. Otherwise it is the load after the statement that
failed, by a row of the group that was there before, without a clock or unreadable: then the
statement has been carried out, on rows of this group only, the load goes on to fail, and to make
the change once more changes nothing, unless it is an addition to a table without keys. -/
theorem failed_change (hq : q.changed? = some g) {now : Int64} {e : Error}
    (he : (s.backend.perform now q db).1 = .error e) :
    let db' := (s.backend.perform now q db).2
    ((∃ c, e = .encode c) ∨ ∃ f, e = .statement f) ∧ db' = db ∨
      ((∃ c, e = .decode c) ∨ e = .consistency g.text) ∧ s.getGroup g db' = .error e ∧
        ∃ t, db.members? s.tablePrefix = some t ∧
          (∃ r ∈ t.rows, s.inGroup g r ∧ (r.createdDate = none ∨ ∃ c, s.Fails r c)) ∧
          db.WithMembers s.tablePrefix (s.effect now q t) db' ∧
          ((s.effect now q t).entries.filter (fun e => !s.inGroup g e.2) =
            t.entries.filter fun e => !s.inGroup g e.2) ∧
          ((t.keyed = true ∨ ∀ key m, q ≠ .addToGroup key m) →
            ∀ now', (s.backend.perform now' q db').2 = db') := by
  have h := perform_changed (s := s) hq now db
  intro db'
  change s.Changes now q g db ((s.backend.perform now q db).1, db') at h
  rw [he] at h
  clear_value db'
  generalize hx : (Except.error e, db') = x at h
  cases h with
  | refused kind =>
    cases hx
    exact .inl ⟨kind, rfl⟩
  | @written t ht admits =>
    obtain ⟨hfirst, rfl⟩ := Prod.mk.inj hx
    have hload : s.getGroup g (s.written now q t db) = .error e := by
      cases hg : s.getGroup g (s.written now q t db) with
      | error e' =>
        rw [hg] at hfirst
        cases hfirst
        rfl
      | ok G =>
        rw [hg] at hfirst
        cases hfirst
    obtain ⟨hkind, hrow⟩ := row_of_getGroup_error ht admits hload
    exact .inr ⟨hkind, hload, t, ht, hrow, Database.withMembers_put ht _, filter_effect hq now t,
      fun hagain => perform_written hq ht hagain⟩

/-- Two members without clocks in a table without keys: to take one out fails on what is left, and
it is out. -/
theorem failed_change_undated :
    let row (id : Uuid) : MemberRow := ⟨plainSpace.text, id.text, defaultRegion, none, some 0, none,
      some (Codec.frame (.create id 7 []))⟩
    let t : MemberTable := ⟨false, false, [(1, row plainSpace), (2, row taggedSpace)]⟩
    let db : Database := ⟨[(Sql.memberTable defaultTablePrefix, .members t)]⟩
    let q : Request := .removeFromGroup (.uuid plainSpace) (.create taggedSpace 7 [])
    let e : Error := .consistency plainSpace.text
    let x := standard.backend.perform 2000 q db
    q.changed? = some plainSpace ∧ x.1 = .error e ∧
      (((∃ c, e = .encode c) ∨ ∃ f, e = .statement f) ∧ x.2 = db ∨
        ((∃ c, e = .decode c) ∨ e = .consistency plainSpace.text) ∧
          standard.getGroup plainSpace x.2 = .error e ∧
          ∃ t, db.members? standard.tablePrefix = some t ∧
            (∃ r ∈ t.rows, standard.inGroup plainSpace r ∧
              (r.createdDate = none ∨ ∃ c, standard.Fails r c)) ∧
            db.WithMembers standard.tablePrefix (standard.effect 2000 q t) x.2 ∧
            ((standard.effect 2000 q t).entries.filter
                (fun e => !standard.inGroup plainSpace e.2) =
              t.entries.filter fun e => !standard.inGroup plainSpace e.2) ∧
            ((t.keyed = true ∨ ∀ key m, q ≠ .addToGroup key m) →
              ∀ now', (standard.backend.perform now' q x.2).2 = x.2)) := by
  intro row t db q e x
  have he : x.1 = .error e := rfl
  exact ⟨rfl, he, failed_change rfl he⟩

/-- A failed change that is done: a member is taken out of a group, and another one, whose bytes are
damaged, makes the answer an error. -/
theorem failed_removal_done :
    let key : Key := .uuid plainSpace
    let m : Message := .create taggedSpace 7 [1]
    let row (id : Uuid) (bytes : Bytes) : MemberRow :=
      ⟨plainSpace.text, id.text, defaultRegion, some 1000, some 0, none, some bytes⟩
    let good := row m.id (Codec.frame m)
    let damaged := row plainSpace []
    let db : Database := ⟨[(Sql.memberTable defaultTablePrefix,
      .members ⟨true, true, [(1, good), (2, damaged)]⟩)]⟩
    let x := standard.backend.perform 2000 (.removeFromGroup key m) db
    x.1 = .error (.decode (.truncated 5 0)) ∧
      db.members? defaultTablePrefix = some ⟨true, true, [(1, good), (2, damaged)]⟩ ∧
      x.2.members? defaultTablePrefix = some ⟨true, true, [(2, damaged)]⟩ ∧
      x.2.members? defaultTablePrefix ≠ db.members? defaultTablePrefix := by
  intro key m row good damaged db x
  have hstored : db.members? defaultTablePrefix =
      some ⟨true, true, [(1, good), (2, damaged)]⟩ := by simp [Database.members?, db]
  have hdelete : (⟨true, true, [(1, good), (2, damaged)]⟩ : MemberTable).delete
      (standard.isMember plainSpace m.id) = ⟨true, true, [(2, damaged)]⟩ := rfl
  have hload : standard.getGroup plainSpace (db.put (Sql.memberTable defaultTablePrefix)
      (.members ⟨true, true, [(2, damaged)]⟩)) = .error (.decode (.truncated 5 0)) := rfl
  have hremoved : standard.removeFromGroup plainSpace m.id db =
      (.error (.decode (.truncated 5 0)), db.put (Sql.memberTable defaultTablePrefix)
        (.members ⟨true, true, [(2, damaged)]⟩)) := by
    have hprefix : standard.tablePrefix = defaultTablePrefix := rfl
    rw [removeFromGroup, hprefix, Database.updateMembers, hstored]
    simp only [hdelete, reload, hload]
  have hx : x = (.error (.decode (.truncated 5 0)), db.put (Sql.memberTable defaultTablePrefix)
      (.members ⟨true, true, [(2, damaged)]⟩)) := by
    show ((standard.removeFromGroup plainSpace m.id db).1.map Answer.group,
      (standard.removeFromGroup plainSpace m.id db).2) = _
    rw [hremoved]
    rfl
  have hdone : x.2.members? defaultTablePrefix = some ⟨true, true, [(2, damaged)]⟩ := by
    rw [hx]
    exact (Database.members?_putMembers hstored).trans (if_pos rfl)
  refine ⟨congrArg Prod.fst hx, hstored, hdone, ?_⟩
  rw [hdone, hstored]
  simp

end Store

end MessageDepot.Sql
