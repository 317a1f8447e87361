import MessageDepot.Proofs.Atomicity
import MessageDepot.Proofs.Expiry

/-!
# Expiry over damaged rows

A pass of expiry goes on where a removal succeeds, and ends at the first key whose group cannot be
loaded. Over rows of any content it finds what the tables held when it began: removals change
nothing of the groups that are still to be loaded, and a key that stands for a group that is gone
already finds it empty. The groups that expired in front of a damaged one are out of the table when
the pass ends there, and the error that it answers does not give them.

Results:
* `removes`: loads and removals on tables of any content.
* `expire_of_content`: what a pass answers and leaves, and when it leaves the table alone.
* `expire_damaged_loses`: a pass that fails and has removed a group.
-/
namespace MessageDepot.Sql.Store

variable (s : Store)

theorem removes : s.backend.Removes fun db => ∃ t, db.members? s.tablePrefix = some t where
  load_id := by
    rintro db ⟨t, ht⟩ g G (hG : s.getGroup g db = .ok G)
    have h := s.loads g t
    rw [← getGroup_of_table ht, hG] at h
    cases h with
    | empty => rfl
    | whole _ gathers => exact gathers.id
  remove := by
    rintro db ⟨t, ht⟩ g
    have hr := s.removeGroup_of_table ht g
    refine ⟨_, hr, ⟨t.delete (s.inGroup g), ?_⟩, s.getGroup_removeGroup hr⟩
    rw [Database.members?_putMembers ht, if_pos rfl]

/-- A group that is loaded with a clock has rows. -/
theorem exists_row_of_expired {db : Database} {t : MemberTable}
    (ht : db.members? s.tablePrefix = some t) {G : Group} (hG : s.getGroup G.id db = .ok G)
    {cutoff : Int64} (hexpired : Backend.isExpired cutoff G = true) :
    ∃ r ∈ t.rows, s.inGroup G.id r = true := by
  have h := s.loads G.id t
  rw [← getGroup_of_table ht, hG] at h
  generalize hx : Except.ok G = x at h
  cases h with
  | empty =>
    rw [Except.ok.inj hx] at hexpired
    cases hexpired
  | whole _ gathers =>
    obtain ⟨_, -, ⟨r, hr, hgroup, -⟩, -⟩ := gathers.timestamp
    exact ⟨r, hr, hgroup⟩
  | _ => cases hx

/-- What is left without some groups is the whole table just when none of them has a row. -/
theorem LeavesOut.members_eq_iff {gs : List Uuid} {db db' : Database} {t : MemberTable}
    (h : s.LeavesOut gs db db') (ht : db.members? s.tablePrefix = some t) :
    db'.members? s.tablePrefix = some t ↔ ∀ g ∈ gs, ∀ r ∈ t.rows, s.inGroup g r = false := by
  obtain ⟨u, hu, hmembers⟩ := h.members
  obtain rfl : t = u := Option.some.inj (ht.symm.trans hu)
  rw [hmembers, if_pos rfl, Option.some.injEq]
  have hentries : t.delete (fun r => gs.any (s.inGroup · r)) = t ↔
      t.entries.filter (fun e => !gs.any (s.inGroup · e.2)) = t.entries := by
    rw [MemberTable.delete]
    exact ⟨congrArg MemberTable.entries, fun h => by rw [h]⟩
  rw [hentries, List.filter_eq_self]
  simp only [MemberTable.rows, List.mem_map, Bool.not_eq_true', List.any_eq_false]
  grind

/-- A pass of expiry over a table with any rows. It finds the groups of the stored keys as they are
when it begins, up to the first that cannot be loaded. All that are found and have expired are out
of the table when it ends, each with all its rows, and nothing else is. They are the answer if every
group was found; else the answer is the error of the load alone. So a pass that fails has changed
the table unless nothing that it found had expired. -/
theorem expire_of_content (db : Database) (now : Int64) (timeout : Timeout) :
    (db.members? s.tablePrefix = none ∧
      s.backend.expire now timeout db = (.error (.statement .statement), db)) ∨
    ∃ t Gs failure, db.members? s.tablePrefix = some t ∧
      s.backend.Scans db (t.groupKeys s.region) Gs failure ∧
      let gone := distinct (Gs.filter fun G => G.timestamp.any (· < expiryCutoff now timeout))
      ∃ db', s.backend.expire now timeout db = (failure.elim (.ok gone) .error, db') ∧
        s.LeavesOut (gone.map (·.id)) db db' ∧
        (db'.members? s.tablePrefix = some t ↔ gone = []) := by
  have hkeys : s.backend.groupKeys db = (s.memberTable db).map fun t => t.groupKeys s.region := rfl
  rw [Backend.expire, hkeys, memberTable]
  cases ht : db.members? s.tablePrefix with
  | none => exact .inl ⟨rfl, rfl⟩
  | some t =>
    obtain ⟨Gs, failure, hscan⟩ := s.backend.exists_scans db (t.groupKeys s.region)
    refine .inr ⟨t, Gs, failure, rfl, hscan, ?_⟩
    intro gone
    have hdue : Backend.due (expiryCutoff now timeout) [] Gs = gone :=
      List.filter_eq_self.2 (by simp)
    have hpass := s.removes.expireKeys_clear (expiryCutoff now timeout) ⟨t, ht⟩ hscan [] (by simp)
    rw [hdue] at hpass
    have hleft := s.leavesOut_clear (gone.map (·.id)) ht
    refine ⟨_, hpass, hleft, (LeavesOut.members_eq_iff s hleft ht).trans ⟨fun hnone => ?_, ?_⟩⟩
    · refine List.eq_nil_iff_forall_not_mem.2 fun G hG => ?_
      obtain ⟨hmem, hexpired⟩ := List.mem_filter.1 (mem_distinct.1 hG)
      have hload := s.removes.getGroup_of_scans ⟨t, ht⟩ hscan G hmem
      obtain ⟨r, hr, hgroup⟩ := s.exists_row_of_expired ht hload hexpired
      rw [hnone G.id (List.mem_map_of_mem hG) r hr] at hgroup
      cases hgroup
    · intro hempty
      simp [hempty]

/-- A group has expired and the next one holds damaged bytes: the pass fails, and the rows of the
first group are in neither the table nor the answer. -/
theorem expire_damaged_loses :
    let m : Message := .create taggedSpace 7 [1]
    let row (group : Uuid) (bytes : Bytes) : MemberRow :=
      ⟨group.text, m.id.text, defaultRegion, some 1000, some 0, none, some bytes⟩
    let good := row plainSpace (Codec.frame m)
    let damaged := row taggedSpace []
    let t : MemberTable := ⟨true, true, [(1, good), (2, damaged)]⟩
    let db : Database := ⟨[(Sql.memberTable defaultTablePrefix, .members t)]⟩
    let x := standard.backend.expire 2000 ⟨0, 0, by decide⟩ db
    db.members? defaultTablePrefix = some t ∧ x.1 = .error (.decode (.truncated 5 0)) ∧
      x.2.members? defaultTablePrefix = some ⟨true, true, [(2, damaged)]⟩ ∧
      x.2.members? defaultTablePrefix ≠ db.members? defaultTablePrefix := by
  intro m row good damaged t db x
  have hstored : db.members? defaultTablePrefix = some t := by simp [Database.members?, db]
  have hprefix : standard.tablePrefix = defaultTablePrefix := rfl
  have hkeys : standard.backend.groupKeys db = .ok [plainSpace.text, taggedSpace.text] := by
    show (standard.memberTable db).map (fun t => t.groupKeys defaultRegion) = _
    have htable : standard.memberTable db = .ok t := by rw [memberTable, hprefix, hstored]
    rw [htable]
    simp only [t, good, damaged, row, m]
    rfl
  have hgood : standard.getGroup plainSpace db = .ok ⟨plainSpace, [m], [], some 1000⟩ := by
    have hread : standard.decodeRows [good] = .ok [m] := by
      rw [decodeRows, mapM_eq_ok_iff]
      exact .cons (standard.decodeBytes_frame (by decide)) .nil
    have hunmarked : standard.unmarkedRows plainSpace t = [good] := rfl
    have hclock : standard.oldest? plainSpace t = some 1000 := rfl
    rw [getGroup_of_table hstored, assemble, hunmarked, hclock, hread]
    rfl
  have hdelete : t.delete (standard.inGroup plainSpace) = ⟨true, true, [(2, damaged)]⟩ := rfl
  have hremoved := standard.removeGroup_of_table hstored plainSpace
  rw [hdelete, hprefix] at hremoved
  have hdamaged : standard.getGroup taggedSpace (db.put (Sql.memberTable defaultTablePrefix)
      (.members ⟨true, true, [(2, damaged)]⟩)) = .error (.decode (.truncated 5 0)) := rfl
  have hpass : x = (.error (.decode (.truncated 5 0)), db.put (Sql.memberTable defaultTablePrefix)
      (.members ⟨true, true, [(2, damaged)]⟩)) := by
    have hload (g : Uuid) (db : Database) :
        standard.backend.loadKey g.text db = standard.getGroup g db := by
      rw [Backend.loadKey, Key.identifier_text]
      rfl
    have hremove : standard.backend.removeGroup = standard.removeGroup := rfl
    simp only [x, Backend.expire, hkeys, Backend.expireKeys, hload, hgood, hremove, hremoved,
      hdamaged]
    rfl
  have hleft : x.2.members? defaultTablePrefix = some ⟨true, true, [(2, damaged)]⟩ := by
    rw [hpass]
    exact (Database.members?_putMembers hstored).trans (if_pos rfl)
  refine ⟨hstored, congrArg Prod.fst hpass, hleft, ?_⟩
  rw [hleft, hstored]
  simp [t]

end MessageDepot.Sql.Store
