import MessageDepot.Proofs.Depot
import MessageDepot.Proofs.Trace

/-!
# Streams of groups

A stream takes the keys of its region when it is opened and loads a group at each poll. The keys
are the texts of the groups that have members then, each once, and every text is read back as the
identifier it was made from, so a poll loads the very group whose member was found, as it is
stored at that moment.

Results:
* `Ledger.exists_groups`: the keys of a ledger are the texts of its groups.
* `hasMember_iff`: the rows of a group are those of its roll in the ledger.
* `exists_getGroup`: what a store loads of a group.
* `stream_yields_groups`: what the polls of a stream answer in any session.
-/
namespace MessageDepot

/-! ## Groups of ledgers -/

namespace Ledger

theorem roll_ne_nil_iff {region : String} {g : Uuid} {L : Ledger} :
    L.roll region g ≠ [] ↔ ∃ m ∈ L.members, m.isIn region g = true := by
  simp [roll, List.filter_eq_nil_iff]

theorem mem_groupKeys {region key : String} {L : Ledger} :
    key ∈ L.groupKeys region ↔ ∃ g, L.roll region g ≠ [] ∧ g.text = key := by
  simp only [groupKeys, mem_sort, mem_distinct, List.mem_map, List.mem_filter, decide_eq_true_eq,
    roll_ne_nil_iff]
  constructor
  · rintro ⟨m, ⟨hm, hregion⟩, rfl⟩
    exact ⟨m.group, ⟨m, hm, by simp [Member.isIn, hregion]⟩, rfl⟩
  · rintro ⟨g, ⟨m, hm, hin⟩, rfl⟩
    simp only [Member.isIn, Bool.and_eq_true, decide_eq_true_eq] at hin
    exact ⟨m, ⟨hm, hin.1⟩, by rw [hin.2]⟩

/-- The keys are the texts of the groups that have members, each once. -/
theorem exists_groups (region : String) (L : Ledger) : ∃ gs : List Uuid, gs.Nodup ∧
    (∀ g, g ∈ gs ↔ L.roll region g ≠ []) ∧ L.groupKeys region = gs.map Uuid.text := by
  let gs := (L.groupKeys region).map fun key => (Key.text key).identifier
  have hkeys : gs.map Uuid.text = L.groupKeys region := by
    rw [List.map_map]
    refine (List.map_congr_left fun key hkey => ?_).trans (List.map_id _)
    obtain ⟨g, -, rfl⟩ := mem_groupKeys.1 hkey
    simp
  refine ⟨gs, ?_, fun g => ?_, hkeys.symm⟩
  · have hnodup : (L.groupKeys region).Nodup :=
      (sort_perm _ _).nodup_iff.2 (nodup_distinct _)
    rw [← hkeys] at hnodup
    exact List.Pairwise.of_map Uuid.text (fun _ _ hne heq => hne (congrArg Uuid.text heq)) hnodup
  · have hmem : g ∈ gs ↔ g.text ∈ L.groupKeys region := by
      rw [← hkeys, List.mem_map_of_injective fun _ _ => Uuid.text_injective]
    rw [hmem, mem_groupKeys]
    simp

end Ledger

theorem Group.Alike.eq_empty_iff {g h : Group} (a : g.Alike h) (id : Uuid) :
    g = Group.empty id ↔ h = Group.empty id := by
  have hempty {g h : Group} (a : g.Alike h) (hg : g = Group.empty id) : h = Group.empty id := by
    subst hg
    obtain ⟨hid, hunmarked, hmarked, htimestamp⟩ := a
    obtain ⟨i, u, m, t⟩ := h
    cases hid
    cases hunmarked
    cases htimestamp
    obtain rfl : m = [] := List.nil_perm.1 hmarked
    rfl
  exact ⟨hempty a, hempty a.symm⟩

/-- Every session of a trace stands for one on the refined states. -/
theorem Session.trace_related {σ τ ε φ : Type} {B : Nat → Option (Backend σ ε)}
    {C : Nat → Option (Backend τ φ)} {R : σ → τ → Prop}
    (h : ∀ i, Option.Rel (fun b c => Refines b c R) (B i) (C i)) (es : List Event) :
    ∀ {s : Session σ} {t : Session τ}, Related R s t →
      ∀ x ∈ s.trace B es, ∃ w, R x.before.state w := by
  induction es with
  | nil => intro s t _ x hx; cases hx
  | cons e es ih =>
    intro s t r x hx
    rcases List.mem_cons.1 hx with rfl | hx
    · exact ⟨t.state, r.state⟩
    · exact ih (step_alike h e r).2 x hx

namespace Depot

/-- A store's region has a row of a group. -/
def HasMember : (D : Depot) → Nat → Uuid → D.State → Prop
  | memory stores, i, g, t => ∃ s ∈ stores i, ∃ r ∈ t.members, s.inGroup g r = true
  | database stores, i, g, db =>
    ∃ s ∈ stores i, ∃ t ∈ db.members? s.tablePrefix, ∃ r ∈ t.rows, s.inGroup g r = true

variable {D : Depot} {i : Nat} {v : View} {B : Backend D.State D.Failure}

theorem hasMember_iff {s : D.State} {L : Ledger} (hv : D.view i = some v) (h : D.Holds i s L)
    (g : Uuid) : D.HasMember i g s ↔ L.roll v.region g ≠ [] := by
  have hsome {α : Type} {p : α → Bool} {rows : List α} :
      (∃ r ∈ rows, p r = true) ↔ rows.filter p ≠ [] := by simp [List.filter_eq_nil_iff]
  cases D with
  | memory stores =>
    obtain ⟨store, hstore, rfl⟩ := Option.map_eq_some_iff.1 hv
    simp only [HasMember, hstore, Option.mem_some_iff, exists_eq_left', hsome]
    rw [store.filter_inGroup h g]
    simp
  | database stores =>
    obtain ⟨store, hstore, rfl⟩ := Option.map_eq_some_iff.1 hv
    obtain ⟨t, ht, hlists⟩ := (h store hstore).members
    simp only [HasMember, hstore, Option.mem_some_iff, exists_eq_left', ht, hsome]
    rw [store.filter_inGroup hlists g]
    simp [Ledger.roll]

/-- A store that keeps a ledger loads every group, empty where its region has no member. -/
theorem exists_getGroup {R : D.State → Sql.Ledgers → Prop} (hR : D.Represents R)
    (hv : D.view i = some v) (hB : D.backends i = some B) {s : D.State} {W : Sql.Ledgers}
    (r : R s W) (g : Uuid) : ∃ G, B.getGroup g s = .ok G ∧ G.id = g ∧
      (G = Group.empty g ↔ ¬D.HasMember i g s) := by
  obtain ⟨G, hG, halike⟩ := ((hR.refines_of_view hv hB).getGroup g r).exists_ok
  refine ⟨G, hG, halike.id, ?_⟩
  rw [halike.eq_empty_iff, hasMember_iff hv (hR.holds r i v hv), not_not]
  exact Ledger.group_eq_empty_iff v.region

/-- A stream that is opened in any session from new tables yields just the groups that have
members then, each once, as many as are counted, and then ends. Whatever happens in between, in
whatever streams, each poll answers what the group's load answers at that moment: the empty group
where all members are gone. -/
theorem stream_yields_groups {tables : D.State} (hnew : D.IsNew tables) (clock : Int64)
    (es : List Event) (hB : D.backends i = some B) {name : String} {later : List Event}
    (hlater : ∀ e ∈ later, e.opens name = false) :
    let s := ((Session.start tables clock).run D.backends es).2
    let x := s.step D.backends (.openStream i name)
    x.1 = .answered .done ∧ ∃ gs : List Uuid, gs.Nodup ∧
      (∀ g, g ∈ gs ↔ D.HasMember i g s.state) ∧ B.groupCount s.state = .ok gs.length ∧
        ∀ (k : Nat) (p : Step D.State D.Failure), (x.2.polls D.backends name later)[k]? = some p →
          match gs[k]? with
          | some g => ∃ G, p.response = .answered (.next (some G)) ∧
              B.getGroup g p.before.state = .ok G ∧ G.id = g ∧
                (G = Group.empty g ↔ ¬D.HasMember i g p.before.state)
          | none => p.response = .answered (.next none) := by
  obtain ⟨v, hv⟩ := exists_view hB
  obtain ⟨R, hR, -, hrelated⟩ := run_alike_ledgers hnew clock es
  generalize ((Session.start tables clock).run D.backends es).2 = s at hrelated
  generalize ((Session.start (fun _ => Ledger.empty) clock).run D.ledgers es).2 = t at hrelated
  have hrefines := hR.refines_of_view hv hB
  obtain ⟨keys, hkeys, rfl⟩ := (hrefines.groupKeys hrelated.state).exists_ok
  obtain ⟨n, hcount, rfl⟩ := (hrefines.groupCount hrelated.state).exists_ok
  obtain ⟨gs, hnodup, hmem, htexts⟩ := Ledger.exists_groups v.region (t.state v.tables)
  have hopen : s.step D.backends (.openStream i name) = _ := Session.step_openStream hB hkeys
  have hlookup : (s.keep name ⟨i, (t.state v.tables).groupKeys v.region⟩).streams.lookup name =
      some ⟨i, (t.state v.tables).groupKeys v.region⟩ := by
    rw [Session.lookup_keep, if_pos rfl]
  have hopened := (Session.step_alike hR.refines (.openStream i name) hrelated).2
  simp only
  rw [hopen] at hopened ⊢
  refine ⟨rfl, gs, hnodup, fun g => ?_, ?_, fun k p hp => ?_⟩
  · rw [hmem, hasMember_iff hv (hR.holds hrelated.state i v hv)]
  · rw [hcount, htexts, List.length_map]
  · have hresponse := Session.polls_eq hB later hlater _ _ hlookup k p hp
    rw [htexts, List.getElem?_map] at hresponse
    cases hg : gs[k]? with
    | none =>
      rw [hg] at hresponse
      exact hresponse
    | some g =>
      have htrace : p ∈ Session.trace D.backends _ later :=
        (List.mem_filter.1 (List.mem_of_getElem? hp)).1
      obtain ⟨W, hW⟩ := Session.trace_related hR.refines later hopened p htrace
      obtain ⟨G, hG, hloaded⟩ := exists_getGroup hR hv hB hW g
      have hload : B.loadKey g.text p.before.state = .ok G := by
        rw [Backend.loadKey, Key.identifier_text]
        exact hG
      rw [hg] at hresponse
      simp only [Option.map_some, hload] at hresponse
      exact ⟨G, hresponse, hG, hloaded⟩

/-- Two groups under a stream, of which one is emptied between two polls, a third is new, and a
second stream is opened and polled meanwhile. -/
theorem stream_yields_groups_emptied :
    let m : Message := .create plainSpace 0 [1]
    let es : List Event := [.request 0 (.addToGroup (.text "a") m),
      .request 1 (.addToGroup (.text "b") m), .request 2 (.addToGroup (.text "c") m)]
    let later : List Event := [.poll "first", .request 1 (.removeGroup (.text "a")),
      .request 1 (.removeFromGroup (.text "b") m), .request 0 (.addToGroup (.text "d") m),
      .openStream 0 "second", .poll "second", .poll "first", .clock 9, .poll "first"]
    let B := (Sql.Store.mk "DEFAULT" "INT_" .standard).backend
    threeStores.IsNew newDatabase ∧ threeStores.backends 0 = some B ∧
      (∀ e ∈ later, e.opens "first" = false) ∧
      let s := ((Session.start newDatabase 5).run threeStores.backends es).2
      let x := s.step threeStores.backends (.openStream 0 "first")
      x.1 = .answered .done ∧ ∃ gs : List Uuid, gs.Nodup ∧
        (∀ g, g ∈ gs ↔ threeStores.HasMember 0 g s.state) ∧
          B.groupCount s.state = .ok gs.length ∧
            ∀ (k : Nat) (p : Step threeStores.State threeStores.Failure),
              (x.2.polls threeStores.backends "first" later)[k]? = some p →
                match gs[k]? with
                | some g => ∃ G, p.response = .answered (.next (some G)) ∧
                    B.getGroup g p.before.state = .ok G ∧ G.id = g ∧
                      (G = Group.empty g ↔ ¬threeStores.HasMember 0 g p.before.state)
                | none => p.response = .answered (.next none) := by
  intro m es later B
  have hlater : ∀ e ∈ later, e.opens "first" = false := by decide
  exact ⟨isNew_threeStores, rfl, hlater, stream_yields_groups isNew_threeStores 5 es rfl hlater⟩

end Depot

end MessageDepot
