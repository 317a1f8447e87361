import MessageDepot.Proofs.History
import MessageDepot.Proofs.RelationalRefinement

/-!
# A loaded group is what its history says

The members of a group in a ledger change with every request as the history of the group does,
and a store in a database answers as its ledger, so what is loaded from the database is told by
the requests that were made and by what came of them.

Results:
* `Ledger.standings_perform`: one request.
* `standings_run`: a session.
* `group_of_history`: what a store loads, and what it answers to a change of a group.
-/
namespace MessageDepot

/-! ## Ledgers -/

def Member.standing (m : Member) : Standing := ⟨m.joined, m.message, m.isMarked⟩

namespace Member

theorem isIn_of_mem_roll {region : String} {g : Uuid} {L : Ledger} {m : Member}
    (h : m ∈ L.roll region g) : m.region = region ∧ m.group = g := by
  have hm := (List.mem_filter.1 h).2
  simpa [isIn] using hm

theorem standing_mark (now : Int64) (covers : Member → Bool) (m : Member) :
    (m.mark now covers).standing = m.standing.mark (covers m) := by
  rw [standing, mark_joined, mark_message, isMarked_mark]
  rfl

end Member

namespace Ledger

/-- The members of a group as a history tells of them. -/
def standings (region : String) (g : Uuid) (L : Ledger) : List Standing :=
  (L.roll region g).map (·.standing)

section
variable {sees : Nat → Bool} {region : String} {g : Uuid} {r : Record} {L : Ledger}

theorem standings_mark {now : Int64} {covers : Member → Bool} (ha : r.added? sees g = none)
    (hr : ∀ id, r.removes sees g id = false)
    (hm : ∀ m ∈ L.roll region g, covers m = r.marks sees g m.message.id) :
    (L.mark now covers).standings region g = advance sees g (L.standings region g) r := by
  simp only [standings, roll_mark, advance, remaining, ha, hr, List.any_cons, List.any_nil,
    Bool.or_false, Bool.not_false, List.filter_true, Option.toList_none, List.map_nil,
    List.append_nil, List.map_map]
  refine List.map_congr_left fun m hmem => ?_
  show (m.mark now covers).standing = m.standing.mark (r.marks sees g m.message.id)
  rw [Member.standing_mark, hm m hmem]

theorem standings_dismiss {gone : Member → Bool} (ha : r.added? sees g = none)
    (hm : ∀ id, r.marks sees g id = false)
    (hr : ∀ m ∈ L.roll region g, gone m = r.removes sees g m.message.id) :
    (L.dismiss gone).standings region g = advance sees g (L.standings region g) r := by
  have hid : (fun e : Standing => e.mark false) = id := by
    funext e
    simp [Standing.mark]
  simp only [standings, roll_dismiss_eq_filter, advance, remaining, ha, hm, List.any_cons,
    List.any_nil, Bool.or_false, hid, Option.toList_none, List.map_nil, List.append_nil,
    List.map_id, List.filter_map]
  congr 1
  refine List.filter_congr fun m hmem => ?_
  rw [hr m hmem]
  rfl

theorem standings_join {m : Member}
    (h : L.members.any (·.isAt m.region m.group m.message.id) = false) :
    (L.join m).standings region g =
      L.standings region g ++ if m.isIn region g then [m.standing] else [] := by
  rw [standings, roll, members_join h, List.filter_append, List.map_append, List.filter_singleton]
  cases m.isIn region g <;> rfl

variable {n i : Nat} {region' : String} {codec : Codec} (hs : sees i = decide (region = region'))
include hs

/-- A member of the group that is looked at, and whether a request to `g'` concerns it. -/
theorem isIn_eq {m : Member} (h : m ∈ L.roll region g) (g' : Uuid) :
    m.isIn region' g' = (sees i && g' = g) := by
  obtain ⟨h1, h2⟩ := Member.isIn_of_mem_roll h
  rw [Member.isIn, h1, h2, hs]
  simp only [eq_comm]

theorem isAt_eq {m : Member} (h : m ∈ L.roll region g) (g' id : Uuid) :
    m.isAt region' g' id = (sees i && (g' = g && id = m.message.id)) := by
  rw [Member.isAt, isIn_eq hs h, Bool.and_assoc]
  simp only [eq_comm]

theorem standings_addToGroup (now : Int64) (key : Key) (m : Message) (L : Ledger) :
    let x := L.addToGroup region' codec now key.identifier m
    x.2.standings region g = advance sees g (L.standings region g)
      ⟨n, now, i, .addToGroup key m, x.1.isOk, []⟩ := by
  unfold addToGroup
  split
  · exact (advance_failed sees g rfl _).symm
  · rename_i hd
    split
    · rename_i hsize
      -- the new member stands behind the others
      show (L.join (.enrol region' codec now key.identifier m hsize)).standings region g =
        advance sees g _ ⟨n, now, i, .addToGroup key m, true, []⟩
      rw [standings_join (Bool.eq_false_iff.2 hd), advance]
      congr 1
      · simp [remaining, Record.removes, Record.marks, Standing.mark]
      · have hin : (Member.enrol region' codec now key.identifier m hsize).isIn region g =
            (sees i && key.identifier = g) := by
          show (region' = region && key.identifier = g) = _
          rw [hs]
          simp only [eq_comm]
        have ha : Record.added? sees g ⟨n, now, i, .addToGroup key m, true, []⟩ =
            if sees i && key.identifier = g then some m else none := by
          simp only [Record.added?, Bool.and_true]
        rw [hin, ha]
        split <;> rfl
    · exact (advance_failed sees g rfl _).symm

theorem standings_expire (now : Int64) (timeout : Timeout) (L : Ledger) :
    let x := (backend region' codec).perform now (.expire timeout) L
    x.2.standings region g = advance sees g (L.standings region g)
      ⟨n, now, i, .expire timeout, (Response.ofExcept x.1).isAnswered,
        (Response.ofExcept x.1).expired⟩ := by
  obtain ⟨gs, h1, h2⟩ := expire_eq region' codec now timeout L
  have hx : ((backend region' codec).perform now (.expire timeout) L).1 = .ok (.expired gs) := by
    simp only [Backend.perform, h1]
    rfl
  let r : Record := ⟨n, now, i, .expire timeout, true, gs.map (·.id)⟩
  have hr (id : Uuid) : r.removes sees g id = decide (region = region' ∧ gs.any (·.id = g)) := by
    rw [Bool.eq_iff_iff]
    simp [r, Record.removes, hs]
  have hm (id : Uuid) : r.marks sees g id = false := by simp [r, Record.marks]
  show standings region g ((backend region' codec).expire now timeout L).2 = _
  simp only [hx]
  show _ = advance sees g _ r
  rw [standings, h2]
  split
  · rename_i hc
    simp [advance, remaining, hr, hc, Record.added?, r]
  · rename_i hc
    exact (advance_idle sees g rfl (fun id => (hr id).trans (decide_eq_false hc)) hm _).symm

/-- One request to a store of the region `region'`. -/
theorem standings_perform (now : Int64) (q : Request) (L : Ledger) :
    let x := (backend region' codec).perform now q L
    x.2.standings region g = advance sees g (L.standings region g)
      ⟨n, now, i, q, (Response.ofExcept x.1).isAnswered,
        (Response.ofExcept x.1).expired⟩ := by
  cases q with
  | addMessage m =>
    have hm := members_addMessage region' codec now m L
    show standings region g (L.addMessage region' codec now m).2 = _
    rw [advance_idle sees g rfl (fun id => by simp [Record.removes])
      (fun id => by simp [Record.marks]), standings, standings, roll, roll, hm]
  | addToGroup key m =>
    show standings region g (L.addToGroup region' codec now key.identifier m).2 = _
    refine (standings_addToGroup (n := n) hs now key m L).trans ?_
    simp only [Backend.perform, backend]
    cases (L.addToGroup region' codec now key.identifier m).1 <;> rfl
  | markGroup group =>
    refine standings_mark rfl (fun id => by simp [Record.removes]) ?_
    intro m hm
    rw [isIn_eq hs hm, ← Bool.and_true (sees i)]
    rfl
  | markMessage key x =>
    refine standings_mark rfl (fun id => by simp [Record.removes]) ?_
    intro m hm
    rw [isAt_eq hs hm, ← Bool.and_true (sees i)]
    rfl
  | removeFromGroup key x =>
    refine standings_dismiss rfl (fun id => by simp [Record.marks]) ?_
    intro m hm
    rw [isAt_eq hs hm, ← Bool.and_true (sees i)]
    rfl
  | removeGroup key =>
    refine standings_dismiss rfl (fun id => by simp [Record.marks]) ?_
    intro m hm
    rw [isIn_eq hs hm, ← Bool.and_true (sees i)]
    rfl
  | expire timeout => exact standings_expire hs now timeout L
  | _ =>
    exact (advance_idle sees g rfl (fun id => by simp [Record.removes])
      (fun id => by simp [Record.marks]) _).symm

end

end Ledger

/-! ## Groups -/

/-- By the clock of the addition alone. -/
def Standing.addedBefore (a b : Standing) : Bool := a.clock ≤ b.clock

/-- By the clock of the addition, and then by its step. -/
def AddedBefore (a b : Nat × Standing) : Prop :=
  a.2.clock < b.2.clock ∨ a.2.clock = b.2.clock ∧ a.1 < b.1

/-- A group of certain members, each of them once: the unmarked ones in the order of their
additions, under the least clock of all. -/
structure Group.Shows (g : Uuid) (members : List (Nat × Standing)) (G : Group) : Prop where
  id : G.id = g
  once : (members.map (·.2.message.id)).Nodup
  unmarked : ∃ es : List (Nat × Standing), es.Perm (members.filter (!·.2.marked)) ∧
    es.Pairwise AddedBefore ∧ G.unmarked = es.map (·.2.message)
  marked : G.marked.Perm ((members.filter (·.2.marked)).map (·.2.message))
  timestamp : G.timestamp = (members.map (·.2.clock)).min?
  empty : G = Group.empty g ↔ members = []

/-- Sorting by clocks goes through what has them. -/
theorem sort_standings {α : Type} (f : α → Standing) (p : Standing → Bool) (as : List α) :
    (sort (fun a b => (f a).addedBefore (f b)) (as.filter fun a => p (f a))).map f =
      sort Standing.addedBefore ((as.map f).filter p) := by
  rw [List.filter_map]
  exact map_sort (fun _ _ => rfl) _

namespace Ledger

variable {region : String} {g : Uuid} {L : Ledger} {members : List (Nat × Standing)}
  (h : members.map (·.2) = L.standings region g)
include h

theorem map_members {α : Type} (f : Standing → α) :
    members.map (fun e => f e.2) = (L.roll region g).map fun m => f m.standing := by
  have hm := congrArg (List.map f) h
  simpa only [standings, List.map_map, Function.comp_def] using hm

theorem map_filter_members {α : Type} (p : Standing → Bool) (f : Standing → α) :
    (members.filter fun e => p e.2).map (fun e => f e.2) =
      ((L.roll region g).filter fun m => p m.standing).map fun m => f m.standing := by
  have hm := congrArg (fun es => (es.filter p).map f) h
  simpa only [standings, List.filter_map, List.map_map, Function.comp_def] using hm

theorem nodup_members : (members.map (·.2.message.id)).Nodup := by
  rw [map_members h (·.message.id)]
  have ha : (L.roll region g).Pairwise Member.Apart := L.membersApart.filter _
  refine List.pairwise_map.2 (ha.imp_of_mem fun {a b} hma hmb hab hid => ?_)
  obtain ⟨h1, h2⟩ := Member.isIn_of_mem_roll hma
  obtain ⟨h3, h4⟩ := Member.isIn_of_mem_roll hmb
  exact hab ⟨h1.trans h3.symm, h2.trans h4.symm, hid⟩

theorem sort_members : (sort (fun a b => a.2.addedBefore b.2) (members.filter (!·.2.marked))).map
    (·.2.message) = (L.group region g).unmarked := by
  have h1 : (sort (fun a b => a.2.addedBefore b.2) (members.filter (!·.2.marked))).map (·.2) =
      sort Standing.addedBefore ((members.map (·.2)).filter (!·.marked)) :=
    sort_standings Prod.snd (!·.marked) members
  have h2 : (sort Member.joinedBefore ((L.roll region g).filter (!·.isMarked))).map (·.standing) =
      sort Standing.addedBefore ((L.standings region g).filter (!·.marked)) :=
    sort_standings Member.standing (!·.marked) _
  rw [h, ← h2] at h1
  have hm := congrArg (List.map (·.message)) h1
  rw [List.map_map, List.map_map] at hm
  exact hm

/-- The group of a ledger, from what a history tells of its members. -/
theorem group_shows (ho : members.Pairwise fun a b => a.1 < b.1) :
    (L.group region g).Shows g members where
  id := rfl
  once := nodup_members h
  unmarked := by
    refine ⟨_, sort_perm (fun a b => a.2.addedBefore b.2) _, ?_, (sort_members h).symm⟩
    have htotal (a b : Nat × Standing) : a.2.addedBefore b.2 ∨ b.2.addedBefore a.2 := by
      simp only [Standing.addedBefore, decide_eq_true_eq]
      exact Int64.le_total ..
    have htrans (a b c : Nat × Standing) (hab : a.2.addedBefore b.2) (hbc : b.2.addedBefore c.2) :
        a.2.addedBefore c.2 := by
      simp only [Standing.addedBefore, decide_eq_true_eq] at *
      exact Int64.le_trans hab hbc
    refine (pairwise_sort_stable htotal htrans (ho.filter _)).imp ?_
    rintro a b ⟨hab, hstep⟩
    simp only [Standing.addedBefore, decide_eq_true_eq] at hab hstep
    rcases Int64.le_iff_lt_or_eq.1 hab with hlt | heq
    · exact .inl hlt
    · exact .inr ⟨heq, hstep (heq ▸ Int64.le_refl _)⟩
  marked := .of_eq (map_filter_members h (·.marked) (·.message)).symm
  timestamp := by
    rw [map_members h (·.clock)]
    rfl
  empty := by
    rw [group_eq_empty_iff, ← List.map_eq_nil_iff (f := Member.standing), ← standings, ← h,
      List.map_eq_nil_iff]

end Ledger

/-! ## Sessions -/

namespace Sql

/-- Whether two stores work on the same rows. -/
def Store.shares (s t : Store) : Bool :=
  s.region = t.region && foldName s.tablePrefix = foldName t.tablePrefix

/-- The stores that work on the rows of a store. -/
def sharing (stores : Nat → Option Store) (s : Store) (i : Nat) : Bool := (stores i).any s.shares

/-- The members of a group in the ledger of a store. -/
def Store.standings (s : Store) (g : Uuid) (W : Ledgers) : List Standing :=
  (W (foldName s.tablePrefix)).standings s.region g

theorem standings_request {stores : Nat → Option Store} {i : Nat} {t : Store}
    (ht : stores i = some t) (s : Store) (g : Uuid) (n : Nat) (now : Int64) (q : Request)
    (W : Ledgers) :
    let x := ((Ledger.backend t.region t.codec).within (foldName t.tablePrefix)).perform now q W
    s.standings g x.2 = advance (sharing stores s) g (s.standings g W)
      ⟨n, now, i, q, (Response.ofExcept x.1).isAnswered,
        (Response.ofExcept x.1).expired⟩ := by
  have hsees : sharing stores s i = s.shares t := by rw [sharing, ht]; rfl
  rw [Backend.perform_within]
  by_cases hn : foldName s.tablePrefix = foldName t.tablePrefix
  · have hs : sharing stores s i = decide (s.region = t.region) := by simp [hsees, Store.shares, hn]
    simp only [Backend.putAt, Store.standings, hn, Function.update_self]
    exact Ledger.standings_perform hs now q _
  · have hs : sharing stores s i = false := by simp [hsees, Store.shares, hn]
    simp only [Backend.putAt, Store.standings, Function.update_of_ne hn]
    exact (advance_unseen (sharing stores s) g (r := ⟨n, now, i, q, _, _⟩) hs _).symm

/-- One event: a request is made at the clock of the session, and streams only read. -/
theorem standings_step (stores : Nat → Option Store) (s : Store) (g : Uuid) (n : Nat)
    (t : Session Ledgers) (e : Event) (es : List Event) (rs : List (Response Ledger.Refusal)) :
    let x := t.step (ledgers stores) e
    (history n t.clock (e :: es) (x.1 :: rs)).foldl (advance (sharing stores s) g)
        (s.standings g t.state) =
      (history (n + 1) x.2.clock es rs).foldl (advance (sharing stores s) g)
        (s.standings g x.2.state) := by
  cases e with
  | clock now => rfl
  | request i q =>
    simp only [history, List.foldl_cons]
    cases ht : stores i with
    | none =>
      simp only [Session.step, ledgers, ht, Option.map_none]
      rw [advance_failed _ _ rfl]
    | some u =>
      simp only [Session.step, ledgers, ht, Option.map_some]
      rw [← standings_request ht]
  | openStream i name =>
    simp only [history, Session.step]
    split
    · rfl
    · split <;> rfl
  | poll name =>
    simp only [history, Session.step]
    split
    · rfl
    · split
      · rfl
      · split <;> rfl

/-- A session on ledgers changes the members of a group as its history does, by induction on the
events. -/
theorem standings_run (stores : Nat → Option Store) (s : Store) (g : Uuid) (es : List Event) :
    ∀ (n : Nat) (t : Session Ledgers), s.standings g (t.run (ledgers stores) es).2.state =
      (history n t.clock es (t.run (ledgers stores) es).1).foldl (advance (sharing stores s) g)
        (s.standings g t.state) := by
  induction es with
  | nil => intro n t; rfl
  | cons e es ih =>
    intro n t
    exact (ih (n + 1) _).trans (standings_step stores s g n t e es _).symm

/-! ## Loaded groups -/

/-- What stands by the history of a session on a new database is in the ledger of the store. -/
theorem map_standing_history (stores : Nat → Option Store) (s : Store) (g : Uuid) (clock : Int64)
    (es : List Event) :
    let x := (Session.start (fun _ => Ledger.empty) clock).run (ledgers stores) es
    (standing (sharing stores s) g (history 0 clock es x.1)).map (·.2) =
      s.standings g x.2.state := by
  intro x
  have hrun := standings_run stores s g es 0 (Session.start (fun _ => Ledger.empty) clock)
  have hstart : s.standings g (Session.start (fun _ => Ledger.empty) clock).state = [] := rfl
  rw [hstart, foldl_advance] at hrun
  exact hrun.symm

theorem reload_answers {s : Store} {g : Uuid} {db : Database} {written : Except Fault Database}
    {G : Group} (h : (s.reload g db written).1 = .ok G) :
    s.getGroup g (s.reload g db written).2 = .ok G := by
  cases written with
  | error f => cases h
  | ok db => exact h

theorem addToGroup_answers {s : Store} {now : Int64} {g : Uuid} {m : Message} {db : Database}
    {G : Group} (h : (s.addToGroup now g m db).1 = .ok G) :
    s.getGroup g (s.addToGroup now g m db).2 = .ok G := by
  unfold Store.addToGroup at h ⊢
  cases he : s.codec.encode m with
  | error e =>
    rw [he] at h
    cases h
  | ok b =>
    rw [he] at h
    exact reload_answers h

/-- A change of a group answers the group as it is loaded afterwards. -/
theorem perform_answers {s : Store} {now : Int64} {q : Request} {db : Database} {g : Uuid}
    (hq : q.changed? = some g) {a : Answer Error} (h : (s.backend.perform now q db).1 = .ok a) :
    ∃ G, a = .group G ∧ s.getGroup g (s.backend.perform now q db).2 = .ok G := by
  have hmap {x : Except Error Group} (hx : x.map Answer.group = .ok a) :
      ∃ G, a = .group G ∧ x = .ok G := by
    cases x with
    | error e => cases hx
    | ok G => cases hx; exact ⟨G, rfl, rfl⟩
  cases q with
  | addToGroup key m =>
    cases hq
    obtain ⟨G, ha, hG⟩ := hmap h
    exact ⟨G, ha, addToGroup_answers hG⟩
  | markGroup group =>
    cases hq
    obtain ⟨G, ha, hG⟩ := hmap h
    exact ⟨G, ha, reload_answers hG⟩
  | markMessage key m =>
    cases hq
    obtain ⟨G, ha, hG⟩ := hmap h
    exact ⟨G, ha, reload_answers hG⟩
  | removeFromGroup key m =>
    cases hq
    obtain ⟨G, ha, hG⟩ := hmap h
    exact ⟨G, ha, reload_answers hG⟩
  | _ => cases hq

/-- After any session on a new database, every store loads for every group what the history of
the session says of it. If the last event was a change of that group through the store, it was
answered with this very value, unless it failed. -/
theorem group_of_history {prefixes : List String} {db : Database}
    (h : Database.initialise prefixes = .ok db) {stores : Nat → Option Store}
    (hp : ∀ i, ∀ s ∈ stores i, s.tablePrefix ∈ prefixes) (clock : Int64) (es : List Event)
    (s : Store) (hs : s.tablePrefix ∈ prefixes) (g : Uuid) :
    let x := (Session.start db clock).run (backends stores) es
    ∃ G, s.getGroup g x.2.state = .ok G ∧
      G.Shows g (standing (sharing stores s) g (history 0 clock es x.1)) ∧
      ∀ es' i q a, es = es' ++ [.request i q] → stores i = some s → q.changed? = some g →
        x.1.getLast? = some (.answered a) → a = .group G := by
  obtain ⟨halike, r⟩ := run_alike_ledgers hp h clock es
  obtain ⟨G, hload, hshows⟩ : ∃ G,
      s.getGroup g ((Session.start db clock).run (backends stores) es).2.state = .ok G ∧
        G.Shows g (standing (sharing stores s) g
          (history 0 clock es ((Session.start db clock).run (backends stores) es).1)) := by
    refine ⟨_, s.getGroup_eq (r.state _ hs) g, ?_⟩
    rw [history_congr halike]
    exact Ledger.group_shows (map_standing_history stores s g clock es)
      (pairwise_standing _ g 0 clock es _)
  refine ⟨G, hload, hshows, ?_⟩
  intro es' i q a he hi hq ha
  subst he
  rw [Session.run_concat] at hload ha
  simp only [List.getLast?_concat, Option.some.injEq, Session.step, backends, hi,
    Option.map_some] at hload ha
  obtain ⟨G', rfl, hG⟩ := perform_answers hq (Response.ofExcept_eq_answered ha)
  rw [hload] at hG
  cases hG
  rfl

/-- A member that is removed and added again, at one clock with another that is marked. -/
theorem group_of_history_readded :
    let db : Database := ⟨[(messageTable "INT_", .messages ⟨true, []⟩),
      (memberTable "INT_", .members ⟨true, true, []⟩)]⟩
    let s : Store := ⟨"DEFAULT", "INT_", .standard⟩
    let stores : Nat → Option Store := fun i => [s][i]?
    let key : Key := .uuid plainSpace
    let m : Message := .create plainSpace 0 [1]
    let n : Message := .create taggedSpace 0 []
    let es : List Event := [.request 0 (.addToGroup key m), .request 0 (.addToGroup key n),
      .request 0 (.removeFromGroup key m), .request 0 (.markMessage key n),
      .request 0 (.addToGroup key m)]
    Database.initialise ["INT_"] = .ok db ∧ (∀ i, ∀ s ∈ stores i, s.tablePrefix ∈ ["INT_"]) ∧
      s.tablePrefix ∈ ["INT_"] ∧
      let x := (Session.start db 7).run (backends stores) es
      ∃ G, s.getGroup key.identifier x.2.state = .ok G ∧
        G.Shows key.identifier
          (standing (sharing stores s) key.identifier (history 0 7 es x.1)) ∧
        ∀ es' i q a, es = es' ++ [.request i q] → stores i = some s →
          q.changed? = some key.identifier → x.1.getLast? = some (.answered a) → a = .group G := by
  intro db s stores key m n es
  have hp : ∀ i, ∀ s ∈ stores i, s.tablePrefix ∈ ["INT_"] := by
    intro i s hs
    have hm := List.mem_of_getElem? hs
    simp only [List.mem_singleton] at hm
    rw [hm]
    decide
  exact ⟨rfl, hp, by decide, group_of_history rfl hp 7 es s (by decide) key.identifier⟩

end Sql

end MessageDepot
