import Mathlib.Data.List.Induction
import Mathlib.Data.List.Pairwise
import MessageDepot.Proofs.Atomicity
import MessageDepot.Proofs.MessageHistory
import MessageDepot.Proofs.TableInvariant
import MessageDepot.Proofs.Trace

/-!
# Marks are set once

A mark rewrites rows in place, and only those that have none, so the first mark of a row stays with
the clock of its moment. What one event does to the rows of a member table is said once, with no
regard to what they hold (`row_of_step`): it puts in a row under a new key, or leaves rows that were
there, marked where it marks. From this follows the life of every row, by induction on the events
(`row_life`), and that nothing is left to a second mark.

Results:
* `Store.mark_stamped`: a row that has a mark keeps it.
* `Store.row_of_perform`, `row_of_step`: where the rows come from that one event leaves.
* `row_life`: how every row was put in, and what has become of it since.
* `Store.marks`, `tables_repeated`: what a mark changes, and that it changes nothing again.
* `marked_once`: all of it, for every session on a new database.
-/
namespace MessageDepot

/-- Whether a request marks rows. -/
def Request.isMark : Request → Bool
  | .markGroup _ | .markMessage _ _ => true
  | _ => false

/-- The session after some events. -/
def Session.after {σ ε : Type} (s : Session σ) (B : Nat → Option (Backend σ ε))
    (es : List Event) : Session σ := (s.run B es).2

theorem Session.after_append {σ ε : Type} (B : Nat → Option (Backend σ ε)) (es fs : List Event) :
    ∀ s : Session σ, s.after B (es ++ fs) = (s.after B es).after B fs := by
  induction es with
  | nil => intro s; rfl
  | cons e es ih => intro s; exact ih (s.step B e).2

namespace Sql

/-! ## Rows of a database -/

/-- The rows of the member table of a prefix. -/
def Database.memberRows (db : Database) (p : String) : List MemberRow :=
  ((db.members? p).map (·.rows)).getD []

theorem Database.members?_congr (db : Database) {p q : String} (h : foldName p = foldName q) :
    db.members? p = db.members? q := by
  rw [members?, members?, memberTable_inj.2 h]

theorem Database.memberRows_of_table {db : Database} {p q : String} {t : MemberTable}
    (ht : db.members? q = some t) (hname : foldName p = foldName q) : db.memberRows p = t.rows := by
  rw [memberRows, db.members?_congr hname, ht]
  rfl

theorem Database.WithMembers.memberRows_eq {db db' : Database} {q : String} {t : MemberTable}
    (h : db.WithMembers q t db') (p : String) :
    db'.memberRows p = if foldName p = foldName q then t.rows else db.memberRows p := by
  rw [memberRows, h.members]
  split <;> rfl

/-! ## What marks do to a row -/

/-- A row with the clock of its mark, or without a mark. -/
def MemberRow.stamped (at? : Option Int64) (r : MemberRow) : MemberRow :=
  { r with marked := some (if at?.isSome then 1 else 0), updatedDate := at? }

theorem MemberRow.sameKey_stamped (r : MemberRow) (at? : Option Int64) :
    r.sameKey (r.stamped at?) := by
  simp [sameKey, stamped]

namespace Store

variable (s : Store)

/-- The rows that a mark is meant for: those of a group in the store's region, or the one among
them that is of a message. -/
def covers : Request → MemberRow → Bool
  | .markGroup g, r => r.groupKey = g.id.text && r.region = s.region
  | .markMessage key m, r =>
    r.groupKey = key.identifier.text && r.region = s.region && r.messageId = m.id.text
  | _, _ => false

theorem covers_stamped (q : Request) (at? : Option Int64) (r : MemberRow) :
    s.covers q (r.stamped at?) = s.covers q r := by
  cases q <;> rfl

theorem covers_eq_false {q : Request} (hq : q.isMark = false) (r : MemberRow) :
    s.covers q r = false := by
  cases q with
  | markGroup | markMessage => cases hq
  | _ => rfl

theorem mark_eq (now : Int64) (covers : MemberRow → Bool) (r : MemberRow) : mark now covers r =
    if covers r ∧ r.marked = some 0 then r.stamped (some now) else r := by
  simp only [mark, Bool.and_eq_true, decide_eq_true_eq, and_comm]
  rfl

theorem covers_mark (q : Request) (now : Int64) (covers : MemberRow → Bool) (r : MemberRow) :
    s.covers q (mark now covers r) = s.covers q r := by
  rw [mark_eq]
  split
  · exact s.covers_stamped q _ r
  · rfl

/-- The first mark is kept, whichever come after it. -/
theorem mark_stamped (now : Int64) (covers : MemberRow → Bool) (at? : Option Int64)
    (r : MemberRow) : mark now covers (r.stamped at?) =
      r.stamped (at?.or (if covers (r.stamped at?) then some now else none)) := by
  cases at? with
  | some then_ => rfl
  | none =>
    have hmark : mark now covers (r.stamped none) =
        if covers (r.stamped none) then r.stamped (some now) else r.stamped none := by
      simp only [mark]
      rfl
    rw [hmark]
    split <;> rfl

end Store

/-! ## Rows after a request -/

/-- Taking rows out puts none in. -/
theorem memberRows_delete_subset {db db' : Database} {q : String} {gone : MemberRow → Bool}
    (h : db.updateMembers q (·.delete gone) = .ok db') (p : String) :
    db'.memberRows p ⊆ db.memberRows p := by
  rw [Database.updateMembers] at h
  cases ht : db.members? q with
  | none => rw [ht] at h; cases h
  | some t =>
    rw [ht] at h
    cases h
    rw [(Database.withMembers_put ht _).memberRows_eq]
    split
    · rename_i hname
      rw [Database.memberRows_of_table ht hname]
      intro r hr
      obtain ⟨e, he, rfl⟩ := List.mem_map.1 hr
      exact List.mem_map_of_mem (List.mem_filter.1 he).1
    · exact List.Subset.refl _

namespace Store

variable {s : Store} {now : Int64} {q : Request} {db : Database}

theorem memberRows_removeGroup_subset (g : Uuid) (db : Database) (p : String) :
    (s.removeGroup g db).2.memberRows p ⊆ db.memberRows p := by
  rw [removeGroup]
  split
  · exact List.Subset.refl _
  · rename_i db' h
    exact memberRows_delete_subset h p

theorem memberRows_addMessage (now : Int64) (m : Message) (db : Database) (p : String) :
    (s.addMessage now m db).2.memberRows p = db.memberRows p := by
  rcases s.addMessage_cases now m db with ⟨e, hx⟩ | ⟨-, hx⟩ | ⟨t, bytes, ht, -, hx⟩
  · rw [hx]
  · rw [hx]
  · rw [hx, Database.memberRows, (Database.withMessages_put ht _).members]
    rfl

theorem memberRows_removeMessage (id : Uuid) (db : Database) (p : String) :
    (s.removeMessage id db).2.memberRows p = db.memberRows p := by
  rcases s.removeMessage_cases id db with ⟨hx, -⟩ | ⟨m, t, -, ht, hx⟩
  · rw [hx]
  · rw [hx, Database.memberRows, (Database.withMessages_put ht _).members]
    rfl

/-- A request that neither adds a member nor marks any leaves no row that was not there. -/
theorem memberRows_perform_subset (hmark : q.isMark = false)
    (hadd : ∀ key m, q ≠ .addToGroup key m) (p : String) :
    (s.backend.perform now q db).2.memberRows p ⊆ db.memberRows p := by
  cases q with
  | addToGroup key m => exact absurd rfl (hadd key m)
  | markGroup | markMessage => cases hmark
  | addMessage m => exact fun r hr => memberRows_addMessage now m db p ▸ hr
  | removeMessage id => exact fun r hr => memberRows_removeMessage id db p ▸ hr
  | removeFromGroup key m =>
    show (s.removeFromGroup key.identifier m.id db).2.memberRows p ⊆ _
    unfold removeFromGroup reload
    split
    · exact List.Subset.refl _
    · rename_i db' h
      exact memberRows_delete_subset h p
  | removeGroup key => exact memberRows_removeGroup_subset key.identifier db p
  | expire timeout =>
    show (s.backend.expire now timeout db).2.memberRows p ⊆ _
    rw [Backend.expire]
    split
    · exact List.Subset.refl _
    · exact Backend.expireKeys_keeps (B := s.backend)
        (P := fun db' => db'.memberRows p ⊆ db.memberRows p)
        (fun g db' h => List.Subset.trans (memberRows_removeGroup_subset g db' p) h) _ _ db
        (List.Subset.refl _)
  | _ => exact List.Subset.refl _

/-- An addition is refused, or puts a row under a key that is free where keys count. -/
theorem memberRows_addToGroup (now : Int64) (key : Key) (m : Message) {t : MemberTable}
    (ht : db.members? s.tablePrefix = some t) (p : String) :
    (s.backend.perform now (.addToGroup key m) db).2.memberRows p = db.memberRows p ∨
      foldName p = foldName s.tablePrefix ∧
        (t.keyed = true → t.rows.any (s.memberRow now key.identifier m).sameKey = false) ∧
        (s.backend.perform now (.addToGroup key m) db).2.memberRows p =
          db.memberRows p ++ [s.memberRow now key.identifier m] := by
  have h := perform_changed (s := s) (q := .addToGroup key m) rfl now db
  generalize s.backend.perform now (.addToGroup key m) db = x at h ⊢
  cases h with
  | refused => exact .inl rfl
  | @written u hu admits =>
    cases hu.symm.trans ht
    have hrows := (Database.withMembers_put ht (s.effect now (.addToGroup key m) t)).memberRows_eq p
    simp only [written]
    rw [hrows]
    by_cases hname : foldName p = foldName s.tablePrefix
    · rw [if_pos hname, Database.memberRows_of_table ht hname]
      refine .inr ⟨hname, (admits key m rfl).2, ?_⟩
      simp [effect, MemberTable.rows]
    · exact .inl (if_neg hname)

/-- A mark is one statement, which rewrites rows in place. -/
theorem perform_mark (now : Int64) (hq : q.isMark) {t : MemberTable}
    (ht : db.members? s.tablePrefix = some t) :
    (s.backend.perform now q db).2 = db.put (Sql.memberTable s.tablePrefix)
      (.members (t.update (mark now (s.covers q)))) := by
  cases q with
  | markGroup g =>
    show (s.markGroup now g.id db).2 = _
    simp only [markGroup, Database.updateMembers, ht]
    rfl
  | markMessage key m =>
    show (s.markMessage now key.identifier m.id db).2 = _
    simp only [markMessage, Database.updateMembers, ht]
    rfl
  | _ => cases hq

theorem memberRows_mark (hq : q.isMark) {t : MemberTable}
    (ht : db.members? s.tablePrefix = some t) (p : String) :
    (s.backend.perform now q db).2.memberRows p = (db.memberRows p).map
      (mark now fun o => foldName p = foldName s.tablePrefix && s.covers q o) := by
  rw [perform_mark now hq ht, (Database.withMembers_put ht _).memberRows_eq]
  by_cases hname : foldName p = foldName s.tablePrefix
  · rw [if_pos hname, Database.memberRows_of_table ht hname]
    simp [hname, MemberTable.rows, MemberTable.update]
  · have hidle : (mark now fun o => foldName p = foldName s.tablePrefix && s.covers q o) = id := by
      funext o
      exact mark_of_not_covered (by simp [hname])
    rw [if_neg hname, hidle, List.map_id]

/-- After a request there is the row of an addition, under a new key, and there are rows from
before, marked where the request marks. -/
theorem row_of_perform {t : MemberTable} (ht : db.members? s.tablePrefix = some t)
    (hkeyed : t.keyed = true) {p : String} {r : MemberRow}
    (hr : r ∈ (s.backend.perform now q db).2.memberRows p) :
    (∃ key m, q = .addToGroup key m ∧ foldName p = foldName s.tablePrefix ∧
        r = s.memberRow now key.identifier m ∧ ∀ o ∈ db.memberRows p, r.sameKey o = false) ∨
      ∃ o ∈ db.memberRows p,
        r = mark now (fun o => foldName p = foldName s.tablePrefix && s.covers q o) o := by
  cases hmark : q.isMark with
  | true =>
    rw [memberRows_mark hmark ht] at hr
    obtain ⟨o, ho, rfl⟩ := List.mem_map.1 hr
    exact .inr ⟨o, ho, rfl⟩
  | false =>
    have hold (ho : r ∈ db.memberRows p) : ∃ o ∈ db.memberRows p,
        r = mark now (fun o => foldName p = foldName s.tablePrefix && s.covers q o) o :=
      ⟨r, ho, (mark_of_not_covered (by simp [s.covers_eq_false hmark])).symm⟩
    by_cases hadd : ∃ key m, q = .addToGroup key m
    · obtain ⟨key, m, rfl⟩ := hadd
      rcases memberRows_addToGroup now key m ht p with hrows | ⟨hname, hfree, hrows⟩
      · exact .inr (hold (hrows ▸ hr))
      · rw [hrows, List.mem_append, List.mem_singleton] at hr
        rcases hr with hr | rfl
        · exact .inr (hold hr)
        · refine .inl ⟨key, m, rfl, hname, rfl, fun o ho => ?_⟩
          rw [Database.memberRows_of_table ht hname] at ho
          exact Bool.eq_false_iff.2 (List.any_eq_false.1 (hfree hkeyed) o ho)
    · exact .inr (hold (memberRows_perform_subset hmark (fun key m h => hadd ⟨key, m, h⟩) p hr))

end Store

end Sql

/-! ## Rows after an event -/

namespace Event

/-- Whether a store marks with the event. -/
def isMark : Event → Bool
  | .request _ q => q.isMark
  | _ => false

variable (stores : Nat → Option Sql.Store) (p : String)

/-- Whether the event is a mark that is meant for a row of the tables of a prefix. -/
def covers : Event → Sql.MemberRow → Bool
  | .request i q, r =>
    (stores i).any fun s => Sql.foldName p = Sql.foldName s.tablePrefix && s.covers q r
  | _, _ => false

/-- The row that the event puts into the tables of a prefix, if it is not refused. -/
def insertion? (now : Int64) : Event → Option Sql.MemberRow
  | .request i (.addToGroup key m) => (stores i).bind fun s =>
    if Sql.foldName p = Sql.foldName s.tablePrefix then some (s.memberRow now key.identifier m)
    else none
  | _ => none

variable {stores p}

theorem covers_stamped (e : Event) (at? : Option Int64) (r : Sql.MemberRow) :
    e.covers stores p (r.stamped at?) = e.covers stores p r := by
  cases e with
  | request i q => simp only [covers, Sql.Store.covers_stamped]
  | _ => rfl

/-- A row is put in without a mark. -/
theorem stamped_insertion {e : Event} {now : Int64} {r : Sql.MemberRow}
    (h : e.insertion? stores p now = some r) : r.stamped none = r := by
  unfold insertion? at h
  split at h
  · obtain ⟨s, -, hs⟩ := Option.bind_eq_some_iff.1 h
    split at hs
    · cases hs
      rfl
    · cases hs
  · cases h

theorem insertion?_of_isMark {e : Event} (he : e.isMark) (now : Int64) :
    e.insertion? stores p now = none := by
  unfold insertion?
  split
  · cases he
  · rfl

end Event

namespace Sql

variable {stores : Nat → Option Store} {p : String}

/-- An event that is no request leaves the tables alone. -/
theorem state_step_of_not_request {s : Session Database} {e : Event}
    (he : ∀ i q, e ≠ .request i q) : (s.step (backends stores) e).2.state = s.state := by
  cases e with
  | clock now => rfl
  | request i q => exact absurd rfl (he i q)
  | openStream i name =>
    simp only [Session.step]
    split
    · rfl
    · split <;> rfl
  | poll name =>
    simp only [Session.step]
    split
    · rfl
    · split
      · rfl
      · split <;> rfl

theorem state_step_request {s : Session Database} {i : Nat} {S : Store} (hS : stores i = some S)
    (q : Request) : (s.step (backends stores) (.request i q)).2.state =
      (S.backend.perform s.clock q s.state).2 := by
  simp only [Session.step, backends, hS, Option.map_some]

theorem step_request_of_no_store {s : Session Database} {i : Nat} (hS : stores i = none)
    (q : Request) : (s.step (backends stores) (.request i q)).2 = s := by
  simp only [Session.step, backends, hS, Option.map_none]

/-- The tables of all stores are there, with their keys. -/
def Tabled (stores : Nat → Option Store) (db : Database) : Prop :=
  ∀ i, ∀ S ∈ stores i, ∃ t, db.members? S.tablePrefix = some t ∧ t.keyed = true

/-- One event either puts in a row under a new key, or leaves a row that was there, with the clock
of its mark when the event is the first that marks it. -/
theorem row_of_step {s : Session Database} (htables : Tabled stores s.state) {e : Event}
    {r : MemberRow} (hr : r ∈ (s.step (backends stores) e).2.state.memberRows p) :
    (e.insertion? stores p s.clock = some r ∧
        ∀ o ∈ s.state.memberRows p, r.sameKey o = false) ∨
      ∃ o ∈ s.state.memberRows p, r = Store.mark s.clock (e.covers stores p) o := by
  by_cases he : ∃ i q, e = .request i q
  · obtain ⟨i, q, rfl⟩ := he
    cases hS : stores i with
    | none =>
      rw [step_request_of_no_store hS] at hr
      exact .inr ⟨r, hr, (Store.mark_of_not_covered (by simp [Event.covers, hS])).symm⟩
    | some S =>
      obtain ⟨t, ht, hkeyed⟩ := htables i S hS
      have hcovers : (Event.request i q).covers stores p =
          fun o => foldName p = foldName S.tablePrefix && S.covers q o := by
        funext o
        simp [Event.covers, hS]
      rw [state_step_request hS] at hr
      rcases Store.row_of_perform ht hkeyed hr with ⟨key, m, rfl, hname, rfl, hfree⟩ | hold
      · refine .inl ⟨?_, hfree⟩
        simp [Event.insertion?, hS, hname]
      · exact .inr (hcovers ▸ hold)
  · have hstep : (s.step (backends stores) e).2.state = s.state :=
      state_step_of_not_request fun i q h => he ⟨i, q, h⟩
    rw [hstep] at hr
    refine .inr ⟨r, hr, (Store.mark_of_not_covered ?_).symm⟩
    cases e with
    | request i q => exact absurd ⟨i, q, rfl⟩ he
    | _ => rfl

/-! ## The life of a row -/

/-- The clock of the first step that marks a row. -/
def marking? (stores : Nat → Option Store) (p : String) (r : MemberRow) (s : Session Database)
    (es : List Event) : Option Int64 :=
  ((s.trace (backends stores) es).find? fun x => x.event.covers stores p r).map (·.before.clock)

theorem marking?_concat (r : MemberRow) (s : Session Database) (es : List Event) (e : Event) :
    marking? stores p r s (es ++ [e]) = (marking? stores p r s es).or
      (if e.covers stores p r then some (s.after (backends stores) es).clock else none) := by
  rw [marking?, Session.trace_append, List.find?_append, Option.map_or, ← marking?]
  congr 1
  by_cases he : e.covers stores p r <;> simp [Session.trace, he, Session.after]

/-- A row is marked as soon as one event covers it. -/
theorem isSome_marking? {r : MemberRow} {s : Session Database} {es : List Event} {e : Event}
    (he : e ∈ es) (hcovers : e.covers stores p r) : (marking? stores p r s es).isSome := by
  rw [← Session.map_event_trace (backends stores) es s] at he
  obtain ⟨x, hx, rfl⟩ := List.mem_map.1 he
  rw [marking?, Option.isSome_map, List.find?_isSome]
  exact ⟨x, hx, hcovers⟩

/-- The row that an event put into the tables of a prefix, in all the time since: its key was free,
and from then on there is one row of this key, as it was put in, but for its mark, which it has from
the first event on that marks it. -/
structure RowLife (stores : Nat → Option Store) (p : String) (start : Session Database)
    (before : List Event) (e : Event) (since : List Event) (r₀ : MemberRow) : Prop where
  inserted : e.insertion? stores p (start.after (backends stores) before).clock = some r₀
  free : ∀ r ∈ (start.after (backends stores) before).state.memberRows p, r₀.sameKey r = false
  stays : ∀ later, later <+: since → ∀ r,
    (r ∈ (start.after (backends stores) (before ++ e :: later)).state.memberRows p ∧
        r₀.sameKey r) ↔
      r = r₀.stamped
        (marking? stores p r₀ (start.after (backends stores) (before ++ [e])) later)

/-! ## What one mark changes -/

/-- What a mark makes of a database: it sets the mark and its clock in the rows that it is meant for
and that have none, in place, and changes nothing else; all rows that it is meant for are marked
then. A mark of a message is meant for one row at most, and what members the value of a group lists
does not count. -/
structure Store.Marks (S : Store) (now : Int64) (q : Request) (db db' : Database) : Prop where
  inPlace : ∃ t, db.members? S.tablePrefix = some t ∧ db.WithMembers S.tablePrefix
    { t with entries := t.entries.map fun e => (e.1,
      if S.covers q e.2 ∧ e.2.marked = some 0 then e.2.stamped (some now) else e.2) } db'
  complete : ∀ r ∈ db'.memberRows S.tablePrefix, S.covers q r → r.marked = some 1
  single : ∀ key m, q = .markMessage key m →
    ((db.memberRows S.tablePrefix).filter (S.covers q)).length ≤ 1
  unlisted : ∀ g g', q = .markGroup g → g'.id = g.id →
    S.backend.perform now (.markGroup g') db = S.backend.perform now q db

theorem length_le_one_of_pairwise {α : Type} {r : α → α → Prop} : ∀ {as : List α},
    as.Pairwise r → (∀ a ∈ as, ∀ b ∈ as, ¬r a b) → as.length ≤ 1
  | [], _, _ => Nat.zero_le 1
  | [_], _, _ => Nat.le_refl 1
  | a :: b :: _, h, hnot =>
    absurd (List.rel_of_pairwise_cons h (by simp)) (hnot a (by simp) b (by simp))

namespace Store

variable {S : Store} {now : Int64} {q : Request} {db : Database} {t : MemberTable}

theorem marks (ht : db.members? S.tablePrefix = some t) (hsound : t.Sound) (hq : q.isMark) :
    S.Marks now q db (S.backend.perform now q db).2 where
  inPlace := by
    refine ⟨t, ht, ?_⟩
    rw [perform_mark now hq ht]
    convert Database.withMembers_put ht _ using 1
    simp [MemberTable.update, mark_eq]
  complete := by
    intro r hr hcovers
    rw [memberRows_mark hq ht] at hr
    obtain ⟨o, ho, rfl⟩ := List.mem_map.1 hr
    rw [covers_mark] at hcovers
    have hflag := hsound.flags o (Database.memberRows_of_table ht rfl ▸ ho)
    rw [mark_eq]
    split
    · rfl
    · rename_i hidle
      exact hflag.resolve_left fun hzero => hidle ⟨by simp [hcovers], hzero⟩
  single := by
    rintro key m rfl
    rw [Database.memberRows_of_table ht rfl]
    refine length_le_one_of_pairwise (hsound.keys.filter _) ?_
    intro a ha b hb hab
    have hcovers {r : MemberRow} (hr : r ∈ t.rows.filter (S.covers (.markMessage key m))) :
        r.groupKey = key.identifier.text ∧ r.region = S.region ∧ r.messageId = m.id.text := by
      simpa [covers, and_assoc] using (List.mem_filter.1 hr).2
    obtain ⟨hgroup, hregion, hid⟩ := hcovers ha
    obtain ⟨hgroup', hregion', hid'⟩ := hcovers hb
    exact hab ⟨hgroup.trans hgroup'.symm, hid.trans hid'.symm, hregion.trans hregion'.symm⟩
  unlisted := by
    rintro g g' rfl hid
    simp only [Backend.perform, hid]

/-- A mark of rows that have their marks changes no table. -/
theorem tables_mark_of_marked (ht : db.members? S.tablePrefix = some t) (hq : q.isMark)
    (hmarked : ∀ r ∈ t.rows, S.covers q r → r.marked = some 1) (p : String) :
    (S.backend.perform now q db).2.members? p = db.members? p ∧
      (S.backend.perform now q db).2.messages? p = db.messages? p := by
  have hrow : ∀ x ∈ t.entries, (x.1, mark now (S.covers q) x.2) = x := by
    intro x hx
    rw [mark_eq, if_neg]
    rintro ⟨hcovers, hzero⟩
    rw [hmarked x.2 (List.mem_map_of_mem hx) hcovers] at hzero
    cases hzero
  have hidle : t.update (mark now (S.covers q)) = t := by
    rw [MemberTable.update, List.map_congr_left hrow, List.map_id']
  have hput := Database.withMembers_put ht t
  rw [perform_mark now hq ht, hidle, hput.members, hput.messages]
  refine ⟨?_, rfl⟩
  split
  · rename_i hname
    exact ((db.members?_congr hname).trans ht).symm
  · rfl

end Store

/-! ## Runs -/

/-- Two rows of one key are one row. -/
theorem MemberTable.Sound.eq_of_sameKey {t : MemberTable} (hsound : t.Sound) {a b : MemberRow}
    (ha : a ∈ t.rows) (hb : b ∈ t.rows) (hab : a.sameKey b) : a = b := by
  have _ : Std.Symm fun a b : MemberRow =>
      ¬(a.groupKey = b.groupKey ∧ a.messageId = b.messageId ∧ a.region = b.region) :=
    ⟨fun a b hab hba => hab ⟨hba.1.symm, hba.2.1.symm, hba.2.2.symm⟩⟩
  by_contra hne
  exact hsound.keys.forall ha hb hne (by simpa [MemberRow.sameKey, and_assoc] using hab)

/-- Of two places in a list one comes first, or they are one place. -/
theorem mem_of_append_cons_eq {α : Type} {as bs cs ds : List α} {a b : α}
    (h : as ++ a :: bs = cs ++ b :: ds) : a ∈ ds ∨ a = b ∨ b ∈ bs := by
  rcases List.append_eq_append_iff.1 h with ⟨es, rfl, hrest⟩ | ⟨es, rfl, hrest⟩
  · cases es with
    | nil => exact .inr (.inl (List.cons.inj hrest).1)
    | cons e es => exact .inr (.inr (by simp [(List.cons.inj hrest).2]))
  · cases es with
    | nil => exact .inr (.inl (List.cons.inj hrest).1.symm)
    | cons e es => exact .inl (by simp [(List.cons.inj hrest).2])

section
variable {prefixes : List String} {db : Database} (h : Database.initialise prefixes = .ok db)
  (hp : ∀ i, ∀ s ∈ stores i, s.tablePrefix ∈ prefixes) (clock : Int64) (es : List Event)
include h hp

theorem table_after (hmem : p ∈ prefixes) :
    ∃ t, ((Session.start db clock).after (backends stores) es).state.members? p = some t ∧
      t.keyed = true ∧ t.Sound := by
  obtain ⟨t, ht, hl⟩ := ((run_alike_ledgers hp h clock es).2.state p hmem).members
  exact ⟨t, ht, hl.keyed, hl.sound⟩

theorem tabled_after :
    Tabled stores ((Session.start db clock).after (backends stores) es).state := by
  intro i S hS
  obtain ⟨t, ht, hkeyed, -⟩ := table_after h hp clock es (hp i S hS)
  exact ⟨t, ht, hkeyed⟩

theorem mem_sameKey_iff (hmem : p ∈ prefixes) {r₀ x : MemberRow}
    (hx : x ∈ ((Session.start db clock).after (backends stores) es).state.memberRows p)
    (hkey : r₀.sameKey x) (r : MemberRow) :
    (r ∈ ((Session.start db clock).after (backends stores) es).state.memberRows p ∧
      r₀.sameKey r) ↔ r = x := by
  obtain ⟨t, ht, -, hsound⟩ := table_after h hp clock es hmem
  rw [Database.memberRows_of_table ht rfl] at hx ⊢
  refine ⟨fun ⟨hr, hkey'⟩ => hsound.eq_of_sameKey hr hx ?_, fun hr => hr ▸ ⟨hx, hkey⟩⟩
  simp only [MemberRow.sameKey, Bool.and_eq_true, decide_eq_true_eq] at hkey hkey' ⊢
  simp [← hkey, ← hkey']

/-- Every row was put in by an event, and has its mark from the first event after that one that
marks it, by induction from the last event back. -/
theorem row_life (hmem : p ∈ prefixes) {r : MemberRow}
    (hr : r ∈ ((Session.start db clock).after (backends stores) es).state.memberRows p) :
    ∃ before e since r₀, es = before ++ e :: since ∧
      RowLife stores p (Session.start db clock) before e since r₀ ∧ r = r₀.stamped
        (marking? stores p r₀ ((Session.start db clock).after (backends stores) (before ++ [e]))
          since) := by
  induction es using List.reverseRecOn generalizing r with
  | nil =>
    have hblank : db.memberRows p = [] := by
      rw [Database.memberRows, Database.members?, (Database.blank_of_initialise h hmem).members]
      rfl
    change r ∈ db.memberRows p at hr
    rw [hblank] at hr
    cases hr
  | append_singleton es e ih =>
    have hlast := hr
    rw [Session.after_append] at hr
    rcases row_of_step (tabled_after h hp clock es) hr with ⟨hins, hfree⟩ | ⟨o, ho, hmark⟩
    · have hstamped := Event.stamped_insertion hins
      refine ⟨es, e, [], r, rfl, ⟨hins, hfree, fun later hlater r' => ?_⟩, hstamped.symm⟩
      obtain rfl := List.prefix_nil.1 hlater
      rw [mem_sameKey_iff h hp clock _ hmem hlast (by simp [MemberRow.sameKey])]
      exact Iff.of_eq (congrArg _ hstamped.symm)
    · obtain ⟨before, x, since, r₀, rfl, life, rfl⟩ := ih ho
      have hsplit : (Session.start db clock).after (backends stores) (before ++ x :: since) =
          ((Session.start db clock).after (backends stores) (before ++ [x])).after (backends stores)
            since := by
        rw [List.append_cons, Session.after_append]
      rw [Store.mark_stamped, Event.covers_stamped, hsplit, ← marking?_concat] at hmark
      refine ⟨before, x, since ++ [e], r₀, by simp, ⟨life.inserted, life.free, ?_⟩, hmark⟩
      intro later hlater r'
      rcases List.prefix_concat_iff.1 hlater with rfl | hlater
      · subst hmark
        rw [← List.cons_append, ← List.append_assoc]
        exact mem_sameKey_iff h hp clock _ hmem hlast (r₀.sameKey_stamped _) r'
      · exact life.stays later hlater r'

/-- A row that an event marks stays marked, as long as none that it would mark is added. -/
theorem marked_since (hmem : p ∈ prefixes) {e : Event} (he : e.isMark) {later : List Event}
    (hlater : ∀ x ∈ later, ∀ now r₀, x.insertion? stores p now = some r₀ →
      e.covers stores p r₀ = false) {r : MemberRow}
    (hr : r ∈ ((Session.start db clock).after (backends stores)
      (es ++ e :: later)).state.memberRows p)
    (hcovers : e.covers stores p r) : r.marked = some 1 := by
  obtain ⟨before, x, since, r₀, hsplit, life, rfl⟩ := row_life h hp clock _ hmem hr
  rw [Event.covers_stamped] at hcovers
  -- the row was put in before the mark, by the mark, or after it
  rcases mem_of_append_cons_eq hsplit with hmarked | rfl | hadded
  · simp [MemberRow.stamped, isSome_marking? hmarked hcovers]
  · have hins := life.inserted
    rw [Event.insertion?_of_isMark he] at hins
    cases hins
  · rw [hlater x hadded _ r₀ life.inserted] at hcovers
    cases hcovers

/-- A mark changes nothing where every row that it is meant for had been marked by one event, and
none that this event would mark has been added since. -/
theorem tables_repeated {e e' : Event} {later : List Event} (he : e.isMark) (he' : e'.isMark)
    (hsame : ∀ p r, e'.covers stores p r → e.covers stores p r)
    (hlater : ∀ x ∈ later, ∀ p now r₀, x.insertion? stores p now = some r₀ →
      e.covers stores p r₀ = false) :
    let s := (Session.start db clock).after (backends stores) (es ++ e :: later)
    ∀ p, (s.step (backends stores) e').2.state.members? p = s.state.members? p ∧
      (s.step (backends stores) e').2.state.messages? p = s.state.messages? p := by
  intro s p
  cases e' with
  | request i q =>
    cases hS : stores i with
    | none =>
      rw [step_request_of_no_store hS]
      exact ⟨rfl, rfl⟩
    | some S =>
      obtain ⟨t, ht, -⟩ := table_after h hp clock (es ++ e :: later) (hp i S hS)
      rw [state_step_request hS]
      refine Store.tables_mark_of_marked ht he' (fun r hr hcovers => ?_) p
      have hcovers' := hsame S.tablePrefix r (by simpa [Event.covers, hS] using hcovers)
      exact marked_since h hp clock es (hp i S hS) he (fun x hx => hlater x hx S.tablePrefix)
        (Database.memberRows_of_table ht rfl ▸ hr) hcovers'
  | _ => cases he'

/-- Marks are set once. After any session, every row was put in by one of its events under a key
that was free, and is since the one row of that key, as it was put in but for its mark: none before
the first event that marks it, and from then on that one's clock, whatever marks it again. A mark
sets the marks of the rows that it is meant for and that have none, and changes nothing else
(`Store.Marks`). To mark rows again that one event has marked changes nothing, at any clock and
after any events that add none of them. -/
theorem marked_once :
    let start := Session.start db clock
    let s := start.after (backends stores) es
    (∀ p ∈ prefixes, ∀ r ∈ s.state.memberRows p, ∃ before e since r₀, es = before ++ e :: since ∧
      RowLife stores p start before e since r₀ ∧ r = r₀.stamped
        (marking? stores p r₀ (start.after (backends stores) (before ++ [e])) since)) ∧
    (∀ i S q, stores i = some S → q.isMark →
      S.Marks s.clock q s.state (s.step (backends stores) (.request i q)).2.state) ∧
    ∀ e e' later, e.isMark → e'.isMark →
      (∀ p r, e'.covers stores p r → e.covers stores p r) →
      (∀ x ∈ later, ∀ p now r₀, x.insertion? stores p now = some r₀ →
        e.covers stores p r₀ = false) →
      let s := start.after (backends stores) (es ++ e :: later)
      ∀ p, (s.step (backends stores) e').2.state.members? p = s.state.members? p ∧
        (s.step (backends stores) e').2.state.messages? p = s.state.messages? p := by
  refine ⟨fun p hmem r hr => row_life h hp clock es hmem hr, fun i S q hS hq => ?_,
    fun e e' later he he' hsame hlater => tables_repeated h hp clock es he he' hsame hlater⟩
  obtain ⟨t, ht, -, hsound⟩ := table_after h hp clock es (hp i S hS)
  rw [state_step_request hS]
  exact Store.marks ht hsound hq

end

/-- Two members of a group, one of them marked before the whole group is. -/
theorem marked_once_twice :
    let db : Database := ⟨[(messageTable "INT_", .messages ⟨true, []⟩),
      (memberTable "INT_", .members ⟨true, true, []⟩)]⟩
    let prefixes : List String := ["INT_"]
    let stores : Nat → Option Store := fun i => [⟨"DEFAULT", "INT_", .standard⟩,
      ⟨"other", "INT_", .standard⟩][i]?
    let key : Key := .uuid plainSpace
    let m : Message := .create plainSpace 0 [1]
    let n : Message := .create taggedSpace 0 []
    let es : List Event := [.request 0 (.addToGroup key m), .request 0 (.addToGroup key n),
      .request 1 (.addToGroup key m), .clock 9, .request 0 (.markMessage key m), .clock 11,
      .request 0 (.markGroup (Group.empty key.identifier))]
    let start := Session.start db 7
    let s := start.after (backends stores) es
    Database.initialise prefixes = .ok db ∧ (∀ i, ∀ s ∈ stores i, s.tablePrefix ∈ prefixes) ∧
    (∀ p ∈ prefixes, ∀ r ∈ s.state.memberRows p, ∃ before e since r₀, es = before ++ e :: since ∧
      RowLife stores p start before e since r₀ ∧ r = r₀.stamped
        (marking? stores p r₀ (start.after (backends stores) (before ++ [e])) since)) ∧
    (∀ i S q, stores i = some S → q.isMark →
      S.Marks s.clock q s.state (s.step (backends stores) (.request i q)).2.state) ∧
    ∀ e e' later, e.isMark → e'.isMark →
      (∀ p r, e'.covers stores p r → e.covers stores p r) →
      (∀ x ∈ later, ∀ p now r₀, x.insertion? stores p now = some r₀ →
        e.covers stores p r₀ = false) →
      let s := start.after (backends stores) (es ++ e :: later)
      ∀ p, (s.step (backends stores) e').2.state.members? p = s.state.members? p ∧
        (s.step (backends stores) e').2.state.messages? p = s.state.messages? p := by
  intro db prefixes stores key m n es start s
  have hp : ∀ i, ∀ s ∈ stores i, s.tablePrefix ∈ prefixes := by
    intro i s hs
    have hmem := List.mem_of_getElem? hs
    simp only [List.mem_cons, List.not_mem_nil, or_false] at hmem
    rcases hmem with rfl | rfl <;> exact List.mem_singleton_self _
  exact ⟨rfl, hp, marked_once rfl hp 7 es⟩

end Sql

end MessageDepot
