import MessageDepot.Proofs.Confinement
import MessageDepot.Store.Memory

/-!
# Stores in memory keep to the rows of their region

A store finds the same rows among those of its region as among all, and what it appends, takes
out or marks are rows of its region. So its operations on messages are confined to the messages
of the region, and those on groups to its members.

Results:
* `Store.confined`: a store in memory is confined to the rows of its region.
-/
namespace MessageDepot.Memory

/-- The tables with the rows of one kind and region only. -/
def Tables.only (p : Kind × String) (t : Tables) : Tables :=
  match p.1 with
  | .message => ⟨rowsIn MessageRow.region p.2 t.messages, []⟩
  | .group => ⟨[], rowsIn MemberRow.region p.2 t.members⟩

def places : Places Tables (Kind × String) := ⟨Tables, Tables.only, Eq, fun _ => rfl⟩

variable {α : Type} {p : Kind × String} {region : String}

/-- What is read from the rows of a place as from all depends on them alone. -/
theorem reads_of_only {f : Tables → α} (h : ∀ t, f (t.only p) = f t) : places.Reads p f := by
  intro s t hst
  rw [← h s, ← h t]
  exact congrArg f hst

theorem confined_messages {f : List MessageRow → List MessageRow}
    (h : RegionLocal MessageRow.region region f) (a : α) :
    places.Confined (.message, region) fun t => (a, { t with messages := f t.messages }) where
  answer _ := rfl
  state {s t} hst := by
    have hrows : rowsIn MessageRow.region region s.messages =
        rowsIn MessageRow.region region t.messages := congrArg Tables.messages hst
    show Tables.mk (rowsIn _ region (f s.messages)) [] = ⟨rowsIn _ region (f t.messages), []⟩
    rw [h.own, h.own, hrows]
  elsewhere {q s} hq := by
    obtain ⟨_ | _, r⟩ := q
    · have hr : r ≠ region := fun he => hq (by rw [he])
      show Tables.mk (rowsIn _ r (f s.messages)) [] = ⟨rowsIn _ r s.messages, []⟩
      rw [h.others hr]
    · rfl

theorem confined_members {f : List MemberRow → List MemberRow}
    (h : RegionLocal MemberRow.region region f) (a : α) :
    places.Confined (.group, region) fun t => (a, { t with members := f t.members }) where
  answer _ := rfl
  state {s t} hst := by
    have hrows : rowsIn MemberRow.region region s.members =
        rowsIn MemberRow.region region t.members := congrArg Tables.members hst
    show Tables.mk [] (rowsIn _ region (f s.members)) = ⟨[], rowsIn _ region (f t.members)⟩
    rw [h.own, h.own, hrows]
  elsewhere {q s} hq := by
    obtain ⟨_ | _, r⟩ := q
    · rfl
    · have hr : r ≠ region := fun he => hq (by rw [he])
      show Tables.mk [] (rowsIn _ r (f s.members)) = ⟨[], rowsIn _ r s.members⟩
      rw [h.others hr]

namespace Store

variable (s : Store)

theorem region_of_holds {id : Uuid} {r : MessageRow} (h : s.holds id r = true) :
    r.region = s.region := by
  simp only [holds, Bool.and_eq_true, decide_eq_true_eq] at h
  exact h.1

theorem region_of_inGroup {g : Uuid} {r : MemberRow} (h : s.inGroup g r = true) :
    r.region = s.region := by
  simp only [inGroup, Bool.and_eq_true, decide_eq_true_eq] at h
  exact h.2

theorem region_of_isMember {g id : Uuid} {r : MemberRow} (h : s.isMember g id r = true) :
    r.region = s.region := by
  simp only [isMember, Bool.and_eq_true] at h
  exact s.region_of_inGroup h.1

/-! ## Messages -/

theorem reads_find? (id : Uuid) : places.Reads (.message, s.region) (s.find? id) :=
  reads_of_only fun t => find?_rowsIn (fun _ => s.region_of_holds) t.messages

theorem reads_getMessage (id : Uuid) : places.Reads (.message, s.region) (s.getMessage id) := by
  intro t u htu
  rw [getMessage, getMessage, s.reads_find? id t u htu]

theorem confined_addMessage (now : Int64) (m : Message) :
    places.Confined (.message, s.region) (s.addMessage now m) := by
  refine (s.reads_find? m.id).cases fun x => ?_
  cases x with
  | some row =>
    by_cases hm : (m.isSaved && m.createdDate?.isSome) = true
    · cases hd : s.decodeRow row with
      | error e => exact ⟨_, .pure (.error e), fun t ht => by simp [addMessage, ht, hm, hd]⟩
      | ok stored =>
        refine ⟨_, .pure (if stored = m then .ok m else .error (.rowExists m.id.text)),
          fun t ht => ?_⟩
        simp only [addMessage, ht, if_pos hm, hd]
        split <;> rfl
    · exact ⟨_, .pure (.error (.rowExists m.id.text)), fun t ht => by simp [addMessage, ht, hm]⟩
  | none =>
    cases he : s.codec.encode (m.markSaved now) with
    | error e => exact ⟨_, .pure (.error (.encode e)), fun t ht => by simp [addMessage, ht, he]⟩
    | ok bytes =>
      have happend : RegionLocal MessageRow.region s.region (· ++ [⟨s.region, m.id.text, bytes⟩]) :=
        .append rfl
      exact ⟨_, confined_messages happend (.ok (m.markSaved now)), fun t ht => by
        simp [addMessage, ht, he]⟩

theorem confined_removeMessage (id : Uuid) :
    places.Confined (.message, s.region) (s.removeMessage id) :=
  (s.reads_getMessage id).bind fun a =>
    confined_messages (.filter fun _ => s.region_of_holds) a

theorem reads_messageCount : places.Reads (.message, s.region) s.messageCount := by
  refine reads_of_only fun t => ?_
  show ((rowsIn _ s.region t.messages).filter (·.region = s.region)).length = _
  rw [filter_rowsIn (by simp)]
  rfl

/-! ## Groups -/

theorem reads_getGroup (g : Uuid) : places.Reads (.group, s.region) (s.getGroup g) := by
  refine reads_of_only fun t => ?_
  have hrows : (t.only (.group, s.region)).members.filter (s.inGroup g) =
      t.members.filter (s.inGroup g) := filter_rowsIn (fun _ => s.region_of_inGroup) _
  unfold getGroup
  rw [hrows]

theorem confined_reload {f : List MemberRow → List MemberRow}
    (h : RegionLocal MemberRow.region s.region f) (g : Uuid) :
    places.Confined (.group, s.region) fun t => s.reload g { t with members := f t.members } :=
  (confined_members h ()).bind fun _ => (s.reads_getGroup g).confined

theorem confined_addToGroup (now : Int64) (g : Uuid) (m : Message) :
    places.Confined (.group, s.region) (s.addToGroup now g m) := by
  have htaken : places.Reads (.group, s.region) fun t => t.members.any (s.isMember g m.id) :=
    reads_of_only fun t => any_rowsIn (fun _ => s.region_of_isMember) t.members
  refine htaken.cases fun taken => ?_
  cases taken with
  | true => exact ⟨_, .pure (.error (.rowExists m.id.text)), fun t ht => by simp [addToGroup, ht]⟩
  | false =>
    cases he : s.codec.encode m with
    | error e => exact ⟨_, .pure (.error (.encode e)), fun t ht => by simp [addToGroup, ht, he]⟩
    | ok bytes =>
      have happend : RegionLocal MemberRow.region s.region
        (· ++ [⟨g.text, m.id.text, s.region, now, false, bytes⟩]) := .append rfl
      exact ⟨_, s.confined_reload happend g, fun t ht => by simp [addToGroup, ht, he]⟩

/-- A row that marking changes is of the region, and stays so. -/
theorem local_mark {covers : MemberRow → Bool} (h : ∀ r, covers r = true → r.region = s.region) :
    RegionLocal MemberRow.region s.region
      (List.map fun r => if covers r then { r with marked := true } else r) := by
  refine .map (fun r => by split <;> rfl) fun r hr => if_neg fun hc => hr (h r hc)

theorem confined_removeGroup (g : Uuid) :
    places.Confined (.group, s.region) fun t => ((.ok () : Except Error Unit), s.removeGroup g t) :=
  confined_members (.filter fun _ => s.region_of_inGroup) _

theorem reads_groupKeys : places.Reads (.group, s.region) s.groupKeys := by
  refine reads_of_only fun t => ?_
  have hrows : (t.only (.group, s.region)).members.filter (·.region = s.region) =
      t.members.filter (·.region = s.region) := filter_rowsIn (by simp) _
  unfold groupKeys
  rw [hrows]

/-- A store in memory is confined to the rows of its region. -/
theorem confined : s.backend.Confined places fun k => (k, s.region) where
  addMessage := s.confined_addMessage
  getMessage := s.reads_getMessage
  removeMessage := s.confined_removeMessage
  messageCount := s.reads_messageCount.map Except.ok
  addToGroup := s.confined_addToGroup
  getGroup := s.reads_getGroup
  markGroup _ g := s.confined_reload (s.local_mark fun _ => s.region_of_inGroup) g
  markMessage _ g _ := s.confined_reload (s.local_mark fun _ => s.region_of_isMember) g
  removeFromGroup g _ := s.confined_reload (.filter fun _ => s.region_of_isMember) g
  removeGroup := s.confined_removeGroup
  groupKeys := s.reads_groupKeys.map Except.ok
  groupCount := s.reads_groupKeys.map fun keys => Except.ok keys.length

end Store

end MessageDepot.Memory
