import MessageDepot.Proofs.Ledger
import MessageDepot.Proofs.Refinement
import MessageDepot.Proofs.StableSort
import MessageDepot.Store.Memory

/-!
# Stores in memory keep a ledger

The tables in memory are those of a ledger when their rows are the stored forms of its entries,
in the same order. Every operation of a store keeps them so and answers as the ledger does; the
rows of a group are sorted before the marked ones are told from the others, where a ledger sorts
the unmarked ones alone.

Results:
* `Store.refines_ledger`: a store in memory refines a ledger.
-/
namespace MessageDepot.Memory

/-! ## Rows -/

def MessageRow.ofKept (k : Kept) : MessageRow :=
  ⟨k.region, k.message.id.text, Codec.frame k.message⟩

def MemberRow.ofMember (m : Member) : MemberRow :=
  ⟨m.group.text, m.message.id.text, m.region, m.joined, m.isMarked, Codec.frame m.message⟩

/-- The tables hold the entries of the ledger. -/
structure Represents (t : Tables) (L : Ledger) : Prop where
  messages : t.messages = L.kept.map .ofKept
  members : t.members = L.members.map .ofMember

theorem represents_empty : Represents Tables.empty Ledger.empty := ⟨rfl, rfl⟩

namespace Store

variable (s : Store)

theorem holds_ofKept (id : Uuid) (k : Kept) : s.holds id (.ofKept k) = k.isAt s.region id := by
  show (decide (k.region = s.region) && decide (k.message.id.text = id.text)) = _
  simp [Kept.isAt]

theorem inGroup_ofMember (g : Uuid) (m : Member) :
    s.inGroup g (.ofMember m) = m.isIn s.region g := by
  show (decide (m.group.text = g.text) && decide (m.region = s.region)) = _
  simp [Member.isIn, Bool.and_comm]

theorem isMember_ofMember (g id : Uuid) (m : Member) :
    s.isMember g id (.ofMember m) = m.isAt s.region g id := by
  rw [isMember, inGroup_ofMember]
  show (_ && decide (m.message.id.text = id.text)) = _
  simp [Member.isAt]

theorem decodeRow_ofKept (k : Kept) : s.decodeRow (.ofKept k) = .ok k.message := by
  rw [decodeRow, MessageRow.ofKept, Codec.decode_frame _ k.fits]
  rfl

theorem decodeMember_ofMember (m : Member) :
    s.decodeMember (.ofMember m) = .ok (m.isMarked, m.message) := by
  simp only [decodeMember, MemberRow.ofMember, Codec.decode_frame _ m.fits]

variable {t : Tables} {L : Ledger} (r : Represents t L)
include r

/-! ## Messages -/

theorem find?_eq (id : Uuid) : s.find? id t = (L.kept.find? (·.isAt s.region id)).map .ofKept := by
  rw [find?, r.messages, List.find?_map]
  congr 2
  funext k
  exact s.holds_ofKept id k

theorem getMessage_eq (id : Uuid) : s.getMessage id t = .ok (L.find? s.region id) := by
  rw [getMessage, s.find?_eq r, Ledger.find?]
  cases L.kept.find? (·.isAt s.region id) with
  | none => rfl
  | some k => simp only [Option.map_some, s.decodeRow_ofKept]; rfl

theorem getMessage_agree (id : Uuid) :
    Agree (φ := Ledger.Refusal) Eq (s.getMessage id t) (.ok (L.find? s.region id)) := by
  rw [s.getMessage_eq r]
  exact .ok rfl

theorem represents_discard (id : Uuid) :
    Represents { t with messages := t.messages.filter fun r => !s.holds id r }
      (L.discard (·.isAt s.region id)) := by
  refine ⟨?_, r.members⟩
  simp only [r.messages, Ledger.discard, List.filter_map]
  congr 2
  funext k
  simp only [Function.comp, s.holds_ofKept]

theorem decodeRow_of_find? {id : Uuid} {stored : Message} (hf : L.find? s.region id = some stored) :
    ∃ row, s.find? id t = some row ∧ s.decodeRow row = .ok stored ∧
      stored.isSaved = true ∧ stored.createdDate?.isSome = true := by
  obtain ⟨k, hk, rfl⟩ := Option.map_eq_some_iff.1 hf
  refine ⟨.ofKept k, ?_, s.decodeRow_ofKept k, k.saved, by simp [k.dated]⟩
  rw [s.find?_eq r, hk]
  rfl

/-- Where a message is kept, only itself is taken, as delivered before. -/
theorem addMessage_taken {m stored : Message} (now : Int64)
    (hf : L.find? s.region m.id = some stored) : s.addMessage now m t =
      (if stored = m then .ok m else .error (.rowExists m.id.text), t) := by
  obtain ⟨row, hrow, hdecode, hsaved, hdated⟩ := s.decodeRow_of_find? r hf
  simp only [addMessage, hrow, hdecode]
  by_cases hm : stored = m
  · -- what is kept is stamped, so the stamp of a message that equals it is read back
    subst hm
    simp [hsaved, hdated]
  · simp [hm]

/-- Where none is kept, a message within the limit gets a row behind all others. -/
theorem addMessage_free {m : Message} (now : Int64) (hf : L.find? s.region m.id = none) :
    s.addMessage now m t =
      if s.codec.maxSize < (Codec.envelope (m.markSaved now)).size then
        (.error (.encode (.tooLarge (Codec.envelope (m.markSaved now)).size s.codec.maxSize)), t)
      else (.ok (m.markSaved now), { t with
        messages := t.messages ++ [⟨s.region, m.id.text, Codec.frame (m.markSaved now)⟩] }) := by
  have hrow : s.find? m.id t = none := by
    rw [s.find?_eq r, Option.map_eq_none_iff.1 hf]
    rfl
  simp only [addMessage, hrow, Codec.encode_eq]
  by_cases hs : s.codec.maxSize < (Codec.envelope (m.markSaved now)).size
  · rw [if_pos hs, if_pos hs]
  · rw [if_neg hs, if_neg hs]

theorem addMessage_steps (now : Int64) (m : Message) :
    Steps Eq Represents (s.addMessage now m t) (L.addMessage s.region s.codec now m) := by
  unfold Ledger.addMessage
  cases hf : L.find? s.region m.id with
  | some stored =>
    rw [s.addMessage_taken r now hf]
    simp only
    split
    · exact ⟨.ok rfl, r⟩
    · exact ⟨.error, r⟩
  | none =>
    rw [s.addMessage_free r now hf]
    by_cases hs : (Codec.envelope (m.markSaved now)).size ≤ s.codec.maxSize
    · have hk := Ledger.kept_keep (k := .stamp s.region s.codec now m hs)
        (Option.map_eq_none_iff.1 hf)
      rw [if_neg (by omega)]
      simp only [dif_pos hs]
      refine ⟨.ok rfl, ?_, ?_⟩
      · simp only [hk, r.messages, List.map_append, List.map_cons, List.map_nil]
        rfl
      · rw [Ledger.members_keep]
        exact r.members
    · rw [if_pos (by omega)]
      simp only [dif_neg hs]
      exact ⟨.error, r⟩

theorem messageCount_eq : s.messageCount t = (L.kept.filter (·.region = s.region)).length := by
  rw [messageCount, r.messages, List.filter_map, List.length_map]
  rfl

/-! ## Groups -/

theorem filter_inGroup (g : Uuid) :
    t.members.filter (s.inGroup g) = (L.roll s.region g).map .ofMember := by
  rw [r.members, List.filter_map, Ledger.roll]
  congr 2
  funext m
  exact s.inGroup_ofMember g m

/-- Loading sorts all members and then parts them; a ledger parts them first. -/
theorem getGroup_agree (g : Uuid) :
    Agree (ε := Error) (φ := Ledger.Refusal) Group.Alike (s.getGroup g t)
      (.ok (L.group s.region g)) := by
  have hs : sort (fun a b : MemberRow => a.createdDate ≤ b.createdDate)
      ((L.roll s.region g).map .ofMember) =
        (sort Member.joinedBefore (L.roll s.region g)).map .ofMember :=
    (map_sort (fun _ _ => rfl) _).symm
  have hd : ((sort Member.joinedBefore (L.roll s.region g)).map MemberRow.ofMember).mapM
      s.decodeMember = .ok ((sort Member.joinedBefore (L.roll s.region g)).map fun m =>
        (m.isMarked, m.message)) := by
    rw [List.mapM_map]
    exact mapM_eq_ok fun m _ => s.decodeMember_ofMember m
  have hj : ((L.roll s.region g).map MemberRow.ofMember).map (·.createdDate)
      = (L.roll s.region g).map (·.joined) := by
    rw [List.map_map]; rfl
  unfold getGroup
  simp only [s.filter_inGroup r, hj]
  cases ht : ((L.roll s.region g).map (·.joined)).min? with
  | none =>
    have hr : L.roll s.region g = [] := by simpa using ht
    rw [(Ledger.group_eq_empty_iff s.region).2 hr]
    exact .ok (.refl _)
  | some oldest =>
    simp only [hs, hd]
    refine .ok ⟨rfl, ?_, ?_, ht.symm⟩
    · simp only [List.filter_map, List.map_map, Ledger.group]
      rw [← filter_sort Member.joinedBefore_total Member.joinedBefore_trans]
      rfl
    · simp only [List.filter_map, List.map_map, Ledger.group]
      exact ((sort_perm _ _).filter _).map _

theorem reload_steps (g : Uuid) :
    Steps Group.Alike Represents (s.reload g t) (L.reload s.region g) :=
  ⟨s.getGroup_agree r g, r⟩

theorem any_isMember (g id : Uuid) :
    t.members.any (s.isMember g id) = L.members.any (·.isAt s.region g id) := by
  rw [r.members, List.any_map]
  congr 1
  funext x
  exact s.isMember_ofMember g id x

theorem addToGroup_steps (now : Int64) (g : Uuid) (m : Message) :
    Steps Group.Alike Represents (s.addToGroup now g m t)
      (L.addToGroup s.region s.codec now g m) := by
  unfold addToGroup Ledger.addToGroup
  rw [s.any_isMember r]
  cases hf : L.members.any (·.isAt s.region g m.id) with
  | true => exact ⟨.error, r⟩
  | false =>
    simp only [Bool.false_eq_true, if_false, Codec.encode_eq]
    by_cases hs : (Codec.envelope m).size ≤ s.codec.maxSize
    · rw [if_neg (by omega), dif_pos hs]
      refine s.reload_steps ⟨?_, ?_⟩ g
      · rw [Ledger.kept_join]
        exact r.messages
      · have hm := Ledger.members_join (m := .enrol s.region s.codec now g m hs) hf
        simp only [hm, r.members, List.map_append, List.map_cons, List.map_nil]
        rfl
    · rw [if_pos (by omega), dif_neg hs]
      exact ⟨.error, r⟩

/-- A row that is marked already is left as it is by being marked again. -/
theorem represents_mark (now : Int64) {covers : MemberRow → Bool} {covers' : Member → Bool}
    (h : ∀ m, covers (.ofMember m) = covers' m) :
    Represents { t with
        members := t.members.map fun r => if covers r then { r with marked := true } else r }
      (L.mark now covers') := by
  refine ⟨r.messages, ?_⟩
  simp only [r.members, Ledger.mark, List.map_map]
  congr 1
  funext m
  have hc := h m
  simp only [Function.comp, hc]
  simp only [MemberRow.ofMember, Member.mark_region, Member.mark_group, Member.mark_message,
    Member.mark_joined, Member.isMarked_mark]
  cases covers' m <;> simp

theorem represents_dismiss {gone : MemberRow → Bool} {gone' : Member → Bool}
    (h : ∀ m, gone (.ofMember m) = gone' m) :
    Represents { t with members := t.members.filter fun r => !gone r } (L.dismiss gone') := by
  refine ⟨r.messages, ?_⟩
  simp only [r.members, Ledger.dismiss, List.filter_map]
  congr 2
  funext m
  simp only [Function.comp, h]

theorem groupKeys_eq : s.groupKeys t = L.groupKeys s.region := by
  rw [groupKeys, r.members, List.filter_map, List.map_map]
  rfl

omit r

/-- A store in memory refines a ledger. -/
theorem refines_ledger : Refines s.backend (Ledger.backend s.region s.codec) Represents where
  addMessage now m := fun r => s.addMessage_steps r now m
  getMessage id := fun r => s.getMessage_agree r id
  removeMessage id := fun r => ⟨s.getMessage_agree r id, s.represents_discard r id⟩
  messageCount := fun r => .ok (s.messageCount_eq r)
  addToGroup now g m := fun r => s.addToGroup_steps r now g m
  getGroup g := fun r => s.getGroup_agree r g
  markGroup now g := fun r => s.reload_steps (represents_mark r now (s.inGroup_ofMember g)) g
  markMessage now g id := fun r =>
    s.reload_steps (represents_mark r now (s.isMember_ofMember g id)) g
  removeFromGroup g id := fun r =>
    s.reload_steps (represents_dismiss r (s.isMember_ofMember g id)) g
  removeGroup g := fun r => ⟨.ok rfl, represents_dismiss r (s.inGroup_ofMember g)⟩
  groupKeys := fun r => .ok (s.groupKeys_eq r)
  groupCount := fun r => .ok (by rw [s.groupKeys_eq r])

end Store

end MessageDepot.Memory
