import MessageDepot.Proofs.CodecRoundTrip
import MessageDepot.Store.Backend
import MessageDepot.Sorting

/-!
# Ledgers

What stores keep, whatever they keep it in: messages with the clock of their stamp, and members
of groups with the clock at which they joined, each with its region and in the order of
addition. A ledger cannot hold two messages of one identifier in a region, nor one message twice
in a group, nor a message without its stamp or too long for a frame: its entries and the ledger
itself carry the proofs. `Ledger.backend` performs the operations of a store on a ledger. It
reads nothing back from bytes or rows, so all it can do is refuse an addition.

Results:
* `kept_keep`, `members_join`: an addition that is not refused goes behind all others.
* `group_eq_empty_iff`: the empty group is loaded exactly where there are no members.
* `expire_eq`: expiry empties just the groups that it gives.
-/
namespace MessageDepot

/-! ## Entries -/

/-- A message that is kept under a stamp. -/
structure Kept where
  region : String
  message : Message
  clock : Int64
  saved : message.isSaved = true
  dated : message.createdDate? = some clock
  fits : (Codec.envelope message).size < 4294967296

/-- A member of a group, with the clock at which it was marked, if it was. -/
structure Member where
  region : String
  group : Uuid
  message : Message
  joined : Int64
  markedAt : Option Int64
  fits : (Codec.envelope message).size < 4294967296

namespace Kept

def isAt (region : String) (id : Uuid) (k : Kept) : Bool := k.region = region && k.message.id = id

/-- The two can be kept side by side. -/
def Apart (a b : Kept) : Prop := ¬(a.region = b.region ∧ a.message.id = b.message.id)

instance (a b : Kept) : Decidable (a.Apart b) := inferInstanceAs (Decidable (¬_))

/-- A message stamped at a clock, within the limit of a codec. -/
def stamp (region : String) (codec : Codec) (now : Int64) (m : Message)
    (h : (Codec.envelope (m.markSaved now)).size ≤ codec.maxSize) : Kept :=
  ⟨region, m.markSaved now, now, by simp, by simp, Nat.lt_of_le_of_lt h codec.maxSize_lt⟩

end Kept

namespace Member

def isIn (region : String) (group : Uuid) (m : Member) : Bool :=
  m.region = region && m.group = group

def isAt (region : String) (group id : Uuid) (m : Member) : Bool :=
  m.isIn region group && m.message.id = id

/-- The two can be members side by side. -/
def Apart (a b : Member) : Prop :=
  ¬(a.region = b.region ∧ a.group = b.group ∧ a.message.id = b.message.id)

instance (a b : Member) : Decidable (a.Apart b) := inferInstanceAs (Decidable (¬_))

def isMarked (m : Member) : Bool := m.markedAt.isSome

/-- Marks an unmarked member that `covers` picks. -/
def mark (now : Int64) (covers : Member → Bool) (m : Member) : Member :=
  if !m.isMarked && covers m then { m with markedAt := some now } else m

/-- A new member, within the limit of a codec. -/
def enrol (region : String) (codec : Codec) (now : Int64) (group : Uuid) (m : Message)
    (h : (Codec.envelope m).size ≤ codec.maxSize) : Member :=
  ⟨region, group, m, now, none, Nat.lt_of_le_of_lt h codec.maxSize_lt⟩

/-- By the clock of joining. -/
def joinedBefore (a b : Member) : Bool := a.joined ≤ b.joined

theorem mark_region (now : Int64) (covers : Member → Bool) (m : Member) :
    (m.mark now covers).region = m.region := by unfold mark; split <;> rfl

theorem mark_group (now : Int64) (covers : Member → Bool) (m : Member) :
    (m.mark now covers).group = m.group := by unfold mark; split <;> rfl

theorem isIn_mark (region : String) (g : Uuid) (now : Int64) (covers : Member → Bool) (m : Member) :
    (m.mark now covers).isIn region g = m.isIn region g := by
  rw [isIn, mark_region, mark_group]
  rfl

theorem mark_message (now : Int64) (covers : Member → Bool) (m : Member) :
    (m.mark now covers).message = m.message := by unfold mark; split <;> rfl

theorem mark_joined (now : Int64) (covers : Member → Bool) (m : Member) :
    (m.mark now covers).joined = m.joined := by unfold mark; split <;> rfl

theorem isMarked_mark (now : Int64) (covers : Member → Bool) (m : Member) :
    (m.mark now covers).isMarked = (m.isMarked || covers m) := by
  unfold mark
  cases hm : m.isMarked with
  | true => simp [hm]
  | false =>
    cases covers m with
    | true => rfl
    | false => simp [hm]

theorem joinedBefore_total (a b : Member) : joinedBefore a b ∨ joinedBefore b a := by
  simp only [joinedBefore, decide_eq_true_eq]
  exact Int64.le_total _ _

theorem joinedBefore_trans (a b c : Member) (h : joinedBefore a b) (k : joinedBefore b c) :
    joinedBefore a c := by
  simp only [joinedBefore, decide_eq_true_eq] at *
  exact Int64.le_trans h k

end Member

/-! ## Ledgers -/

structure Ledger where
  kept : List Kept
  members : List Member
  keptApart : kept.Pairwise Kept.Apart
  membersApart : members.Pairwise Member.Apart

namespace Ledger

def empty : Ledger := ⟨[], [], .nil, .nil⟩

theorem pairwise_concat {α : Type} {r : α → α → Prop} {as : List α} {a : α} (h : as.Pairwise r)
    (ha : ∀ b ∈ as, r b a) : (as ++ [a]).Pairwise r :=
  List.pairwise_append.2 ⟨h, by simp, fun b hb c hc => by
    rw [List.mem_singleton.1 hc]; exact ha b hb⟩

/-- Adds a message, unless its place is taken. -/
def keep (k : Kept) (L : Ledger) : Ledger :=
  if h : ∀ x ∈ L.kept, x.Apart k then
    { L with kept := L.kept ++ [k], keptApart := pairwise_concat L.keptApart h }
  else L

def discard (gone : Kept → Bool) (L : Ledger) : Ledger :=
  { L with kept := L.kept.filter fun k => !gone k, keptApart := L.keptApart.filter _ }

/-- Adds a member, unless its place is taken. -/
def join (m : Member) (L : Ledger) : Ledger :=
  if h : ∀ x ∈ L.members, x.Apart m then
    { L with members := L.members ++ [m], membersApart := pairwise_concat L.membersApart h }
  else L

def dismiss (gone : Member → Bool) (L : Ledger) : Ledger :=
  { L with members := L.members.filter fun m => !gone m, membersApart := L.membersApart.filter _ }

def mark (now : Int64) (covers : Member → Bool) (L : Ledger) : Ledger :=
  { L with
    members := L.members.map (·.mark now covers)
    membersApart := List.pairwise_map.2 (L.membersApart.imp fun h => by
      simpa [Member.Apart, Member.mark_region, Member.mark_group, Member.mark_message] using h) }

theorem kept_keep {L : Ledger} {k : Kept}
    (h : L.kept.find? (·.isAt k.region k.message.id) = none) :
    (L.keep k).kept = L.kept ++ [k] := by
  unfold keep
  rw [dif_pos]
  intro x hx
  simpa [Kept.isAt, Kept.Apart] using List.find?_eq_none.1 h x hx

theorem discard_eq_self {gone : Kept → Bool} {L : Ledger} (h : ∀ k ∈ L.kept, gone k = false) :
    L.discard gone = L := by
  obtain ⟨kept, members, keptApart, membersApart⟩ := L
  simp only [discard, mk.injEq, and_true]
  exact List.filter_eq_self.2 fun k hk => by rw [h k hk]; rfl

theorem members_keep (L : Ledger) (k : Kept) : (L.keep k).members = L.members := by
  unfold keep
  split <;> rfl

theorem members_join {L : Ledger} {m : Member}
    (h : L.members.any (·.isAt m.region m.group m.message.id) = false) :
    (L.join m).members = L.members ++ [m] := by
  unfold join
  rw [dif_pos]
  intro x hx
  simpa [Member.isAt, Member.isIn, Member.Apart] using List.any_eq_false.1 h x hx

theorem kept_join (L : Ledger) (m : Member) : (L.join m).kept = L.kept := by
  unfold join
  split <;> rfl

/-! ## Operations -/

/-- Why an addition is refused. -/
inductive Refusal where
  | duplicate
  | tooLarge
  deriving DecidableEq, Repr

variable (region : String) (codec : Codec)

/-- The message of an identifier. -/
def find? (id : Uuid) (L : Ledger) : Option Message :=
  (L.kept.find? (·.isAt region id)).map (·.message)

/-- The members of a group, in the order in which they were added. -/
def roll (group : Uuid) (L : Ledger) : List Member := L.members.filter (·.isIn region group)

/-- Puts a group together, members that joined at one clock in the order of their addition. -/
def group (g : Uuid) (L : Ledger) : Group where
  id := g
  unmarked := (sort Member.joinedBefore ((L.roll region g).filter (!·.isMarked))).map (·.message)
  marked := ((L.roll region g).filter (·.isMarked)).map (·.message)
  timestamp := ((L.roll region g).map (·.joined)).min?

/-- The texts of the groups that have members, each once, in ascending order. -/
def groupKeys (L : Ledger) : List String :=
  sort (fun a b => a ≤ b) (distinct ((L.members.filter (·.region = region)).map (·.group.text)))

def addMessage (now : Int64) (m : Message) (L : Ledger) : Except Refusal Message × Ledger :=
  match L.find? region m.id with
  | some stored => if stored = m then (.ok m, L) else (.error .duplicate, L)
  | none =>
    if h : (Codec.envelope (m.markSaved now)).size ≤ codec.maxSize then
      (.ok (m.markSaved now), L.keep (.stamp region codec now m h))
    else (.error .tooLarge, L)

theorem members_addMessage (now : Int64) (m : Message) (L : Ledger) :
    (L.addMessage region codec now m).2.members = L.members := by
  unfold addMessage
  split
  · split <;> rfl
  · split
    · exact members_keep ..
    · rfl

def addToGroup (now : Int64) (g : Uuid) (m : Message) (L : Ledger) :
    Except Refusal Group × Ledger :=
  if L.members.any (·.isAt region g m.id) then (.error .duplicate, L)
  else if h : (Codec.envelope m).size ≤ codec.maxSize then
    let L := L.join (.enrol region codec now g m h)
    (.ok (L.group region g), L)
  else (.error .tooLarge, L)

/-- A group after a change of the ledger. -/
def reload (g : Uuid) (L : Ledger) : Except Refusal Group × Ledger := (.ok (L.group region g), L)

/-- A ledger as a backend, for one region and the size limit of a codec. -/
def backend : Backend Ledger Refusal where
  addMessage := addMessage region codec
  getMessage id L := .ok (L.find? region id)
  removeMessage id L := (.ok (L.find? region id), L.discard (·.isAt region id))
  messageCount L := .ok (L.kept.filter (·.region = region)).length
  addToGroup := addToGroup region codec
  getGroup g L := .ok (L.group region g)
  markGroup now g L := (L.mark now (·.isIn region g)).reload region g
  markMessage now g id L := (L.mark now (·.isAt region g id)).reload region g
  removeFromGroup g id L := (L.dismiss (·.isAt region g id)).reload region g
  removeGroup g L := (.ok (), L.dismiss (·.isIn region g))
  groupKeys L := .ok (L.groupKeys region)
  groupCount L := .ok (L.groupKeys region).length

/-! ## Groups -/

theorem group_eq_empty_iff {g : Uuid} {L : Ledger} :
    L.group region g = Group.empty g ↔ L.roll region g = [] := by
  constructor
  · intro h
    have ht : ((L.roll region g).map (·.joined)).min? = none := congrArg Group.timestamp h
    simpa using ht
  · intro h
    simp [group, Group.empty, h, sort]

theorem roll_mark (g : Uuid) (now : Int64) (covers : Member → Bool) (L : Ledger) :
    (L.mark now covers).roll region g = (L.roll region g).map (·.mark now covers) := by
  rw [roll, mark, List.filter_map]
  congr 2
  funext m
  exact m.isIn_mark ..

theorem roll_dismiss_eq_filter (g : Uuid) (gone : Member → Bool) (L : Ledger) :
    (L.dismiss gone).roll region g = (L.roll region g).filter (!gone ·) := by
  rw [roll, roll, dismiss, List.filter_filter, List.filter_filter]
  simp only [Bool.and_comm]

/-- A member of one group is in no other. -/
theorem isIn_eq_false {region region' : String} {g g' : Uuid} {L : Ledger} {m : Member}
    (hm : m ∈ L.roll region' g') (h : ¬(region' = region ∧ g' = g)) : m.isIn region g = false := by
  have hin := (List.mem_filter.1 hm).2
  simp only [Member.isIn, Bool.and_eq_true, decide_eq_true_eq] at hin
  simpa [Member.isIn, hin] using h

theorem roll_dismiss (region' : String) (g g' : Uuid) (L : Ledger) :
    (L.dismiss (·.isIn region g)).roll region' g' =
      if region' = region ∧ g = g' then [] else L.roll region' g' := by
  rw [roll_dismiss_eq_filter]
  split
  · rename_i h
    rw [h.1, h.2, List.filter_eq_nil_iff]
    intro m hm
    simp [(List.mem_filter.1 hm).2]
  · rename_i h
    rw [List.filter_eq_self]
    intro m hm
    rw [isIn_eq_false hm fun hg => h ⟨hg.1, hg.2.symm⟩]
    rfl

/-- A pass of expiry succeeds, and empties just the groups that it gives. -/
theorem expireKeys_eq (cutoff : Int64) (keys : List String) : ∀ L : Ledger, ∃ gs,
    ((backend region codec).expireKeys cutoff keys L).1 = .ok gs ∧ ∀ region' g,
      ((backend region codec).expireKeys cutoff keys L).2.roll region' g =
        if region' = region ∧ gs.any (·.id = g) then [] else L.roll region' g := by
  induction keys with
  | nil => intro L; exact ⟨[], rfl, fun _ _ => by simp [Backend.expireKeys]⟩
  | cons key keys ih =>
    intro L
    have hload : (backend region codec).loadKey key L =
        .ok (L.group region (Key.text key).identifier) := rfl
    rw [Backend.expireKeys_cons, hload]
    generalize L.group region (Key.text key).identifier = g
    unfold Backend.expireLoaded
    simp only
    split
    · obtain ⟨gs, h1, h2⟩ := ih (L.dismiss (·.isIn region g.id))
      have hremove : (backend region codec).removeGroup g.id L =
          (.ok (), L.dismiss (·.isIn region g.id)) := rfl
      simp only [hremove, Backend.expireRemoved]
      refine ⟨g :: gs, by rw [h1]; rfl, fun region' g' => ?_⟩
      rw [h2, roll_dismiss, List.any_cons]
      by_cases hr : region' = region <;> by_cases hg : g.id = g' <;> simp [hr, hg]
    · exact ih L

/-- Expiry succeeds, and empties just the groups that it gives. -/
theorem expire_eq (now : Int64) (timeout : Timeout) (L : Ledger) : ∃ gs,
    ((backend region codec).expire now timeout L).1 = .ok gs ∧ ∀ region' g,
      ((backend region codec).expire now timeout L).2.roll region' g =
        if region' = region ∧ gs.any (·.id = g) then [] else L.roll region' g :=
  expireKeys_eq region codec _ _ L

end Ledger

end MessageDepot
