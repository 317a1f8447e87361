import MessageDepot.Proofs.Ledger
import MessageDepot.Proofs.Refinement
import MessageDepot.Proofs.StableSort
import MessageDepot.Proofs.Tables
import MessageDepot.Store.Relational

/-!
# Stores in a database keep a ledger for each prefix

The two tables of a prefix are those of a ledger when their rows are the stored forms of its
entries, in the same order, and the numbers of the member rows ascend (`Holds`). A store works
on the tables of its own prefix and leaves the others alone, so a database with the tables of
several prefixes stands for a family of ledgers, one for each prefix without the case of its
letters (`Represents`).

Ascending row numbers are what makes the tie-break of a group's order the order of addition: a
new row gets a number above all others, rows are taken out without renumbering, and marking
rewrites them in place.

Results:
* `assemble_eq`: what is put together from the rows of a group.
* `Store.refines_ledger`: a store in a database refines the ledger of its prefix.
* `run_alike_ledgers`: sessions on a new database and on empty ledgers.
-/
namespace MessageDepot.Sql

/-! ## Rows -/

def MessageRow.ofKept (k : Kept) : MessageRow :=
  ⟨k.message.id.text, k.region, some k.clock, some (Codec.frame k.message)⟩

def MemberRow.ofMember (m : Member) : MemberRow :=
  ⟨m.group.text, m.message.id.text, m.region, some m.joined, some (if m.isMarked then 1 else 0),
    m.markedAt, some (Codec.frame m.message)⟩

theorem MessageRow.ofKept_stamp {region : String} {codec : Codec} {now : Int64} {m : Message}
    (h : (Codec.envelope (m.markSaved now)).size ≤ codec.maxSize) :
    ofKept (.stamp region codec now m h) =
      ⟨m.id.text, region, some now, some (Codec.frame (m.markSaved now))⟩ := rfl

theorem MessageRow.sameKey_ofKept (id : Uuid) (region : String) (c : Option Int64)
    (b : Option Bytes) (k : Kept) :
    (MessageRow.mk id.text region c b).sameKey (.ofKept k) = k.isAt region id := by
  show (decide (id.text = k.message.id.text) && decide (region = k.region)) = _
  rw [Bool.eq_iff_iff]
  simp only [Kept.isAt, Bool.and_eq_true, decide_eq_true_eq, Uuid.text_inj]
  constructor <;> (rintro ⟨rfl, rfl⟩; exact ⟨rfl, rfl⟩)

theorem MemberRow.sameKey_ofMember (m x : Member) :
    (MemberRow.ofMember m).sameKey (.ofMember x) = x.isAt m.region m.group m.message.id := by
  show (decide (m.group.text = x.group.text) && decide (m.message.id.text = x.message.id.text)
    && decide (m.region = x.region)) = _
  rw [Bool.eq_iff_iff]
  simp only [Member.isAt, Member.isIn, Bool.and_eq_true, decide_eq_true_eq, Uuid.text_inj]
  constructor <;> (rintro ⟨⟨h1, h2⟩, h3⟩; simp [h1, h2, h3])

/-- A member table with the rows of some members, in their order. -/
structure MemberTable.Lists (t : MemberTable) (ms : List Member) : Prop where
  keyed : t.keyed = true
  indexed : t.indexed = true
  rows : t.rows = ms.map .ofMember
  ascending : t.entries.Pairwise fun a b => a.1 < b.1

/-- The tables of a prefix hold the entries of a ledger. -/
structure Holds (tablePrefix : String) (db : Database) (L : Ledger) : Prop where
  messages : db.messages? tablePrefix = some ⟨true, L.kept.map .ofKept⟩
  members : ∃ t, db.members? tablePrefix = some t ∧ t.Lists L.members

/-- Ledgers by the folded names of prefixes. -/
abbrev Ledgers := List Char → Ledger

/-- The tables of every prefix hold the entries of its ledger. -/
def Represents (prefixes : List String) (db : Database) (W : Ledgers) : Prop :=
  ∀ p ∈ prefixes, Holds p db (W (foldName p))

theorem holds_of_blank {p : String} {db : Database} (h : db.Blank p) : Holds p db Ledger.empty where
  messages := by rw [Database.messages?, h.messages]; rfl
  members := ⟨⟨true, true, []⟩, by rw [Database.members?, h.members], rfl, rfl, rfl, .nil⟩

/-- A new database stands for empty ledgers. -/
theorem represents_of_initialise {prefixes : List String} {db : Database}
    (h : Database.initialise prefixes = .ok db) : Represents prefixes db fun _ => Ledger.empty :=
  fun _ hp => holds_of_blank (Database.blank_of_initialise h hp)

/-! ## Changes of one table -/

section
variable {prefixes : List String} {db : Database} {W : Ledgers} {p : String}

theorem Represents.putMessages (r : Represents prefixes db W) (hp : p ∈ prefixes) {L : Ledger}
    (hm : L.members = (W (foldName p)).members) :
    Represents prefixes (db.put (messageTable p) (.messages ⟨true, L.kept.map .ofKept⟩))
      (Function.update W (foldName p) L) := by
  intro q hq
  have hput := Database.messages?_putMessages (q := q) (t := ⟨true, L.kept.map .ofKept⟩)
    (r p hp).messages
  by_cases hn : foldName q = foldName p
  · rw [hn, Function.update_self]
    refine ⟨by rw [hput, if_pos hn], ?_⟩
    rw [Database.members?_putMessages, hm, ← hn]
    exact (r q hq).members
  · rw [Function.update_of_ne hn]
    refine ⟨by rw [hput, if_neg hn]; exact (r q hq).messages, ?_⟩
    rw [Database.members?_putMessages]
    exact (r q hq).members

theorem Represents.putMembers (r : Represents prefixes db W) (hp : p ∈ prefixes) {L : Ledger}
    {t : MemberTable} (hk : L.kept = (W (foldName p)).kept) (ht : t.Lists L.members) :
    Represents prefixes (db.put (memberTable p) (.members t))
      (Function.update W (foldName p) L) := by
  intro q hq
  obtain ⟨u, hu, -⟩ := (r p hp).members
  have hput := Database.members?_putMembers (q := q) (t := t) hu
  by_cases hn : foldName q = foldName p
  · rw [hn, Function.update_self]
    refine ⟨?_, t, by rw [hput, if_pos hn], ht⟩
    rw [Database.messages?_putMembers, hk, ← hn]
    exact (r q hq).messages
  · rw [Function.update_of_ne hn]
    refine ⟨?_, by rw [hput, if_neg hn]; exact (r q hq).members⟩
    rw [Database.messages?_putMembers]
    exact (r q hq).messages

end

/-! ## Member tables -/

namespace MemberTable

variable {t : MemberTable} {ms : List Member} (h : t.Lists ms)
include h

theorem Lists.ofMember_of_mem {e : Nat × MemberRow} (he : e ∈ t.entries) :
    ∃ m, e.2 = .ofMember m := by
  have hr : e.2 ∈ t.rows := List.mem_map_of_mem he
  rw [h.rows] at hr
  obtain ⟨m, -, hm⟩ := List.mem_map.1 hr
  exact ⟨m, hm.symm⟩

theorem Lists.any_sameKey (m : Member) : t.rows.any (MemberRow.ofMember m).sameKey =
    ms.any (·.isAt m.region m.group m.message.id) := by
  rw [h.rows, List.any_map]
  congr 1
  funext x
  exact MemberRow.sameKey_ofMember m x

theorem Lists.insert_taken {m : Member} (hm : ms.any (·.isAt m.region m.group m.message.id)) :
    t.insert (.ofMember m) = .error .duplicateKey := by
  rw [MemberTable.insert, h.any_sameKey, hm, h.keyed]
  rfl

theorem Lists.insert {m : Member} (hm : ms.any (·.isAt m.region m.group m.message.id) = false) :
    ∃ u, t.insert (.ofMember m) = .ok u ∧ u.Lists (ms ++ [m]) := by
  refine ⟨{ t with entries := t.entries ++ [(t.nextRowid, .ofMember m)] }, ?_, h.keyed, h.indexed,
    ?_, ?_⟩
  · rw [MemberTable.insert, h.any_sameKey, hm]
    simp [MemberRow.isComplete, MemberRow.ofMember]
  · have := h.rows
    simp only [MemberTable.rows] at this ⊢
    simp [this]
  · exact List.pairwise_append.2 ⟨h.ascending, by simp, fun e he f hf => by
      rw [List.mem_singleton.1 hf]; exact lt_nextRowid he⟩

theorem Lists.delete {gone : MemberRow → Bool} {gone' : Member → Bool}
    (hg : ∀ m, gone (.ofMember m) = gone' m) :
    (t.delete gone).Lists (ms.filter fun m => !gone' m) := by
  refine ⟨h.keyed, h.indexed, ?_, h.ascending.filter _⟩
  have hr : (t.delete gone).rows = t.rows.filter fun r => !gone r := by
    simp only [MemberTable.rows, MemberTable.delete, List.filter_map]
    rfl
  rw [hr, h.rows, List.filter_map]
  congr 2
  funext m
  simp only [Function.comp, hg]

theorem Lists.update {f : MemberRow → MemberRow} {f' : Member → Member}
    (hf : ∀ m, f (.ofMember m) = .ofMember (f' m)) : (t.update f).Lists (ms.map f') := by
  refine ⟨h.keyed, h.indexed, ?_, List.pairwise_map.2 h.ascending⟩
  have hr : (t.update f).rows = t.rows.map f := by
    simp only [MemberTable.rows, MemberTable.update, List.map_map]
    rfl
  rw [hr, h.rows, List.map_map, List.map_map]
  congr 1
  funext m
  exact hf m

end MemberTable

/-! ## Loading -/

namespace Store

variable (s : Store)

theorem holds_ofKept (id : Uuid) (k : Kept) : s.holds id (.ofKept k) = k.isAt s.region id := by
  show (decide (k.message.id.text = id.text) && decide (k.region = s.region)) = _
  simp [Kept.isAt, Bool.and_comm]

theorem inGroup_ofMember (g : Uuid) (m : Member) :
    s.inGroup g (.ofMember m) = m.isIn s.region g := by
  show (decide (m.group.text = g.text) && decide (m.region = s.region)) = _
  simp [Member.isIn, Bool.and_comm]

theorem isMember_ofMember (g id : Uuid) (m : Member) :
    s.isMember g id (.ofMember m) = m.isAt s.region g id := by
  rw [isMember, inGroup_ofMember]
  show (_ && decide (m.message.id.text = id.text)) = _
  simp [Member.isAt]

theorem mark_ofMember (now : Int64) {covers : MemberRow → Bool} {covers' : Member → Bool}
    (h : ∀ m, covers (.ofMember m) = covers' m) (m : Member) :
    mark now covers (.ofMember m) = .ofMember (m.mark now covers') := by
  unfold mark Member.mark
  rw [h]
  cases hm : m.isMarked <;> cases covers' m <;> simp [MemberRow.ofMember, hm]
  rfl

theorem decodeBytes_frame {m : Message} (h : (Codec.envelope m).size < 4294967296) :
    s.decodeBytes (some (Codec.frame m)) = .ok m := by
  rw [decodeBytes, Option.getD_some, Codec.decode_frame _ h]
  rfl

theorem decodeRows_ofMember (ms : List Member) :
    s.decodeRows (ms.map .ofMember) = .ok (ms.map (·.message)) := by
  rw [decodeRows, List.mapM_map]
  exact mapM_eq_ok fun m _ => s.decodeBytes_frame m.fits

/-- By clock alone. -/
def rowBefore (a b : MemberRow) : Bool := a.createdDate.getD 0 ≤ b.createdDate.getD 0

theorem createdBefore_eq {e f : Nat × MemberRow} {a b : Member} (ha : e.2 = .ofMember a)
    (hb : f.2 = .ofMember b) (h : e.1 < f.1) : createdBefore e f = rowBefore e.2 f.2 := by
  simp only [createdBefore, rowBefore, ha, hb, MemberRow.ofMember, Option.getD_some]
  rw [Bool.eq_iff_iff]
  simp only [Bool.or_eq_true, Bool.and_eq_true, decide_eq_true_eq, Nat.le_of_lt h, and_true]
  rw [Int64.le_iff_lt_or_eq]

variable {t : MemberTable} {ms : List Member} (h : t.Lists ms) (g : Uuid)
include h

theorem filter_inGroup :
    t.rows.filter (s.inGroup g) = (ms.filter (·.isIn s.region g)).map .ofMember := by
  rw [h.rows, List.filter_map]
  congr 2
  funext m
  exact s.inGroup_ofMember g m

theorem markedRows_eq : s.markedRows g t =
    ((ms.filter (·.isIn s.region g)).filter (·.isMarked)).map .ofMember := by
  rw [markedRows, h.rows, List.filter_map, List.filter_filter]
  congr 2
  funext m
  simp only [Function.comp, s.inGroup_ofMember]
  cases hm : m.isMarked <;> simp [MemberRow.ofMember, hm]

/-- Row numbers ascend, so ordering by clock and number is sorting by clock stably. -/
theorem unmarkedRows_eq : s.unmarkedRows g t = (sort Member.joinedBefore
    ((ms.filter (·.isIn s.region g)).filter (!·.isMarked))).map .ofMember := by
  have hc : (t.entries.filter fun e => s.inGroup g e.2 && e.2.marked = some 0).Pairwise
      fun a b => createdBefore a b = rowBefore a.2 b.2 := by
    refine (h.ascending.filter _).imp_of_mem fun {a b} ha hb hab => ?_
    obtain ⟨x, hx⟩ := h.ofMember_of_mem (List.mem_filter.1 ha).1
    obtain ⟨y, hy⟩ := h.ofMember_of_mem (List.mem_filter.1 hb).1
    exact createdBefore_eq hx hy hab
  have hf : (t.entries.filter fun e => s.inGroup g e.2 && e.2.marked = some 0).map (·.2) =
      ((ms.filter (·.isIn s.region g)).filter (!·.isMarked)).map .ofMember := by
    have : (t.entries.filter fun e => s.inGroup g e.2 && e.2.marked = some 0).map (·.2) =
        t.rows.filter fun r => s.inGroup g r && r.marked = some 0 := by
      rw [MemberTable.rows, List.filter_map]
      rfl
    rw [this, h.rows, List.filter_map, List.filter_filter]
    congr 2
    funext m
    simp only [Function.comp, s.inGroup_ofMember]
    cases hm : m.isMarked <;> simp [MemberRow.ofMember, hm]
  have hs (es : List (Nat × MemberRow)) :
      (sort (fun a b => rowBefore a.2 b.2) es).map (·.2) = sort rowBefore (es.map (·.2)) :=
    map_sort (fun _ _ => rfl) es
  rw [unmarkedRows, sort_congr hc, hs, hf]
  exact (map_sort (fun _ _ => rfl) _).symm

theorem oldest?_eq : s.oldest? g t = ((ms.filter (·.isIn s.region g)).map (·.joined)).min? := by
  rw [oldest?, s.filter_inGroup h, List.filterMap_map]
  exact congrArg List.min? (congrFun List.filterMap_eq_map _)

theorem assemble_eq : s.assemble g t = .ok ⟨g,
    (sort Member.joinedBefore ((ms.filter (·.isIn s.region g)).filter (!·.isMarked))).map
      (·.message),
    ((ms.filter (·.isIn s.region g)).filter (·.isMarked)).map (·.message),
    ((ms.filter (·.isIn s.region g)).map (·.joined)).min?⟩ := by
  unfold assemble
  simp only [s.markedRows_eq h, s.unmarkedRows_eq h, s.oldest?_eq h, s.decodeRows_ofMember]
  generalize ms.filter (·.isIn s.region g) = roll
  cases ht : (roll.map (·.joined)).min? with
  | none =>
    have hr : roll = [] := by simpa using ht
    subst hr
    rfl
  | some oldest =>
    have hr : roll ≠ [] := by rintro rfl; cases ht
    rw [if_neg]
    -- every member is marked or not, so one of the two lists has a row
    rintro ⟨hm, hu⟩
    obtain ⟨m, hmem⟩ := List.exists_mem_of_ne_nil roll hr
    have hmarked := List.filter_eq_nil_iff.1 (List.map_eq_nil_iff.1 hm) m hmem
    have hsorted : (roll.filter (!·.isMarked)) = [] := by
      rw [← List.length_eq_zero_iff, ← length_sort Member.joinedBefore, List.length_eq_zero_iff]
      exact List.map_eq_nil_iff.1 hu
    have hunmarked := List.filter_eq_nil_iff.1 hsorted m hmem
    simp_all

end Store

/-! ## Operations -/

namespace Store

variable (s : Store) {prefixes : List String} {db : Database} {W : Ledgers}

/-- The ledger of a store's prefix. -/
def ledgerIn (W : Ledgers) : Ledger := W (foldName s.tablePrefix)

/-- The family in which the ledger of a store's prefix is the new one. -/
def putLedger (W : Ledgers) (L : Ledger) : Ledgers := Function.update W (foldName s.tablePrefix) L

section
variable {L : Ledger} (h : Holds s.tablePrefix db L)
include h

theorem messageRows_eq : s.messageRows db = .ok (L.kept.map .ofKept) := by
  rw [messageRows, h.messages]

theorem getMessage_eq (id : Uuid) :
    s.getMessage id db = .ok (L.find? s.region id) := by
  have hh : s.holds id ∘ MessageRow.ofKept = (·.isAt s.region id) := by
    funext k
    exact s.holds_ofKept id k
  rw [getMessage, s.messageRows_eq h, Ledger.find?]
  simp only [List.find?_map, hh]
  cases L.kept.find? (·.isAt s.region id) with
  | none => rfl
  | some k =>
    simp only [Option.map_some, MessageRow.ofKept, s.decodeBytes_frame k.fits]
    rfl

/-- What is kept is stamped, so a message is known again exactly when it is kept as it is. -/
theorem isRedelivery_eq (m : Message) :
    s.isRedelivery m db = .ok (decide (L.find? s.region m.id = some m)) := by
  rw [isRedelivery, s.getMessage_eq h]
  split
  · rfl
  · rename_i hm
    rw [decide_eq_false]
    intro hf
    obtain ⟨k, -, rfl⟩ := Option.map_eq_some_iff.1 hf
    simp [k.saved, k.dated] at hm

theorem insertMessage_eq (k : Kept) : db.insertMessage s.tablePrefix (.ofKept k) =
    if (L.find? k.region k.message.id).isSome then .error .duplicateKey
    else .ok (db.put (messageTable s.tablePrefix)
      (.messages ⟨true, L.kept.map .ofKept ++ [.ofKept k]⟩)) := by
  have hd : (L.kept.map MessageRow.ofKept).any (MessageRow.ofKept k).sameKey =
      (L.find? k.region k.message.id).isSome := by
    rw [List.any_map, Ledger.find?, Option.isSome_map, List.isSome_find?]
    congr 1
    funext x
    exact MessageRow.sameKey_ofKept ..
  have hc : (MessageRow.ofKept k).isComplete = true := rfl
  rw [Database.insertMessage, h.messages]
  simp only [MessageTable.insert, hd, hc, Bool.true_and, Bool.not_true, Bool.false_eq_true,
    if_false]
  split <;> rfl

/-- A message that is kept is taken when it comes again, as delivered before. -/
theorem addMessage_known {m : Message} (now : Int64) (hf : L.find? s.region m.id = some m) :
    s.addMessage now m db = (.ok m, db) := by
  rw [addMessage, s.isRedelivery_eq h, hf]
  simp

/-- Any other message in its place fails on the way to its row, or on that row. -/
theorem addMessage_clash {m stored : Message} (now : Int64)
    (hf : L.find? s.region m.id = some stored) (hm : stored ≠ m) : s.addMessage now m db =
      (.error (if s.codec.maxSize < (Codec.envelope (m.markSaved now)).size then
        .encode (.tooLarge (Codec.envelope (m.markSaved now)).size s.codec.maxSize)
      else .statement .duplicateKey), db) := by
  simp only [addMessage, s.isRedelivery_eq h, hf, Option.some.injEq, decide_eq_false hm,
    Codec.encode_eq]
  by_cases hs : (Codec.envelope (m.markSaved now)).size ≤ s.codec.maxSize
  · have hi := s.insertMessage_eq h (.stamp s.region s.codec now m hs)
    have ht : L.find? s.region (m.markSaved now).id = some stored := hf
    rw [MessageRow.ofKept_stamp, Kept.stamp, ht, Option.isSome_some, if_pos rfl] at hi
    rw [if_neg (by omega), if_neg (by omega)]
    simp only [hi]
  · rw [if_pos (by omega), if_pos (by omega)]

/-- Where none is kept, a message within the limit gets a row behind all others. -/
theorem addMessage_free {m : Message} (now : Int64) (hf : L.find? s.region m.id = none) :
    s.addMessage now m db =
      if s.codec.maxSize < (Codec.envelope (m.markSaved now)).size then
        (.error (.encode (.tooLarge (Codec.envelope (m.markSaved now)).size s.codec.maxSize)), db)
      else (.ok (m.markSaved now), db.put (messageTable s.tablePrefix) (.messages ⟨true,
        L.kept.map .ofKept ++
          [⟨m.id.text, s.region, some now, some (Codec.frame (m.markSaved now))⟩]⟩)) := by
  simp only [addMessage, s.isRedelivery_eq h, hf, reduceCtorEq, decide_false, Codec.encode_eq]
  by_cases hs : (Codec.envelope (m.markSaved now)).size ≤ s.codec.maxSize
  · have hi := s.insertMessage_eq h (.stamp s.region s.codec now m hs)
    have ht : L.find? s.region (m.markSaved now).id = none := hf
    rw [MessageRow.ofKept_stamp, Kept.stamp, ht, Option.isSome_none, if_neg (by decide)] at hi
    rw [if_neg (by omega), if_neg (by omega)]
    simp only [hi]
  · rw [if_pos (by omega), if_pos (by omega)]

theorem getGroup_eq (g : Uuid) : s.getGroup g db = .ok (L.group s.region g) := by
  obtain ⟨t, ht, hl⟩ := h.members
  rw [getGroup, memberTable, ht]
  exact s.assemble_eq hl g

theorem groupKeys_eq : s.groupKeys db = .ok (L.groupKeys s.region) := by
  obtain ⟨t, ht, hl⟩ := h.members
  rw [groupKeys, memberTable, ht]
  show Except.ok (t.groupKeys s.region) = _
  rw [MemberTable.groupKeys, if_pos hl.indexed, hl.rows, List.filter_map, List.map_map]
  rfl

theorem groupCount_eq : s.groupCount db = .ok (L.groupKeys s.region).length := by
  obtain ⟨t, ht, hl⟩ := h.members
  have hk : (t.rows.filter (·.region = s.region)).map (·.groupKey) =
      (L.members.filter (·.region = s.region)).map (·.group.text) := by
    rw [hl.rows, List.filter_map, List.map_map]
    rfl
  rw [groupCount, memberTable, ht]
  show Except.ok (distinct ((t.rows.filter (·.region = s.region)).map (·.groupKey))).length = _
  rw [hk, Ledger.groupKeys, length_sort]

theorem messageCount_eq :
    s.messageCount db = .ok (L.kept.filter (·.region = s.region)).length := by
  rw [messageCount, s.messageRows_eq h]
  show Except.ok
    ((L.kept.map MessageRow.ofKept).filter (·.region = s.region)).length = _
  rw [List.filter_map, List.length_map]
  rfl

end

variable (r : Represents prefixes db W)
include r

/-- Putting the same ledger in its place changes nothing. -/
theorem represents_same : Represents prefixes db (s.putLedger W (s.ledgerIn W)) := by
  rw [putLedger, ledgerIn, Function.update_eq_self]
  exact r

variable (hp : s.tablePrefix ∈ prefixes)
include hp

/-! ### Messages -/

theorem addMessage_steps (now : Int64) (m : Message) :
    Steps Eq (Represents prefixes) (s.addMessage now m db)
      (Backend.putAt (foldName s.tablePrefix) W
        ((s.ledgerIn W).addMessage s.region s.codec now m)) := by
  have h : Holds s.tablePrefix db (s.ledgerIn W) := r _ hp
  have hsame := s.represents_same r
  unfold Ledger.addMessage
  cases hf : (s.ledgerIn W).find? s.region m.id with
  | some stored =>
    simp only
    split
    · rename_i hm
      rw [s.addMessage_known h now (hm ▸ hf)]
      exact ⟨.ok rfl, hsame⟩
    · rename_i hm
      rw [s.addMessage_clash h now hf hm]
      exact ⟨.error, hsame⟩
  | none =>
    rw [s.addMessage_free h now hf]
    by_cases hs : (Codec.envelope (m.markSaved now)).size ≤ s.codec.maxSize
    · have hk := Ledger.kept_keep (k := .stamp s.region s.codec now m hs)
        (Option.map_eq_none_iff.1 hf)
      have r' := r.putMessages hp
        (Ledger.members_keep (s.ledgerIn W) (.stamp s.region s.codec now m hs))
      rw [hk, List.map_append] at r'
      rw [if_neg (by omega)]
      simp only [dif_pos hs]
      exact ⟨.ok rfl, r'⟩
    · rw [if_pos (by omega)]
      simp only [dif_neg hs]
      exact ⟨.error, hsame⟩

theorem removeMessage_steps (id : Uuid) :
    Steps Eq (Represents prefixes) (s.removeMessage id db)
      (((Ledger.backend s.region s.codec).within (foldName s.tablePrefix)).removeMessage id W) := by
  have h : Holds s.tablePrefix db (s.ledgerIn W) := r _ hp
  show Steps Eq _ _ (.ok ((s.ledgerIn W).find? s.region id),
    s.putLedger W ((s.ledgerIn W).discard (·.isAt s.region id)))
  have hget := s.getMessage_eq h id
  cases hf : (s.ledgerIn W).find? s.region id with
  | none =>
    rw [hf] at hget
    have hd : (s.ledgerIn W).discard (·.isAt s.region id) = s.ledgerIn W :=
      Ledger.discard_eq_self fun k hk =>
        Bool.eq_false_iff.2 (List.find?_eq_none.1 (Option.map_eq_none_iff.1 hf) k hk)
    rw [hd, removeMessage, hget]
    exact ⟨.ok rfl, s.represents_same r⟩
  | some m =>
    rw [hf] at hget
    obtain ⟨t, -, _, ht, rfl, -, hremove⟩ := s.removeMessage_of_found hget
    cases ht.symm.trans h.messages
    have hk : ((s.ledgerIn W).kept.map MessageRow.ofKept).filter (fun x => !s.holds id x) =
        ((s.ledgerIn W).discard (·.isAt s.region id)).kept.map .ofKept := by
      rw [List.filter_map]
      congr 2
      funext k
      simp only [Function.comp, s.holds_ofKept]
    rw [hremove]
    simp only [hk]
    exact ⟨.ok rfl, r.putMessages hp rfl⟩

/-! ### Groups -/

/-- A change of the member table that is one of the ledger. -/
theorem updateMembers_eq {f : MemberTable → MemberTable} {F : Ledger → Ledger}
    (hk : ∀ L, (F L).kept = L.kept) (hf : ∀ {t L}, t.Lists L.members → (f t).Lists (F L).members) :
    ∃ db', db.updateMembers s.tablePrefix f = .ok db' ∧
      Represents prefixes db' (s.putLedger W (F (s.ledgerIn W))) := by
  obtain ⟨t, ht, hl⟩ := (r _ hp).members
  refine ⟨_, ?_, r.putMembers hp (hk _) (hf hl)⟩
  rw [Database.updateMembers, ht]

omit r in
theorem reload_steps {db' : Database} {L : Ledger} {x : Except Fault Database} (hx : x = .ok db')
    (r' : Represents prefixes db' (s.putLedger W L)) (g : Uuid) :
    Steps Group.Alike (Represents prefixes) (s.reload g db x)
      (Backend.putAt (foldName s.tablePrefix) W (L.reload s.region g)) := by
  have hL : s.ledgerIn (s.putLedger W L) = L := Function.update_self ..
  have h : Holds s.tablePrefix db' (s.ledgerIn (s.putLedger W L)) := r' _ hp
  rw [hx, reload, s.getGroup_eq h, hL]
  exact ⟨.ok (.refl _), r'⟩

theorem addToGroup_steps (now : Int64) (g : Uuid) (m : Message) :
    Steps Group.Alike (Represents prefixes) (s.addToGroup now g m db)
      (Backend.putAt (foldName s.tablePrefix) W
        ((s.ledgerIn W).addToGroup s.region s.codec now g m)) := by
  have hsame := s.represents_same r
  obtain ⟨t, ht, hl⟩ := (r _ hp).members
  unfold addToGroup Ledger.addToGroup
  rw [Codec.encode_eq]
  by_cases hs : (Codec.envelope m).size ≤ s.codec.maxSize
  · let x : Member := .enrol s.region s.codec now g m hs
    have hi : db.insertMember s.tablePrefix
        ⟨g.text, m.id.text, s.region, some now, some 0, none, some (Codec.frame m)⟩ =
          (t.insert (.ofMember x)).map fun t =>
            db.put (Sql.memberTable s.tablePrefix) (.members t) := by
      rw [Database.insertMember, ht]
      rfl
    rw [if_neg (by omega), dif_pos hs]
    simp only
    split
    · rename_i hd
      rw [hi, hl.insert_taken (m := x) hd]
      exact ⟨.error, hsame⟩
    · rename_i hd
      have hf := Bool.eq_false_iff.2 hd
      have hj : ((s.ledgerIn W).join x).members = (s.ledgerIn W).members ++ [x] :=
        Ledger.members_join hf
      obtain ⟨u, hu, hl'⟩ := hl.insert (m := x) hf
      rw [hu] at hi
      exact s.reload_steps hp hi (r.putMembers hp (Ledger.kept_join _ x) (hj ▸ hl')) g
  · rw [if_pos (by omega), dif_neg hs]
    by_cases hd : (s.ledgerIn W).members.any (·.isAt s.region g m.id)
    · rw [if_pos hd]
      exact ⟨.error, hsame⟩
    · rw [if_neg hd]
      exact ⟨.error, hsame⟩

omit r hp

theorem lists_mark {t : MemberTable} {L : Ledger} (now : Int64) {covers : MemberRow → Bool}
    {covers' : Member → Bool} (hc : ∀ m, covers (.ofMember m) = covers' m)
    (h : t.Lists L.members) : (t.update (mark now covers)).Lists (L.mark now covers').members :=
  h.update (mark_ofMember now hc)

/-- A store in a database refines the ledger of its prefix. -/
theorem refines_ledger (hp : s.tablePrefix ∈ prefixes) : Refines s.backend
    ((Ledger.backend s.region s.codec).within (foldName s.tablePrefix)) (Represents prefixes) where
  addMessage now m := fun r => s.addMessage_steps r hp now m
  getMessage id := fun r => .of_eq (s.getMessage_eq (r _ hp) id) rfl
  removeMessage id := fun r => s.removeMessage_steps r hp id
  messageCount := fun r => .of_eq (s.messageCount_eq (r _ hp)) rfl
  addToGroup now g m := fun r => s.addToGroup_steps r hp now g m
  getGroup g := fun r => .of_eq (s.getGroup_eq (r _ hp) g) (.refl _)
  markGroup now g := fun r => by
    obtain ⟨db', hx, r'⟩ := s.updateMembers_eq r hp (F := (·.mark now (·.isIn s.region g)))
      (fun _ => rfl) (lists_mark now (s.inGroup_ofMember g))
    exact s.reload_steps hp hx r' g
  markMessage now g id := fun r => by
    obtain ⟨db', hx, r'⟩ := s.updateMembers_eq r hp (F := (·.mark now (·.isAt s.region g id)))
      (fun _ => rfl) (lists_mark now (s.isMember_ofMember g id))
    exact s.reload_steps hp hx r' g
  removeFromGroup g id := fun r => by
    obtain ⟨db', hx, r'⟩ := s.updateMembers_eq r hp (F := (·.dismiss (·.isAt s.region g id)))
      (fun _ => rfl) (fun h => h.delete (s.isMember_ofMember g id))
    exact s.reload_steps hp hx r' g
  removeGroup g := fun r => by
    obtain ⟨db', hx, r'⟩ := s.updateMembers_eq r hp (F := (·.dismiss (·.isIn s.region g)))
      (fun _ => rfl) (fun h => h.delete (s.inGroup_ofMember g))
    show Steps Eq _ (s.removeGroup g _) _
    rw [removeGroup, hx]
    exact ⟨.ok rfl, r'⟩
  groupKeys := fun r => .of_eq (s.groupKeys_eq (r _ hp)) rfl
  groupCount := fun r => .of_eq (s.groupCount_eq (r _ hp)) rfl

end Store

/-! ## Sessions -/

/-- Stores on one database. -/
def backends (stores : Nat → Option Store) (i : Nat) : Option (Backend Database Error) :=
  (stores i).map (·.backend)

/-- The ledgers that stores keep. -/
def ledgers (stores : Nat → Option Store) (i : Nat) : Option (Backend Ledgers Ledger.Refusal) :=
  (stores i).map fun s => (Ledger.backend s.region s.codec).within (foldName s.tablePrefix)

section
variable {prefixes : List String} {stores : Nat → Option Store}
  (hp : ∀ i, ∀ s ∈ stores i, s.tablePrefix ∈ prefixes)
include hp

theorem backends_refine_ledgers (i : Nat) : Option.Rel
    (fun b c => Refines b c (Represents prefixes)) (backends stores i) (ledgers stores i) := by
  unfold backends ledgers
  cases hs : stores i with
  | none => exact .none
  | some s => exact .some (s.refines_ledger (hp i s hs))

/-- A session on a new database answers as one on empty ledgers. -/
theorem run_alike_ledgers {db : Database} (h : Database.initialise prefixes = .ok db)
    (clock : Int64) (es : List Event) :
    List.Forall₂ Response.Alike ((Session.start db clock).run (backends stores) es).1
        ((Session.start (fun _ => Ledger.empty) clock).run (ledgers stores) es).1 ∧
      Session.Related (Represents prefixes) ((Session.start db clock).run (backends stores) es).2
        ((Session.start (fun _ => Ledger.empty) clock).run (ledgers stores) es).2 :=
  Session.run_alike (backends_refine_ledgers hp) es ⟨represents_of_initialise h, rfl, rfl⟩

end

end MessageDepot.Sql
