import MessageDepot.Proofs.Confinement
import MessageDepot.Proofs.Iteration

/-!
# Operations of a ledger keep to their group

The places of a ledger are what is kept and the members of each group of each region. A change of
a group is confined to the members of that group, which decide alone what it answers; so two
changes of different groups may come in either order. What is read of a region as a whole, its keys
and their number, depends on all places, but on nothing else.

Results:
* `Ledger.confined_change`: a change of a group is confined to that group.
* `Ledger.groupKeys_congr`: groups with the same members have the same keys.
* `Ledger.confined_within`: one ledger among several, all places taken as one.
-/
namespace MessageDepot

/-! ## One state among several -/

namespace Places

variable {σ κ ι ε α : Type} {P : Places σ κ} {p : κ}

/-- The places of a family of states. -/
def family (P : Places σ κ) (ι : Type) : Places (ι → σ) (ι × κ) where
  Sight := P.Sight
  look p w := P.look p.2 (w p.1)
  Alike := P.Alike
  refl := P.refl

theorem Confined.within [DecidableEq ι] {f : σ → Except ε α × σ} (hf : P.Confined p f) (i : ι) :
    (P.family ι).Confined (i, p) fun w => Backend.putAt i w (f (w i)) where
  answer h := hf.answer h
  state {w w'} h := by
    show P.Alike (P.look p (Function.update w i _ i)) (P.look p (Function.update w' i _ i))
    rw [Function.update_self, Function.update_self]
    exact hf.state h
  elsewhere {q w} hq := by
    obtain ⟨j, q⟩ := q
    show P.look q (Function.update w i _ j) = P.look q (w j)
    by_cases hj : j = i
    · subst hj
      rw [Function.update_self]
      exact hf.elsewhere fun h => hq (by rw [h])
    · rw [Function.update_of_ne hj]

theorem Reads.within {f : σ → α} (hf : P.whole.Reads () f) (i : ι) :
    (P.family ι).whole.Reads () fun w => f (w i) :=
  fun w w' h => hf (w i) (w' i) fun p => h (i, p)

end Places

/-- The group that a request changes, whether it answers it or not. -/
def Request.alters? : Request → Option Uuid
  | .addToGroup key _ | .markMessage key _ | .removeFromGroup key _ | .removeGroup key =>
    some key.identifier
  | .markGroup g => some g.id
  | _ => none

namespace Ledger

/-! ## Places of a ledger -/

/-- What is kept, and the members of a group of a region. -/
def places : Places Ledger (Option (String × Uuid)) where
  Sight := List Kept × List Member
  look p L := p.elim (L.kept, []) fun p => ([], L.roll p.1 p.2)
  Alike := Eq
  refl _ := rfl

variable {α : Type} {region : String} {g : Uuid} {F : Ledger → Ledger}

theorem reads_kept {f : Ledger → α} (h : ∀ L L' : Ledger, L.kept = L'.kept → f L = f L') :
    places.Reads none f :=
  fun L L' hs => h L L' (congrArg Prod.fst hs)

theorem reads_roll {f : Ledger → α}
    (h : ∀ L L' : Ledger, L.roll region g = L'.roll region g → f L = f L') :
    places.Reads (some (region, g)) f :=
  fun L L' hs => h L L' (congrArg Prod.snd hs)

theorem confined_kept (hkept : ∀ L L' : Ledger, L.kept = L'.kept → (F L).kept = (F L').kept)
    (hmembers : ∀ L, (F L).members = L.members) (a : α) :
    places.Confined none fun L => (a, F L) where
  answer _ := rfl
  state {L L'} hs := by
    have hk : (F L).kept = (F L').kept := hkept L L' (congrArg Prod.fst hs)
    show ((F L).kept, ([] : List Member)) = ((F L').kept, [])
    rw [hk]
  elsewhere {q L} hq := by
    cases q with
    | none => exact absurd rfl hq
    | some p =>
      show (([] : List Kept), (F L).roll p.1 p.2) = ([], L.roll p.1 p.2)
      rw [roll, hmembers]
      rfl

/-- A change of a ledger that concerns the members of one group. -/
structure ChangesGroup (region : String) (g : Uuid) (F : Ledger → Ledger) : Prop where
  kept : ∀ L, (F L).kept = L.kept
  own : ∀ L L' : Ledger, L.roll region g = L'.roll region g →
    (F L).roll region g = (F L').roll region g
  others : ∀ {region' g'} (L : Ledger), ¬(region' = region ∧ g' = g) →
    (F L).roll region' g' = L.roll region' g'

theorem isIn_of_isAt {id : Uuid} {m : Member} (h : m.isAt region g id = true) :
    m.isIn region g = true :=
  (Bool.and_eq_true_iff.1 h).1

theorem changesGroup_mark {now : Int64} {covers : Member → Bool}
    (h : ∀ m, covers m = true → m.isIn region g = true) :
    ChangesGroup region g (·.mark now covers) where
  kept _ := rfl
  own L L' hs := by rw [roll_mark, roll_mark, hs]
  others {region' g'} L hne := by
    rw [roll_mark]
    refine (List.map_congr_left fun m hm => ?_).trans (List.map_id _)
    have hc : covers m = false := by
      cases hc : covers m with
      | false => rfl
      | true => exact absurd (h m hc) (by simp [isIn_eq_false hm hne])
    simp [Member.mark, hc]

theorem changesGroup_dismiss {gone : Member → Bool}
    (h : ∀ m, gone m = true → m.isIn region g = true) :
    ChangesGroup region g (·.dismiss gone) where
  kept _ := rfl
  own L L' hs := by rw [roll_dismiss_eq_filter, roll_dismiss_eq_filter, hs]
  others {region' g'} L hne := by
    rw [roll_dismiss_eq_filter, List.filter_eq_self]
    intro m hm
    cases hgone : gone m with
    | false => rfl
    | true => exact absurd (h m hgone) (by simp [isIn_eq_false hm hne])

/-- Only a member of its group can take the place of a new member. -/
theorem members_apart_iff {L : Ledger} {m : Member} :
    (∀ x ∈ L.members, x.Apart m) ↔ ∀ x ∈ L.roll m.region m.group, x.Apart m := by
  constructor
  · intro h x hx
    exact h x (List.mem_filter.1 hx).1
  · intro h x hx hclash
    refine h x (List.mem_filter.2 ⟨hx, ?_⟩) hclash
    simp [Member.isIn, hclash.1, hclash.2.1]

theorem roll_join (region : String) (g : Uuid) (m : Member) (L : Ledger) :
    (L.join m).roll region g = if ∀ x ∈ L.roll m.region m.group, x.Apart m then
      L.roll region g ++ [m].filter (·.isIn region g) else L.roll region g := by
  unfold join
  split
  · rename_i h
    rw [if_pos (members_apart_iff.1 h), roll, List.filter_append]
    rfl
  · rename_i h
    rw [if_neg fun h' => h (members_apart_iff.2 h')]

theorem changesGroup_join (m : Member) : ChangesGroup m.region m.group (·.join m) where
  kept L := kept_join L m
  own L L' hs := by rw [roll_join, roll_join, hs]
  others {region' g'} L hne := by
    have hin : m.isIn region' g' = false := by
      simp only [Member.isIn, Bool.and_eq_false_iff, decide_eq_false_iff_not]
      by_contra hboth
      simp only [not_or, not_not] at hboth
      exact hne ⟨hboth.1.symm, hboth.2.symm⟩
    rw [roll_join, List.filter_singleton, hin]
    simp

theorem ChangesGroup.confined (h : ChangesGroup region g F) (a : α) :
    places.Confined (some (region, g)) fun L => (a, F L) where
  answer _ := rfl
  state {L L'} hs := by
    have hr : (F L).roll region g = (F L').roll region g := h.own L L' (congrArg Prod.snd hs)
    show (([] : List Kept), (F L).roll region g) = ([], (F L').roll region g)
    rw [hr]
  elsewhere {q L} hq := by
    cases q with
    | none =>
      show ((F L).kept, ([] : List Member)) = (L.kept, [])
      rw [h.kept]
    | some p =>
      show (([] : List Kept), (F L).roll p.1 p.2) = ([], L.roll p.1 p.2)
      rw [h.others L fun he => hq (by rw [← he.1, ← he.2])]

/-! ## Operations -/

theorem reads_group (region : String) (g : Uuid) :
    places.Reads (some (region, g)) fun L => L.group region g :=
  reads_roll fun L L' hs => by simp only [group, hs]

theorem ChangesGroup.reload (h : ChangesGroup region g F) :
    places.Confined (some (region, g)) fun L => (F L).reload region g :=
  (h.confined ()).bind fun _ => ((reads_group region g).map Except.ok).confined

theorem confined_addToGroup (region : String) (codec : Codec) (now : Int64) (g : Uuid)
    (m : Message) : places.Confined (some (region, g)) (addToGroup region codec now g m) := by
  have htaken : places.Reads (some (region, g)) fun L =>
      L.members.any (·.isAt region g m.id) := reads_roll fun L L' hs => by
    have hroll (L : Ledger) : L.members.any (·.isAt region g m.id) =
        (L.roll region g).any (·.message.id = m.id) := List.any_filter.symm
    rw [hroll, hroll, hs]
  refine htaken.cases fun taken => ?_
  cases taken with
  | true => exact ⟨_, .pure (.error .duplicate), fun L hL => by simp [addToGroup, hL]⟩
  | false =>
    by_cases hsize : (Codec.envelope m).size ≤ codec.maxSize
    · exact ⟨_, (changesGroup_join (.enrol region codec now g m hsize)).reload, fun L hL => by
        simp only [addToGroup, hL, Bool.false_eq_true, if_false, dif_pos hsize]
        rfl⟩
    · exact ⟨_, .pure (.error .tooLarge), fun L hL => by simp [addToGroup, hL, hsize]⟩

/-- A change of a group is confined to its members. -/
theorem confined_change (codec : Codec) (now : Int64) {q : Request} (hq : q.alters? = some g) :
    places.Confined (some (region, g)) ((backend region codec).perform now q) := by
  cases q with
  | addToGroup key m =>
    cases hq
    exact (confined_addToGroup region codec now _ m).map _
  | markGroup G =>
    cases hq
    exact (changesGroup_mark fun _ h => h).reload.map _
  | markMessage key m =>
    cases hq
    exact (changesGroup_mark fun _ => isIn_of_isAt).reload.map _
  | removeFromGroup key m =>
    cases hq
    exact (changesGroup_dismiss fun _ => isIn_of_isAt).reload.map _
  | removeGroup key =>
    cases hq
    exact ((changesGroup_dismiss fun _ h => h).confined _).map _
  | _ => cases hq

theorem kept_keep_eq (k : Kept) (L : Ledger) :
    (L.keep k).kept = if ∀ x ∈ L.kept, x.Apart k then L.kept ++ [k] else L.kept := by
  unfold keep
  split <;> rfl

theorem reads_find? (region : String) (id : Uuid) : places.Reads none (find? region id) :=
  reads_kept fun L L' hs => by simp only [find?, hs]

theorem confined_addMessage (region : String) (codec : Codec) (now : Int64) (m : Message) :
    places.Confined none (addMessage region codec now m) := by
  refine (reads_find? region m.id).cases fun x => ?_
  cases x with
  | some stored =>
    refine ⟨_, .pure (if stored = m then .ok m else .error .duplicate), fun L hL => ?_⟩
    simp only [addMessage, hL]
    split <;> rfl
  | none =>
    by_cases hsize : (Codec.envelope (m.markSaved now)).size ≤ codec.maxSize
    · let k : Kept := .stamp region codec now m hsize
      have hkeep : ∀ L L' : Ledger, L.kept = L'.kept → (L.keep k).kept = (L'.keep k).kept :=
        fun L L' hs => by rw [kept_keep_eq, kept_keep_eq, hs]
      exact ⟨_, confined_kept hkeep (members_keep · k) (.ok (m.markSaved now)), fun L hL => by
        simp only [addMessage, hL, dif_pos hsize, k]⟩
    · exact ⟨_, .pure (.error .tooLarge), fun L hL => by simp [addMessage, hL, hsize]⟩

theorem confined_removeMessage (region : String) (id : Uuid) :
    places.Confined none fun L => ((.ok (L.find? region id) : Except Refusal _),
      L.discard (·.isAt region id)) :=
  ((reads_find? region id).map Except.ok).bind fun a =>
    confined_kept (F := (·.discard (·.isAt region id)))
      (fun L L' hs => by simp only [discard, hs]) (fun L => rfl) a

theorem reads_messageCount (region : String) (codec : Codec) :
    places.Reads none (backend region codec).messageCount :=
  reads_kept fun L L' hs => by
    show Except.ok (L.kept.filter (·.region = region)).length = Except.ok _
    rw [hs]

/-- The keys of a region are in order, each once, so their groups having members tells them. -/
theorem groupKeys_congr {L L' : Ledger} (h : ∀ g, L.roll region g = L'.roll region g) :
    L.groupKeys region = L'.groupKeys region := by
  have hnodup (L : Ledger) : (L.groupKeys region).Nodup :=
    (sort_perm _ _).nodup_iff.2 (nodup_distinct _)
  have hsorted (L : Ledger) : (L.groupKeys region).Pairwise fun a b => decide (a ≤ b) = true :=
    pairwise_sort (fun a b => by simpa using String.le_total a b)
      (fun a b c hab hbc => by
        simpa using String.le_trans (by simpa using hab) (by simpa using hbc)) _
  have hperm : (L.groupKeys region).Perm (L'.groupKeys region) := by
    refine (List.perm_ext_iff_of_nodup (hnodup L) (hnodup L')).2 fun key => ?_
    simp only [mem_groupKeys, h]
  refine hperm.eq_of_pairwise (fun a b _ _ hab hba => ?_) (hsorted L) (hsorted L')
  exact String.le_antisymm (of_decide_eq_true hab) (of_decide_eq_true hba)

theorem reads_groupKeys (region : String) : places.whole.Reads () (groupKeys region) :=
  fun _ _ hs => groupKeys_congr fun g => congrArg Prod.snd (hs (some (region, g)))

/-- A ledger of several, under the places of all of them. -/
theorem confined_within {ι : Type} [DecidableEq ι] (i : ι) (region : String) (codec : Codec) :
    ((backend region codec).within i).Confined (places.family ι).whole fun _ => () where
  addMessage now m := ((confined_addMessage region codec now m).within i).whole
  getMessage id := Places.Reads.within ((reads_find? region id).map Except.ok).whole i
  removeMessage id := ((confined_removeMessage region id).within i).whole
  messageCount := Places.Reads.within (reads_messageCount region codec).whole i
  addToGroup now g m := ((confined_addToGroup region codec now g m).within i).whole
  getGroup g := Places.Reads.within ((reads_group region g).map Except.ok).whole i
  markGroup _ _ := ((changesGroup_mark fun _ h => h).reload.within i).whole
  markMessage _ _ _ :=
    ((changesGroup_mark fun _ => isIn_of_isAt).reload.within i).whole
  removeFromGroup _ _ :=
    ((changesGroup_dismiss fun _ => isIn_of_isAt).reload.within i).whole
  removeGroup _ := (((changesGroup_dismiss fun _ h => h).confined _).within i).whole
  groupKeys := Places.Reads.within ((reads_groupKeys region).map Except.ok) i
  groupCount :=
    Places.Reads.within ((reads_groupKeys region).map fun keys => Except.ok keys.length) i

end Ledger

end MessageDepot
