import MessageDepot.Proofs.Confinement
import MessageDepot.Proofs.Iteration

/-!
# Expiry

A pass of expiry removes groups from the very tables whose keys it has taken before. The removal of
a group empties that group and leaves the loads of all others as they were (`Backend.Removes`), so
what the pass finds is what was there when it began: by induction on what is found of the keys
(`Backend.Scans`) it gives the expired ones of the groups of that moment and leaves the tables
without their rows. In tables that only stores have written to, every group is found
(`Backend.Clears`), and what is left has not expired, at no shorter timeout.

Results:
* `expiryCutoff_anti`: a longer timeout has no later cutoff.
* `Backend.Removes.expireKeys_clear`: what a pass does where some groups cannot be loaded.
* `Backend.Clears.expireKeys_eq`: what a pass gives and leaves where all can.
* `Memory.Store.getGroup_removeGroup`, `Sql.Store.getGroup_removeGroup`: loads after a removal.
* `Depot.expire_of_reachable`: expiry in every state that a session reaches.
-/
namespace MessageDepot

/-! ## Cutoffs -/

/-- The whole timeout in nanoseconds. -/
def Timeout.total (t : Timeout) : Nat := t.seconds.toNat * 1000000000 + t.nanos

theorem Timeout.millis_eq (t : Timeout) : t.millis = t.total / 1000000 := by
  have h : t.total = t.nanos + t.seconds.toNat * 1000 * 1000000 := by
    rw [total, Nat.mul_assoc, Nat.add_comm]
  rw [h, Nat.add_mul_div_right _ _ (by decide), millis, Nat.add_comm]

theorem toInt_ofIntClamp (i : Int) : (Int64.ofIntClamp i).toInt =
    max Int64.minValue.toInt (min i Int64.maxValue.toInt) := by
  unfold Int64.ofIntClamp
  have hle : Int64.minValue.toInt ≤ Int64.maxValue.toInt := by decide
  split
  · split
    · rw [Int64.toInt_ofIntLE]
      omega
    · omega
  · omega

theorem ofIntClamp_mono {i j : Int} (h : i ≤ j) : Int64.ofIntClamp i ≤ Int64.ofIntClamp j := by
  rw [Int64.le_iff_toInt_le, toInt_ofIntClamp, toInt_ofIntClamp]
  omega

/-- What has expired under a longer timeout has expired under a shorter one. -/
theorem expiryCutoff_anti (now : Int64) {t u : Timeout} (h : t.total ≤ u.total) :
    expiryCutoff now u ≤ expiryCutoff now t := by
  have hmillis : (t.millis : Int) ≤ u.millis := by
    rw [t.millis_eq, u.millis_eq]
    exact Int.ofNat_le.2 (Nat.div_le_div_right h)
  have hclamped := Int64.le_iff_toInt_le.1 (ofIntClamp_mono hmillis)
  exact ofIntClamp_mono (by omega)

/-! ## Passes of expiry -/

namespace Backend

variable {σ ε : Type} {B : Backend σ ε} {I : σ → Prop}

/-- In states of some kind a removal succeeds, empties its group and leaves the loads of all others
as they were. -/
structure Removes (B : Backend σ ε) (I : σ → Prop) : Prop where
  load_id : ∀ {s}, I s → ∀ {g G}, B.getGroup g s = .ok G → G.id = g
  remove : ∀ {s}, I s → ∀ g, ∃ s', B.removeGroup g s = (.ok (), s') ∧ I s' ∧
    ∀ h, B.getGroup h s' = if h = g then .ok (Group.empty g) else B.getGroup h s

/-- In states of some kind every group is loaded, and a removal succeeds, empties its group and
leaves the loads of all others as they were. -/
structure Clears (B : Backend σ ε) (I : σ → Prop) : Prop where
  load : ∀ {s}, I s → ∀ g, ∃ G, B.getGroup g s = .ok G ∧ G.id = g
  remove : ∀ {s}, I s → ∀ g, ∃ s', B.removeGroup g s = (.ok (), s') ∧ I s' ∧
    ∀ h, B.getGroup h s' = if h = g then .ok (Group.empty g) else B.getGroup h s

/-- The state after some groups have been removed. -/
def clear (B : Backend σ ε) (gs : List Uuid) (s : σ) : σ :=
  gs.foldl (fun s g => (B.removeGroup g s).2) s

/-- What is found of some keys in one state: the groups of the keys in front of the first one that
cannot be loaded, and the error of that one. -/
inductive Scans (B : Backend σ ε) (s : σ) : List String → List Group → Option ε → Prop where
  | done : Scans B s [] [] none
  | fails {key : String} {keys : List String} {e : ε} (fails : B.loadKey key s = .error e) :
    Scans B s (key :: keys) [] (some e)
  | loads {key : String} {keys : List String} {G : Group} {Gs : List Group} {failure : Option ε}
    (loads : B.loadKey key s = .ok G) (rest : Scans B s keys Gs failure) :
    Scans B s (key :: keys) (G :: Gs) failure

theorem isExpired_eq_false_of_le {c c' : Int64} (h : c' ≤ c) {g : Group}
    (hg : isExpired c g = false) : isExpired c' g = false := by
  unfold isExpired at hg ⊢
  cases ht : g.timestamp with
  | none => rfl
  | some t =>
    simp only [ht, Option.any_some, decide_eq_false_iff_not, Int64.not_lt] at hg ⊢
    exact Int64.le_trans h hg

theorem exists_scans (B : Backend σ ε) (s : σ) : ∀ keys, ∃ Gs failure, B.Scans s keys Gs failure
  | [] => ⟨[], none, .done⟩
  | key :: keys => by
    cases hload : B.loadKey key s with
    | error e => exact ⟨[], some e, .fails hload⟩
    | ok G =>
      obtain ⟨Gs, failure, hrest⟩ := exists_scans B s keys
      exact ⟨G :: Gs, failure, .loads hload hrest⟩

theorem scans_of_getGroup {s : σ} : ∀ {Gs : List Group}, (∀ G ∈ Gs, B.getGroup G.id s = .ok G) →
    B.Scans s (Gs.map (·.id.text)) Gs none
  | [], _ => .done
  | G :: Gs, hload => by
    have hG : B.loadKey G.id.text s = .ok G := by
      rw [loadKey, Key.identifier_text]
      exact hload G (by simp)
    exact .loads hG (scans_of_getGroup fun H hH => hload H (by simp [hH]))

/-- The expired ones of some groups, each once, but for those of some identifiers. -/
def due (cutoff : Int64) (gs : List Uuid) (Gs : List Group) : List Group :=
  (distinct (Gs.filter (isExpired cutoff))).filter (·.id ∉ gs)

section
variable {cutoff : Int64} {gs : List Uuid} {G : Group} {Gs : List Group}

theorem due_cons_fresh (hexpired : isExpired cutoff G = false) :
    due cutoff gs (G :: Gs) = due cutoff gs Gs := by
  rw [due, List.filter_cons, hexpired]
  rfl

theorem due_cons_removed (hgone : G.id ∈ gs) : due cutoff gs (G :: Gs) = due cutoff gs Gs := by
  cases hexpired : isExpired cutoff G with
  | false => exact due_cons_fresh hexpired
  | true =>
    rw [due, due, List.filter_cons, if_pos hexpired, distinct, List.filter_cons, List.filter_filter]
    rw [if_neg (by simpa using hgone)]
    refine List.filter_congr fun H _ => ?_
    by_cases hH : H.id ∈ gs
    · simp [hH]
    · have hne : H ≠ G := fun he => hH (he ▸ hgone)
      simp [hH, hne]

/-- An expired group goes first, and its identifier is done with. -/
theorem due_cons_expired (hgone : G.id ∉ gs) (hexpired : isExpired cutoff G = true)
    (hsame : ∀ H ∈ Gs, H.id = G.id → H = G) :
    due cutoff gs (G :: Gs) = G :: due cutoff (gs ++ [G.id]) Gs := by
  rw [due, due, List.filter_cons, if_pos hexpired, distinct, List.filter_cons,
    if_pos (by simpa using hgone), List.filter_filter]
  refine congrArg (G :: ·) (List.filter_congr fun H hH => ?_)
  have hmem : H ∈ Gs := (List.mem_filter.1 (mem_distinct.1 hH)).1
  by_cases hne : H = G
  · simp [hne]
  · have hid : H.id ≠ G.id := fun he => hne (hsame H hmem he)
    simp [hne, hid]

end

namespace Removes

variable (h : B.Removes I)
include h

theorem clear_keeps (gs : List Uuid) : ∀ {s}, I s → I (B.clear gs s) := by
  induction gs with
  | nil => intro s hs; exact hs
  | cons g gs ih =>
    intro s hs
    obtain ⟨s', hr, hs', -⟩ := h.remove hs g
    rw [clear, List.foldl_cons, hr]
    exact ih hs'

theorem getGroup_clear (gs : List Uuid) (g : Uuid) : ∀ {s}, I s → B.getGroup g (B.clear gs s) =
    if g ∈ gs then .ok (Group.empty g) else B.getGroup g s := by
  induction gs with
  | nil => intro s _; simp [clear]
  | cons x gs ih =>
    intro s hs
    obtain ⟨s', hr, hs', hget⟩ := h.remove hs x
    rw [clear, List.foldl_cons, hr]
    have hrest := ih hs'
    rw [clear] at hrest
    simp only [hrest, hget, List.mem_cons]
    by_cases hg : g ∈ gs
    · simp [hg]
    · by_cases hx : g = x
      · simp [hx]
      · simp [hg, hx]

theorem getGroup_of_scans {s : σ} (hs : I s) {keys : List String} {Gs : List Group}
    {failure : Option ε} (hscan : B.Scans s keys Gs failure) :
    ∀ G ∈ Gs, B.getGroup G.id s = .ok G := by
  induction hscan with
  | done => simp
  | fails => simp
  | @loads key _ G Gs _ hload _ ih =>
    intro H hH
    rcases List.mem_cons.1 hH with rfl | hH
    · rw [h.load_id hs hload]
      exact hload
    · exact ih H hH

/-- A pass over some keys, after groups have been removed already: it gives and removes what is due
of what was found before any was removed. -/
theorem expireKeys_clear (cutoff : Int64) {s : σ} (hs : I s) {keys : List String} {Gs : List Group}
    {failure : Option ε} (hscan : B.Scans s keys Gs failure) : ∀ gs : List Uuid,
      (∀ g ∈ gs, ∃ G, B.getGroup g s = .ok G) → B.expireKeys cutoff keys (B.clear gs s) =
        (failure.elim (.ok (due cutoff gs Gs)) .error,
          B.clear (gs ++ (due cutoff gs Gs).map (·.id)) s) := by
  induction hscan with
  | done =>
    intro gs _
    simp [due, distinct, expireKeys]
  | @fails key keys e hfails =>
    intro gs hgs
    -- what has been removed could be loaded, so this key is none of it
    have hnot : (Key.text key).identifier ∉ gs := by
      intro hmem
      obtain ⟨G, hG⟩ := hgs _ hmem
      cases hfails.symm.trans hG
    have hload : B.loadKey key (B.clear gs s) = .error e := by
      rw [loadKey, h.getGroup_clear gs _ hs, if_neg hnot]
      exact hfails
    rw [expireKeys_cons, hload]
    simp [due, distinct, expireLoaded]
  | @loads key keys G Gs failure hload hrest ih =>
    intro gs hgs
    have hid : G.id = (Key.text key).identifier := h.load_id hs hload
    have hnow : B.loadKey key (B.clear gs s) =
        if G.id ∈ gs then .ok (Group.empty G.id) else .ok G := by
      rw [hid, loadKey, h.getGroup_clear gs _ hs]
      split
      · rfl
      · exact hload
    rw [expireKeys_cons, hnow]
    by_cases hgone : G.id ∈ gs
    · -- its rows went under another key of the same identifier
      rw [if_pos hgone, due_cons_removed hgone]
      exact ih gs hgs
    · rw [if_neg hgone]
      cases hexpired : isExpired cutoff G with
      | false =>
        rw [due_cons_fresh hexpired, expireLoaded, hexpired]
        exact ih gs hgs
      | true =>
        have hsame : ∀ H ∈ Gs, H.id = G.id → H = G := by
          intro H hH he
          have hG := h.getGroup_of_scans hs (.loads hload hrest) G (by simp)
          have hH := h.getGroup_of_scans hs hrest H hH
          rw [he] at hH
          exact Except.ok.inj (hH.symm.trans hG)
        have hgs' : ∀ g ∈ gs ++ [G.id], ∃ G, B.getGroup g s = .ok G := by
          intro g hg
          rcases List.mem_append.1 hg with hg | hg
          · exact hgs g hg
          · rw [List.mem_singleton.1 hg]
            exact ⟨G, h.getGroup_of_scans hs (.loads hload hrest) G (by simp)⟩
        obtain ⟨s', hr, -, -⟩ := h.remove (h.clear_keeps gs hs) G.id
        have hs' : s' = B.clear (gs ++ [G.id]) s := by
          simp only [clear, List.foldl_append, List.foldl_cons, List.foldl_nil] at hr ⊢
          rw [hr]
        rw [due_cons_expired hgone hexpired hsame, expireLoaded, hexpired, if_pos rfl, hr, hs']
        simp only [expireRemoved, ih _ hgs', List.map_cons, List.append_assoc,
          List.singleton_append]
        cases failure <;> rfl

end Removes

namespace Clears

variable (h : B.Clears I)
include h

theorem removes : B.Removes I where
  load_id := by
    intro s hs g G hG
    obtain ⟨H, hH, hid⟩ := h.load hs g
    obtain rfl : H = G := Except.ok.inj (hH.symm.trans hG)
    exact hid
  remove := h.remove

theorem clear_keeps (gs : List Uuid) {s : σ} (hs : I s) : I (B.clear gs s) :=
  h.removes.clear_keeps gs hs

theorem getGroup_clear (gs : List Uuid) (g : Uuid) {s : σ} (hs : I s) :
    B.getGroup g (B.clear gs s) = if g ∈ gs then .ok (Group.empty g) else B.getGroup g s :=
  h.removes.getGroup_clear gs g hs

/-- A pass gives the expired ones of the groups that were there when it began, and removes just
these. -/
theorem expireKeys_eq (cutoff : Int64) (Gs : List Group) {s : σ} (hs : I s)
    (hnodup : (Gs.map (·.id)).Nodup) (hload : ∀ G ∈ Gs, B.getGroup G.id s = .ok G) :
    B.expireKeys cutoff (Gs.map (·.id.text)) s = (.ok (Gs.filter (isExpired cutoff)),
      B.clear ((Gs.filter (isExpired cutoff)).map (·.id)) s) := by
  have hpass := h.removes.expireKeys_clear cutoff hs (scans_of_getGroup hload) [] (by simp)
  have hgroups : Gs.Nodup := (List.pairwise_map.1 hnodup).imp fun hid he => hid (congrArg _ he)
  have hdue : due cutoff [] Gs = Gs.filter (isExpired cutoff) := by
    rw [due, distinct_of_nodup (hgroups.filter _)]
    simp
  rw [hdue] at hpass
  exact hpass

end Clears

end Backend

/-! ## Stores in memory -/

namespace Memory.Store

variable (s : Store)

theorem inGroup_eq_false {g h : Uuid} (hne : h ≠ g) {r : MemberRow} (hr : s.inGroup h r = true) :
    s.inGroup g r = false := by
  simp only [inGroup, Bool.and_eq_true, decide_eq_true_eq] at hr
  simp [inGroup, hr, hne]

/-- What is found of a group after the rows of another, or its own, are gone. -/
theorem filter_removeGroup (g h : Uuid) (t : Tables) :
    (s.removeGroup g t).members.filter (s.inGroup h) =
      if h = g then [] else t.members.filter (s.inGroup h) := by
  rw [removeGroup]
  split
  · rename_i he
    subst he
    simp [List.filter_filter]
  · rename_i hne
    exact filter_not_of_apart (fun _ => s.inGroup_eq_false hne) _

theorem getGroup_removeGroup (g h : Uuid) (t : Tables) : s.getGroup h (s.removeGroup g t) =
    if h = g then .ok (Group.empty g) else s.getGroup h t := by
  unfold getGroup
  rw [s.filter_removeGroup]
  by_cases he : h = g
  · simp only [he]
    rfl
  · simp only [if_neg he]

/-- The tables without the rows of some groups. -/
def without (gs : List Uuid) (t : Tables) : Tables :=
  { t with members := t.members.filter fun r => !gs.any (s.inGroup · r) }

theorem clear_eq (gs : List Uuid) : ∀ t, s.backend.clear gs t = s.without gs t := by
  induction gs with
  | nil => intro t; simp [Backend.clear, without]
  | cons g gs ih =>
    intro t
    have hg : s.backend.clear (g :: gs) t = s.backend.clear gs (s.removeGroup g t) := rfl
    simp only [hg, ih, without, removeGroup, List.filter_filter, List.any_cons, Bool.not_or,
      Bool.and_comm]

end Memory.Store

/-! ## Stores in a database -/

namespace Sql.Store

variable (s : Store)

theorem inGroup_eq_false {g h : Uuid} (hne : h ≠ g) {r : MemberRow} (hr : s.inGroup h r = true) :
    s.inGroup g r = false := by
  simp only [inGroup, Bool.and_eq_true, decide_eq_true_eq] at hr
  simp [inGroup, hr, hne]

/-- Loading looks at the rows of its group only. -/
theorem assemble_congr {g : Uuid} {t u : MemberTable}
    (h : t.entries.filter (fun e => s.inGroup g e.2) = u.entries.filter fun e => s.inGroup g e.2) :
    s.assemble g t = s.assemble g u := by
  have hrows (t : MemberTable) :
      t.rows.filter (s.inGroup g) = (t.entries.filter fun e => s.inGroup g e.2).map (·.2) := by
    rw [MemberTable.rows, List.filter_map]
    rfl
  have hmarked (t : MemberTable) : s.markedRows g t =
      (t.rows.filter (s.inGroup g)).filter (·.marked = some 1) := by
    rw [markedRows, List.filter_filter]
    simp only [Bool.and_comm]
  have hunmarked (t : MemberTable) :
      (t.entries.filter fun e => s.inGroup g e.2 && e.2.marked = some 0) =
        (t.entries.filter fun e => s.inGroup g e.2).filter (·.2.marked = some 0) := by
    rw [List.filter_filter]
    simp only [Bool.and_comm]
  unfold assemble unmarkedRows oldest?
  simp only [hmarked, hunmarked, hrows, h]

theorem assemble_delete {g h : Uuid} (t : MemberTable) : s.assemble h (t.delete (s.inGroup g)) =
    if h = g then .ok (Group.empty g) else s.assemble h t := by
  have hfilter : (t.delete (s.inGroup g)).entries.filter (fun e => s.inGroup h e.2) =
      if h = g then [] else t.entries.filter fun e => s.inGroup h e.2 := by
    rw [MemberTable.delete]
    split
    · rename_i he
      subst he
      simp [List.filter_filter]
    · rename_i hne
      exact filter_not_of_apart (fun _ => s.inGroup_eq_false hne) _
  split
  · rename_i he
    rw [if_pos he] at hfilter
    rw [s.assemble_congr (u := ⟨t.keyed, t.indexed, []⟩) hfilter, he]
    rfl
  · rename_i hne
    rw [if_neg hne] at hfilter
    exact s.assemble_congr hfilter

theorem removeGroup_of_table {db : Database} {t : MemberTable}
    (ht : db.members? s.tablePrefix = some t) (g : Uuid) : s.removeGroup g db =
      (.ok (), db.put (Sql.memberTable s.tablePrefix) (.members (t.delete (s.inGroup g)))) := by
  simp only [removeGroup, Database.updateMembers, ht]

theorem getGroup_removeGroup {g : Uuid} {db db' : Database}
    (hr : s.removeGroup g db = (.ok (), db')) (h : Uuid) :
    s.getGroup h db' = if h = g then .ok (Group.empty g) else s.getGroup h db := by
  unfold removeGroup Database.updateMembers at hr
  cases ht : db.members? s.tablePrefix with
  | none => simp only [ht] at hr; cases hr
  | some t =>
    simp only [ht, Prod.mk.injEq, true_and] at hr
    subst hr
    rw [getGroup, memberTable, Database.members?_putMembers ht, if_pos rfl, getGroup, memberTable,
      ht]
    exact s.assemble_delete t

/-- The second database is the first without the rows of some groups, all other rows under their
numbers. -/
structure LeavesOut (gs : List Uuid) (db db' : Database) : Prop where
  messages : ∀ p, db'.messages? p = db.messages? p
  members : ∃ t, db.members? s.tablePrefix = some t ∧ ∀ p, db'.members? p =
    if foldName p = foldName s.tablePrefix then some (t.delete fun r => gs.any (s.inGroup · r))
    else db.members? p

theorem leavesOut_clear (gs : List Uuid) : ∀ {db : Database} {t : MemberTable},
    db.members? s.tablePrefix = some t → s.LeavesOut gs db (s.backend.clear gs db) := by
  induction gs with
  | nil =>
    intro db t ht
    refine ⟨fun _ => rfl, t, ht, fun p => ?_⟩
    split
    · rename_i hp
      have hall : t.delete (fun r => ([] : List Uuid).any (s.inGroup · r)) = t := by
        simp [MemberTable.delete]
      rw [hall, ← ht, Database.members?, Database.members?, memberTable_inj.2 hp]
      rfl
    · rfl
  | cons g gs ih =>
    intro db t ht
    let db' := db.put (Sql.memberTable s.tablePrefix) (.members (t.delete (s.inGroup g)))
    have hg : s.backend.clear (g :: gs) db = s.backend.clear gs db' := by
      rw [Backend.clear, List.foldl_cons]
      show s.backend.clear gs (s.removeGroup g db).2 = _
      rw [s.removeGroup_of_table ht]
    have ht' : db'.members? s.tablePrefix = some (t.delete (s.inGroup g)) := by
      rw [Database.members?_putMembers ht, if_pos rfl]
    obtain ⟨hmessages, u, hu, hmembers⟩ := ih ht'
    obtain rfl : t.delete (s.inGroup g) = u := Option.some.inj (ht'.symm.trans hu)
    rw [hg]
    refine ⟨fun p => (hmessages p).trans (Database.messages?_putMembers _), t, ht, fun p => ?_⟩
    rw [hmembers, Database.members?_putMembers ht]
    split
    · simp [MemberTable.delete, List.filter_filter, Bool.and_comm]
    · rfl

end Sql.Store

/-! ## Depots -/

namespace Depot

/-- The second tables are the first without the rows that a store's region has of some groups. -/
def LeavesOut : (D : Depot) → Nat → List Uuid → D.State → D.State → Prop
  | memory stores, i, gs, t, t' => ∃ s ∈ stores i,
    t' = { t with members := t.members.filter fun r => !gs.any (s.inGroup · r) }
  | database stores, i, gs, db, db' => ∃ s ∈ stores i, s.LeavesOut gs db db'

variable {D : Depot} {i : Nat} {v : View} {B : Backend D.State D.Failure}
  {R : D.State → Sql.Ledgers → Prop}

theorem getGroup_removeGroup (hB : D.backends i = some B) {g : Uuid} {s s' : D.State}
    (hr : B.removeGroup g s = (.ok (), s')) (h : Uuid) :
    B.getGroup h s' = if h = g then .ok (Group.empty g) else B.getGroup h s := by
  cases D with
  | memory stores =>
    obtain ⟨store, -, rfl⟩ := Option.map_eq_some_iff.1 hB
    cases hr
    exact store.getGroup_removeGroup g h s
  | database stores =>
    obtain ⟨store, -, rfl⟩ := Option.map_eq_some_iff.1 hB
    exact store.getGroup_removeGroup hr h

/-- A store that keeps a ledger loads and removes every group. -/
theorem clears (hR : D.Represents R) (hv : D.view i = some v) (hB : D.backends i = some B) :
    B.Clears fun s => ∃ W, R s W where
  load := by
    rintro s ⟨W, r⟩ g
    obtain ⟨G, hG, hid, -⟩ := exists_getGroup hR hv hB r g
    exact ⟨G, hG, hid⟩
  remove := by
    rintro s ⟨W, r⟩ g
    obtain ⟨hanswer, hstate⟩ := (hR.refines_of_view hv hB).removeGroup g r
    obtain ⟨⟨⟩, hok, -⟩ := hanswer.exists_ok
    have hr : B.removeGroup g s = (.ok (), (B.removeGroup g s).2) := Prod.ext hok rfl
    exact ⟨_, hr, ⟨_, hstate⟩, getGroup_removeGroup hB hr⟩

theorem leavesOut_clear (hR : D.Represents R) (hv : D.view i = some v)
    (hB : D.backends i = some B) {s : D.State} {W : Sql.Ledgers} (r : R s W) (gs : List Uuid) :
    D.LeavesOut i gs s (B.clear gs s) := by
  cases D with
  | memory stores =>
    obtain ⟨store, hstore, rfl⟩ := Option.map_eq_some_iff.1 hB
    exact ⟨store, hstore, store.clear_eq gs s⟩
  | database stores =>
    obtain ⟨store, hstore, rfl⟩ := Option.map_eq_some_iff.1 hB
    obtain ⟨t, ht, -⟩ := (hR.holds r i v hv store hstore).members
    exact ⟨store, hstore, store.leavesOut_clear gs ht⟩

/-- Iteration yields the groups that have members, each once and as it is loaded. -/
theorem exists_groups (hR : D.Represents R) (hv : D.view i = some v) (hB : D.backends i = some B)
    {s : D.State} {W : Sql.Ledgers} (r : R s W) : ∃ Gs : List Group, (Gs.map (·.id)).Nodup ∧
      (∀ g, g ∈ Gs.map (·.id) ↔ D.HasMember i g s) ∧ (∀ G ∈ Gs, B.getGroup G.id s = .ok G) ∧
        B.groupKeys s = .ok (Gs.map (·.id.text)) ∧ B.groups s = .ok (Gs.map .ok) := by
  obtain ⟨gs, hnodup, hmem, htexts⟩ := Ledger.exists_groups v.region (W v.tables)
  have hload (g : Uuid) := (clears hR hv hB).load ⟨W, r⟩ g
  choose load hget hid using hload
  have hids : (gs.map load).map (·.id) = gs := by
    rw [List.map_map]
    exact (List.map_congr_left fun g _ => hid g).trans (List.map_id _)
  obtain ⟨keys, hkeys, rfl⟩ := ((hR.refines_of_view hv hB).groupKeys r).exists_ok
  have htext : (gs.map load).map (·.id.text) = (W v.tables).groupKeys v.region := by
    rw [htexts, List.map_map]
    exact List.map_congr_left fun g _ => congrArg Uuid.text (hid g)
  have hgroups (g : Uuid) (_ : g ∈ gs) : B.loadKey g.text s = .ok (load g) := by
    rw [Backend.loadKey, Key.identifier_text]
    exact hget g
  refine ⟨gs.map load, by rwa [hids], fun g => ?_, ?_, by rw [hkeys, htext], ?_⟩
  · rw [hids, hmem, hasMember_iff hv (hR.holds r i v hv)]
  · intro G hG
    obtain ⟨g, -, rfl⟩ := List.mem_map.1 hG
    rw [hid]
    exact hget g
  · rw [Backend.groups, hkeys]
    simp only [htexts, List.map_map]
    exact congrArg _ (List.map_congr_left hgroups)

/-- Expiry of the groups that iteration yields. -/
theorem expire_eq (hR : D.Represents R) (hv : D.view i = some v) (hB : D.backends i = some B)
    {s : D.State} {W : Sql.Ledgers} (r : R s W) {Gs : List Group} (hnodup : (Gs.map (·.id)).Nodup)
    (hload : ∀ G ∈ Gs, B.getGroup G.id s = .ok G)
    (hkeys : B.groupKeys s = .ok (Gs.map (·.id.text))) (now : Int64) (timeout : Timeout) :
    let gone := Gs.filter (Backend.isExpired (expiryCutoff now timeout))
    B.expire now timeout s = (.ok gone, B.clear (gone.map (·.id)) s) := by
  rw [Backend.expire, hkeys]
  exact (clears hR hv hB).expireKeys_eq _ Gs ⟨W, r⟩ hnodup hload

/-- What a pass leaves was there before and did not go, so it is not below any earlier cutoff. -/
theorem not_isExpired_of_clear (hR : D.Represents R) (hv : D.view i = some v)
    (hB : D.backends i = some B) {s : D.State} {W : Sql.Ledgers} (r : R s W) {Gs : List Group}
    (hmem : ∀ g, g ∈ Gs.map (·.id) ↔ D.HasMember i g s)
    (hload : ∀ G ∈ Gs, B.getGroup G.id s = .ok G) {c c' : Int64} (hc : c' ≤ c) {H : Group}
    (hH : B.getGroup H.id (B.clear ((Gs.filter (Backend.isExpired c)).map (·.id)) s) = .ok H) :
    Backend.isExpired c' H = false := by
  have hempty (he : H = Group.empty H.id) : Backend.isExpired c' H = false := by rw [he]; rfl
  rw [(clears hR hv hB).getGroup_clear _ _ ⟨W, r⟩] at hH
  split at hH
  · exact hempty (Except.ok.inj hH).symm
  · rename_i hstays
    by_cases hbefore : H.id ∈ Gs.map (·.id)
    · obtain ⟨G, hG, hid⟩ := List.mem_map.1 hbefore
      obtain rfl : G = H := Except.ok.inj ((hload G hG).symm.trans (hid ▸ hH))
      refine Backend.isExpired_eq_false_of_le hc (Bool.eq_false_iff.2 fun hexpired => hstays ?_)
      exact List.mem_map_of_mem (List.mem_filter.2 ⟨hG, hexpired⟩)
    · obtain ⟨G, hG, -, hiff⟩ := exists_getGroup hR hv hB r H.id
      obtain rfl : G = H := Except.ok.inj (hG.symm.trans hH)
      exact hempty (hiff.2 fun hmember => hbefore ((hmem _).2 hmember))

/-- In every state that a session from new tables reaches, expiry succeeds at every clock and
timeout. Of the groups that have members, each once and in the order of iteration, it gives those
whose timestamp is below the cutoff, as they are loaded before, and leaves out their rows and no
others; then they are empty, and all other groups are loaded as before. To expire again at that
clock under no shorter timeout gives nothing and changes nothing. -/
theorem expire_of_reachable {tables : D.State} (hnew : D.IsNew tables) (clock : Int64)
    (es : List Event) (hB : D.backends i = some B) (now : Int64) (timeout : Timeout) :
    let s := ((Session.start tables clock).run D.backends es).2.state
    ∃ Gs : List Group, B.groups s = .ok (Gs.map .ok) ∧ (Gs.map (·.id)).Nodup ∧
      (∀ g, g ∈ Gs.map (·.id) ↔ D.HasMember i g s) ∧ (∀ G ∈ Gs, B.getGroup G.id s = .ok G) ∧
      let gone := Gs.filter fun G => G.timestamp.any (· < expiryCutoff now timeout)
      ∃ s', B.expire now timeout s = (.ok gone, s') ∧ D.LeavesOut i (gone.map (·.id)) s s' ∧
        (∀ g, B.getGroup g s' =
          if g ∈ gone.map (·.id) then .ok (Group.empty g) else B.getGroup g s) ∧
        ∀ longer : Timeout, timeout.total ≤ longer.total →
          B.expire now longer s' = (.ok [], s') := by
  obtain ⟨v, hv⟩ := exists_view hB
  obtain ⟨R, hR, -, hrelated⟩ := run_alike_ledgers hnew clock es
  generalize ((Session.start tables clock).run D.backends es).2 = x at hrelated
  obtain ⟨Gs, hnodup, hmem, hload, hkeys, hgroups⟩ := exists_groups hR hv hB hrelated.state
  have hclears := clears hR hv hB
  intro s
  refine ⟨Gs, hgroups, hnodup, hmem, hload, ?_⟩
  intro gone
  have hexpire : B.expire now timeout s = (.ok gone, B.clear (gone.map (·.id)) s) :=
    expire_eq hR hv hB hrelated.state hnodup hload hkeys now timeout
  refine ⟨_, hexpire, leavesOut_clear hR hv hB hrelated.state _,
    fun g => hclears.getGroup_clear _ g ⟨_, hrelated.state⟩, fun longer hlonger => ?_⟩
  obtain ⟨W, r⟩ := hclears.clear_keeps (gone.map (·.id)) ⟨_, hrelated.state⟩
  obtain ⟨Hs, hnodup', -, hload', hkeys', -⟩ := exists_groups hR hv hB r
  have hagain := expire_eq hR hv hB r hnodup' hload' hkeys' now longer
  have hnone : Hs.filter (Backend.isExpired (expiryCutoff now longer)) = [] :=
    List.filter_eq_nil_iff.2 fun H hH => Bool.eq_false_iff.1 <|
      not_isExpired_of_clear hR hv hB hrelated.state hmem hload (expiryCutoff_anti now hlonger)
        (hload' H hH)
  rw [hagain, hnone]
  rfl

/-- Of two groups the one is below the cutoff, by a member that is marked, and the other at it; a
third is in another region. -/
theorem expire_of_reachable_marked :
    let m (n : UInt8) : Message := .create ⟨List.replicate 15 0 ++ [n], rfl⟩ 0 [n]
    let es : List Event := [.request 0 (.addToGroup (.text "a") (m 1)),
      .request 2 (.addToGroup (.text "a") (m 1)), .request 1 (.markMessage (.text "a") (m 1)),
      .clock 6, .request 0 (.addToGroup (.text "a") (m 2)),
      .request 1 (.addToGroup (.text "b") (m 1))]
    let timeout : Timeout := ⟨0, 1000000, by omega⟩
    let B := (Sql.Store.mk "DEFAULT" "INT_" .standard).backend
    threeStores.IsNew newDatabase ∧ threeStores.backends 0 = some B ∧
      let s := ((Session.start newDatabase 5).run threeStores.backends es).2.state
      ∃ Gs : List Group, B.groups s = .ok (Gs.map .ok) ∧ (Gs.map (·.id)).Nodup ∧
        (∀ g, g ∈ Gs.map (·.id) ↔ threeStores.HasMember 0 g s) ∧
        (∀ G ∈ Gs, B.getGroup G.id s = .ok G) ∧
        let gone := Gs.filter fun G => G.timestamp.any (· < expiryCutoff 7 timeout)
        ∃ s', B.expire 7 timeout s = (.ok gone, s') ∧
          threeStores.LeavesOut 0 (gone.map (·.id)) s s' ∧
          (∀ g, B.getGroup g s' =
            if g ∈ gone.map (·.id) then .ok (Group.empty g) else B.getGroup g s) ∧
          ∀ longer : Timeout, timeout.total ≤ longer.total →
            B.expire 7 longer s' = (.ok [], s') := by
  intro m es timeout B
  exact ⟨isNew_threeStores, rfl, expire_of_reachable isNew_threeStores 5 es rfl 7 timeout⟩

end Depot

end MessageDepot
