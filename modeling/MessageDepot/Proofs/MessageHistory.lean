import Mathlib.Data.List.Induction
import MessageDepot.Proofs.Depot

/-!
# A stored message is what its history says

In a region an identifier has the message that its latest addition was answered with, unless it
was removed since. What is kept under an identifier changes with every step of a session as
`keptAfter` says, on ledgers and so on the stores that refine them; read from the end, the last
step that adds or removes decides. An addition goes only where nothing is kept or answers what
is, so a message that is kept stays as it is until it is removed.

Results:
* `foldl_keptAfter`: what is left by some steps, step by step and as the latest addition.
* `Ledger.find?_perform`: what one request leaves under an identifier.
* `kept_run`, `kept_stays_run`: what a session leaves, and that a kept message stays.
* `messages_of_history`: what a store finds, removes and counts after any session.
-/
namespace MessageDepot

variable {σ ε φ : Type}

/-! ## What steps do to a message -/

/-- The message that a step was answered with. -/
def Response.message? : Response ε → Option Message
  | .answered (.message m) => some m
  | _ => none

theorem Response.Alike.message?_eq {r : Response ε} {r' : Response φ} (h : r.Alike r') :
    r.message? = r'.message? := by
  cases h with
  | answered h => cases h <;> rfl
  | _ => rfl

section
variable (sees : Nat → Bool) (id : Uuid)

namespace Event

/-- Whether the event asks a store that is looked at to add a message of the identifier. -/
def adds : Event → Bool
  | .request i (.addMessage m) => sees i && m.id = id
  | _ => false

/-- Whether the event asks a store that is looked at to remove the identifier. -/
def removes : Event → Bool
  | .request i (.removeMessage id') => sees i && id' = id
  | _ => false

/-- What an addition of the identifier was answered. -/
def added? (e : Event) (r : Response ε) : Option Message :=
  if e.adds sees id then r.message? else none

theorem adds_of_removes {e : Event} (h : e.removes sees id = true) : e.adds sees id = false := by
  cases e with
  | request i q => cases q <;> first | rfl | cases h
  | _ => rfl

end Event

/-- The latest answered addition of the identifier was answered with the message, and no removal
came after it. -/
def LatestAddition (steps : List (Event × Response ε)) (m : Message) : Prop :=
  ∃ before e r after, steps = before ++ (e, r) :: after ∧ e.added? sees id r = some m ∧
    ∀ s ∈ after, s.1.added? sees id s.2 = none ∧ s.1.removes sees id = false

/-- What is kept under the identifier after a step. -/
def keptAfter (v : Option Message) (s : Event × Response ε) : Option Message :=
  if s.1.removes sees id then none else (s.1.added? sees id s.2).or v

theorem latestAddition_concat {steps : List (Event × Response ε)} {s : Event × Response ε}
    {m : Message} : LatestAddition sees id (steps ++ [s]) m ↔
      s.1.added? sees id s.2 = some m ∨
        s.1.added? sees id s.2 = none ∧ s.1.removes sees id = false ∧
          LatestAddition sees id steps m := by
  constructor
  · rintro ⟨before, e, r, after, hsteps, hadd, hafter⟩
    rcases List.eq_nil_or_concat' after with rfl | ⟨init, last, rfl⟩
    · obtain ⟨-, hlast⟩ := List.append_inj' hsteps rfl
      cases hlast
      exact .inl hadd
    · have hsteps : steps ++ [s] = (before ++ (e, r) :: init) ++ [last] := by
        rw [hsteps]; simp
      obtain ⟨rfl, hlast⟩ := List.append_inj' hsteps rfl
      cases hlast
      obtain ⟨hnone, hkeep⟩ := hafter s (by simp)
      exact .inr ⟨hnone, hkeep, before, e, r, init, rfl, hadd, fun x hx => hafter x (by simp [hx])⟩
  · rintro (hadd | ⟨hnone, hkeep, before, e, r, after, rfl, hadd, hafter⟩)
    · exact ⟨steps, s.1, s.2, [], rfl, hadd, by simp⟩
    · refine ⟨before, e, r, after ++ [s], by simp, hadd, fun x hx => ?_⟩
      rcases List.mem_append.1 hx with hx | hx
      · exact hafter x hx
      · rw [List.mem_singleton.1 hx]
        exact ⟨hnone, hkeep⟩

/-- What is left by all steps is the latest addition, by induction from the last step back. -/
theorem foldl_keptAfter (steps : List (Event × Response ε)) (m : Message) :
    steps.foldl (keptAfter sees id) none = some m ↔ LatestAddition sees id steps m := by
  induction steps using List.reverseRecOn with
  | nil => simp [LatestAddition]
  | append_singleton steps s ih =>
    rw [List.foldl_append, latestAddition_concat, ← ih]
    simp only [List.foldl_cons, List.foldl_nil, keptAfter]
    cases hr : s.1.removes sees id with
    | true => simp [Event.added?, Event.adds_of_removes sees id hr]
    | false => cases s.1.added? sees id s.2 <;> simp

/-- Steps that are answered alike leave the same. -/
theorem foldl_keptAfter_congr {rs : List (Response ε)} {rs' : List (Response φ)}
    (h : List.Forall₂ Response.Alike rs rs') : ∀ (es : List Event) (v : Option Message),
      (es.zip rs).foldl (keptAfter sees id) v = (es.zip rs').foldl (keptAfter sees id) v := by
  induction h with
  | nil => intro es v; simp
  | cons a _ ih =>
    intro es v
    cases es with
    | nil => rfl
    | cons e es =>
      simp only [List.zip_cons_cons, List.foldl_cons, keptAfter, Event.added?, a.message?_eq]
      exact ih es _

end

/-! ## Expiry -/

/-- A pass of expiry keeps what removing a group keeps. -/
theorem Backend.expireKeys_keeps {B : Backend σ ε} {P : σ → Prop}
    (h : ∀ g s, P s → P (B.removeGroup g s).2) (cutoff : Int64) (keys : List String) :
    ∀ s, P s → P (B.expireKeys cutoff keys s).2 := by
  induction keys with
  | nil => intro s hs; exact hs
  | cons key keys ih =>
    intro s hs
    rw [expireKeys_cons]
    unfold expireLoaded
    cases B.loadKey key s with
    | error e => exact hs
    | ok g =>
      simp only
      split
      · have hr := h g.id s hs
        unfold expireRemoved
        cases (B.removeGroup g.id s).1 with
        | error e => exact hr
        | ok _ => exact ih _ hr
      · exact ih s hs

/-! ## Ledgers -/

namespace Ledger

variable {region region' : String} {codec : Codec} {id : Uuid} {L : Ledger}

theorem find?_keep {k : Kept} (h : L.kept.find? (·.isAt k.region k.message.id) = none) :
    (L.keep k).find? region id =
      (L.find? region id).or (if k.isAt region id then some k.message else none) := by
  rw [find?, kept_keep h, List.find?_append, find?]
  cases L.kept.find? (·.isAt region id) with
  | some x => rfl
  | none => cases hk : k.isAt region id <;> simp [hk]

theorem find?_discard (id' : Uuid) : (L.discard (·.isAt region' id')).find? region id =
    if region' = region ∧ id' = id then none else L.find? region id := by
  rw [find?, discard, List.find?_filter]
  split
  · rename_i h
    rw [h.1, h.2, List.find?_eq_none.2 fun k _ => by simp]
    rfl
  · rename_i h
    rw [find?]
    congr 2
    funext k
    cases hk : k.isAt region id with
    | false => simp
    | true =>
      have hne : k.isAt region' id' = false := by
        simp only [Kept.isAt, Bool.and_eq_true, decide_eq_true_eq] at hk
        simp only [Kept.isAt, hk, Bool.and_eq_false_iff, decide_eq_false_iff_not]
        tauto
      simp [hne]

theorem find?_of_kept_eq {L' : Ledger} (h : L'.kept = L.kept) :
    L'.find? region id = L.find? region id := by
  rw [find?, find?, h]

/-- An addition that is answered was answered with what is kept there now. -/
theorem find?_addMessage (now : Int64) (m : Message) (L : Ledger) :
    let x := L.addMessage region' codec now m
    x.2.find? region id =
      (if region' = region ∧ m.id = id then x.1.toOption else none).or (L.find? region id) := by
  unfold addMessage
  cases hf : L.find? region' m.id with
  | some stored =>
    by_cases hm : stored = m
    · subst hm
      simp only [if_true]
      split
      · rename_i h
        rw [← h.1, ← h.2, hf]
        rfl
      · rfl
    · simp only [if_neg hm]
      split <;> rfl
  | none =>
    by_cases hsize : (Codec.envelope (m.markSaved now)).size ≤ codec.maxSize
    · have hfree := Option.map_eq_none_iff.1 hf
      simp only [dif_pos hsize]
      have hat : (Kept.stamp region' codec now m hsize).isAt region id =
          decide (region' = region ∧ m.id = id) := (Bool.decide_and ..).symm
      rw [find?_keep (k := .stamp region' codec now m hsize) hfree, hat]
      by_cases h : region' = region ∧ m.id = id
      · rw [if_pos h, decide_eq_true h, ← h.1, ← h.2, hf]
        rfl
      · rw [if_neg h, decide_eq_false h]
        simp
    · simp only [dif_neg hsize]
      split <;> rfl

/-- One request to a store of the region `region'`. -/
theorem find?_perform {sees : Nat → Bool} {i : Nat} (hs : sees i = decide (region' = region))
    (now : Int64) (q : Request) (L : Ledger) :
    let x := (backend region' codec).perform now q L
    x.2.find? region id = keptAfter sees id (L.find? region id) (.request i q, .ofExcept x.1) := by
  have hquiet {r : Response Refusal} (ha : (Event.request i q).adds sees id = false)
      (hr : (Event.request i q).removes sees id = false) :
      keptAfter sees id (L.find? region id) (.request i q, r) = L.find? region id := by
    simp [keptAfter, Event.added?, ha, hr]
  cases q with
  | addMessage m =>
    have hmessage (a : Except Refusal Message) :
        (Response.ofExcept (a.map .message)).message? = a.toOption := by cases a <;> rfl
    refine (find?_addMessage now m L).trans ?_
    simp only [Backend.perform, backend, keptAfter, Event.removes, Event.added?, Event.adds, hs,
      hmessage, Bool.false_eq_true, if_false, Bool.and_eq_true, decide_eq_true_eq]
  | removeMessage id' =>
    refine (find?_discard id').trans ?_
    simp only [keptAfter, Event.removes, Event.added?, Event.adds, hs, Bool.false_eq_true, if_false,
      Bool.and_eq_true, decide_eq_true_eq, Option.none_or]
  | addToGroup key m =>
    refine (find?_of_kept_eq ?_).trans (hquiet rfl rfl).symm
    simp only [Backend.perform, backend, addToGroup]
    split
    · rfl
    · split
      · exact kept_join ..
      · rfl
  | expire timeout =>
    have hkept := Backend.expireKeys_keeps (B := backend region' codec)
      (P := fun L' => L'.kept = L.kept) (fun _ _ h => h) (expiryCutoff now timeout)
      (L.groupKeys region') L rfl
    exact (find?_of_kept_eq hkept).trans (hquiet rfl rfl).symm
  | _ => exact (hquiet rfl rfl).symm

/-- What is kept stays until it is removed: an addition in its place is refused, or answers it. -/
theorem find?_perform_stays {sees : Nat → Bool} {i : Nat} (hs : sees i = decide (region' = region))
    {now : Int64} {q : Request} {m : Message} (hm : L.find? region id = some m)
    (hq : (Event.request i q).removes sees id = false) :
    ((backend region' codec).perform now q L).2.find? region id = some m := by
  rw [find?_perform hs, keptAfter, hq, hm]
  simp only [Bool.false_eq_true, if_false, Event.added?]
  split
  · rename_i ha
    cases q with
    | addMessage x =>
      simp only [Event.adds, hs, Bool.and_eq_true, decide_eq_true_eq] at ha
      obtain ⟨rfl, rfl⟩ := ha
      simp only [Backend.perform, backend, addMessage, hm]
      split
      · rename_i he
        rw [he]
        rfl
      · rfl
    | _ => cases ha
  · rfl

end Ledger

/-! ## Sessions -/

theorem keptAfter_unseen {sees : Nat → Bool} {e : Event}
    (h : ∀ i q, e = .request i q → sees i = false) (id : Uuid) (v : Option Message)
    (r : Response ε) : keptAfter sees id v (e, r) = v := by
  cases e with
  | request i q =>
    have hi := h i q rfl
    cases q <;> simp [keptAfter, Event.added?, Event.adds, Event.removes, hi]
  | _ => rfl

namespace Depot

/-- The message that the ledger of a store keeps under an identifier. -/
def kept (v : View) (id : Uuid) (W : Sql.Ledgers) : Option Message :=
  (W v.tables).find? v.region id

variable {D : Depot} {i : Nat} {v : View} (hv : D.view i = some v) (id : Uuid)
include hv

theorem shares_of_tables {j : Nat} {w : View} (hw : D.view j = some w)
    (htables : w.tables = v.tables) : D.shares i j = decide (w.region = v.region) := by
  rw [shares_eq hv hw, decide_eq_true htables.symm, Bool.true_and]
  exact decide_eq_decide.2 eq_comm

theorem kept_step (e : Event) (t : Session Sql.Ledgers) :
    let x := t.step D.ledgers e
    kept v id x.2.state = keptAfter (D.shares i) id (kept v id t.state) (e, x.1) := by
  rcases step_ledgers D v.tables e t with ⟨hstate, hother⟩ | ⟨j, q, w, rfl, hw, htables, hx⟩
  · have hunseen (j : Nat) (q : Request) (he : e = .request j q) : D.shares i j = false := by
      cases hw : D.view j with
      | none => simp [shares, hw]
      | some w =>
        have hne := hother j q he w hw
        rw [shares_eq hv hw, decide_eq_false (Ne.symm hne), Bool.false_and]
    simp only [keptAfter_unseen hunseen, kept, hstate]
  · obtain ⟨hstate, hresponse⟩ := hx
    simp only [kept, hstate, hresponse]
    exact Ledger.find?_perform (shares_of_tables hv hw htables) t.clock q _

/-- What is left under an identifier by all steps of a session, by induction on its events. -/
theorem kept_run (es : List Event) : ∀ t : Session Sql.Ledgers,
    let x := t.run D.ledgers es
    kept v id x.2.state =
      (es.zip x.1).foldl (keptAfter (D.shares i) id) (kept v id t.state) := by
  induction es with
  | nil => intro t; rfl
  | cons e es ih =>
    intro t
    have hstep := kept_step hv id e t
    simp only [Session.run, List.zip_cons_cons, List.foldl_cons, ← hstep]
    exact ih _

theorem kept_stays {e : Event} (he : e.removes (D.shares i) id = false) {t : Session Sql.Ledgers}
    {m : Message} (hm : kept v id t.state = some m) :
    kept v id (t.step D.ledgers e).2.state = some m := by
  rcases step_ledgers D v.tables e t with ⟨hstate, -⟩ | ⟨j, q, w, rfl, hw, htables, hx⟩
  · rw [kept, hstate]
    exact hm
  · rw [kept, hx.1]
    exact Ledger.find?_perform_stays (shares_of_tables hv hw htables) hm he

/-- A kept message stays under all steps but its removal. -/
theorem kept_stays_run (es : List Event) : (∀ e ∈ es, e.removes (D.shares i) id = false) →
    ∀ {t : Session Sql.Ledgers} {m : Message}, kept v id t.state = some m →
      kept v id (t.run D.ledgers es).2.state = some m := by
  induction es with
  | nil => intro _ t m hm; exact hm
  | cons e es ih =>
    intro hes t m hm
    exact ih (fun f hf => hes f (by simp [hf])) (kept_stays hv id (hes e (by simp)) hm)

end Depot

/-! ## Stores -/

/-- What a store tells of the messages of its region after some steps. -/
structure Backend.ShowsLatest (B : Backend σ ε) (sees : Nat → Bool)
    (steps : List (Event × Response ε)) (s : σ) : Prop where
  /-- It finds the latest addition of each identifier. -/
  get : ∀ id, ∃ v, B.getMessage id s = .ok v ∧ ∀ m, v = some m ↔ LatestAddition sees id steps m
  /-- A removal answers what would have been found. -/
  remove : ∀ id, (B.removeMessage id s).1 = B.getMessage id s
  /-- It leaves nothing under its identifier, and all others as they were. -/
  getRemoved : ∀ id id', B.getMessage id' (B.removeMessage id s).2 =
    if id' = id then .ok none else B.getMessage id' s
  /-- The identifiers under which something is found are counted. -/
  count : ∃ ids : List Uuid, ids.Nodup ∧ (∀ id, id ∈ ids ↔ ∃ m, B.getMessage id s = .ok (some m)) ∧
    B.messageCount s = .ok ids.length

namespace Ledger

/-- The identifiers of a region are those of its entries. -/
theorem exists_ids (region : String) (L : Ledger) : ∃ ids : List Uuid, ids.Nodup ∧
    (∀ id, id ∈ ids ↔ ∃ m, L.find? region id = some m) ∧
      (L.kept.filter (·.region = region)).length = ids.length := by
  refine ⟨(L.kept.filter (·.region = region)).map (·.message.id), ?_, fun id => ?_, by simp⟩
  · refine List.pairwise_map.2 ((L.keptApart.filter _).imp_of_mem fun {a b} ha hb hab hid => ?_)
    have ha := (List.mem_filter.1 ha).2
    have hb := (List.mem_filter.1 hb).2
    simp only [decide_eq_true_eq] at ha hb
    exact hab ⟨ha.trans hb.symm, hid⟩
  · have hfind : (∃ m, L.find? region id = some m) ↔ ∃ k ∈ L.kept, k.isAt region id = true := by
      rw [← Option.isSome_iff_exists, find?, Option.isSome_map, List.find?_isSome]
    rw [hfind]
    simp [Kept.isAt]
    tauto

end Ledger

namespace Depot

variable {D : Depot} {i : Nat} {v : View} {B : Backend D.State D.Failure}
  {R : D.State → Sql.Ledgers → Prop} {s : D.State} {W : Sql.Ledgers}

theorem getMessage_eq (h : Refines B ((Ledger.backend v.region v.codec).within v.tables) R)
    (r : R s W) (id : Uuid) : B.getMessage id s = .ok (kept v id W) := by
  obtain ⟨a, ha, rfl⟩ := (h.getMessage id r).exists_ok
  exact ha

/-- A store shows what its ledger keeps. -/
theorem showsLatest (h : Refines B ((Ledger.backend v.region v.codec).within v.tables) R)
    (r : R s W) {sees : Nat → Bool} {steps : List (Event × Response D.Failure)}
    (hkept : ∀ id m, kept v id W = some m ↔ LatestAddition sees id steps m) :
    B.ShowsLatest sees steps s where
  get id := ⟨_, getMessage_eq h r id, hkept id⟩
  remove id := by
    obtain ⟨a, ha, rfl⟩ := (h.removeMessage id r).answer.exists_ok
    rw [ha, getMessage_eq h r]
    rfl
  getRemoved id id' := by
    rw [getMessage_eq h (h.removeMessage id r).state, getMessage_eq h r]
    have hdiscard : ((W v.tables).discard (·.isAt v.region id)).find? v.region id' =
        if v.region = v.region ∧ id = id' then none else (W v.tables).find? v.region id' :=
      Ledger.find?_discard id
    simp only [kept, Backend.within, Backend.putAt, Function.update_self, Ledger.backend]
    rw [hdiscard]
    by_cases hid : id' = id
    · rw [if_pos hid, if_pos ⟨rfl, hid.symm⟩]
    · rw [if_neg hid, if_neg fun hc => hid hc.2.symm]
  count := by
    obtain ⟨ids, hnodup, hmem, hlength⟩ := Ledger.exists_ids v.region (W v.tables)
    refine ⟨ids, hnodup, fun id => ?_, ?_⟩
    · rw [hmem, getMessage_eq h r]
      simp [kept]
    · obtain ⟨n, hn, rfl⟩ := (h.messageCount r).exists_ok
      rw [hn, hlength]

/-- After any session from new tables a store finds for every identifier of its region the
message of the latest addition that was not followed by a removal; it removes what it finds, and
counts what can be found. And what is found stays so under every further event, whatever it adds
and however that turns out, but the removal of its identifier in that region. -/
theorem messages_of_history {tables : D.State} (hnew : D.IsNew tables) (clock : Int64)
    (es : List Event) (hB : D.backends i = some B) :
    let x := (Session.start tables clock).run D.backends es
    B.ShowsLatest (D.shares i) (es.zip x.1) x.2.state ∧
      ∀ id m e, B.getMessage id x.2.state = .ok (some m) → e.removes (D.shares i) id = false →
        B.getMessage id (x.2.step D.backends e).2.state = .ok (some m) := by
  obtain ⟨v, hv⟩ := exists_view hB
  obtain ⟨R, hR, halike, hrelated⟩ := run_alike_ledgers hnew clock es
  have hrefines := hR.refines_of_view hv hB
  refine ⟨showsLatest hrefines hrelated.state fun id m => ?_, fun id m e hm he => ?_⟩
  · have hrun := (kept_run hv id es (Session.start (fun _ => Ledger.empty) clock)).trans
      (foldl_keptAfter_congr (D.shares i) id halike es none).symm
    rw [hrun]
    exact foldl_keptAfter ..
  · have hkept := getMessage_eq hrefines hrelated.state id
    rw [hm, Except.ok.injEq] at hkept
    have hstep := (Session.step_alike hR.refines e hrelated).2
    rw [getMessage_eq hrefines hstep.state, kept_stays hv id he hkept.symm]

/-- A message that is refused, removed through another store of the region, added again under a
later stamp and delivered again, and that another region keeps meanwhile. -/
theorem messages_of_history_readded :
    let m : Message := .create plainSpace 0 [1]
    let es : List Event := [.request 0 (.addMessage m), .request 0 (.addMessage m), .clock 9,
      .request 2 (.addMessage m), .request 1 (.removeMessage m.id), .request 0 (.addMessage m),
      .request 1 (.addMessage (m.markSaved 9))]
    let B := (Sql.Store.mk "DEFAULT" "INT_" .standard).backend
    threeStores.IsNew newDatabase ∧ threeStores.backends 0 = some B ∧
      let x := (Session.start newDatabase 5).run threeStores.backends es
      B.ShowsLatest (threeStores.shares 0) (es.zip x.1) x.2.state ∧
        ∀ id m e, B.getMessage id x.2.state = .ok (some m) →
          e.removes (threeStores.shares 0) id = false →
            B.getMessage id (x.2.step threeStores.backends e).2.state = .ok (some m) :=
  ⟨isNew_threeStores, rfl, messages_of_history isNew_threeStores 5 _ rfl⟩

end Depot

end MessageDepot
