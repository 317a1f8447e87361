import MessageDepot.Proofs.LedgerConfinement
import MessageDepot.Proofs.Refusal

/-!
# Changes of different groups commute

Two changes of different groups leave other tables in one order than in the other: members stand in
another order and have other row numbers. Their ledgers, though, look alike at every place, which
every later step keeps and no answer tells apart. So each of the two changes is answered as it would
be first, and whatever is asked later is answered alike, down to the errors.

Results:
* `Depot.ledgers_comm`: two changes of different groups on ledgers.
* `Depot.run_same`: sessions whose ledgers look alike at every place.
* `Depot.changes_commute`: two changes in any session, and whatever comes after.
-/
namespace MessageDepot.Depot

variable {D : Depot}

/-- The places of all ledgers, as one. -/
abbrev ledgerPlaces : Places Sql.Ledgers Unit := (Ledger.places.family (List Char)).whole

/-- Two sessions of ledgers that look alike at every place, under one clock and with the same
streams. -/
def LooksAlike (D : Depot) (t t' : Session Sql.Ledgers) : Prop :=
  Session.Parallel D.ledgers ledgerPlaces (fun _ _ => ()) (fun _ _ => true) t t'

theorem confined_ledgers (D : Depot) (i : Nat) :
    ∀ C ∈ D.ledgers i, C.Confined ledgerPlaces fun _ => () := by
  intro C hC
  obtain ⟨v, -, rfl⟩ := Option.map_eq_some_iff.1 hC
  exact Ledger.confined_within v.tables v.region v.codec

/-- A step keeps sessions of ledgers alike, and answers both as one. -/
theorem LooksAlike.step {t t' : Session Sql.Ledgers} (h : D.LooksAlike t t') (e : Event) :
    (t.step D.ledgers e).1 = (t'.step D.ledgers e).1 ∧
      D.LooksAlike (t.step D.ledgers e).2 (t'.step D.ledgers e).2 := by
  refine Session.step_picked D.confined_ledgers h e ?_
  unfold Step.isPicked
  cases Step.asks? _ <;> rfl

/-- Two changes of different groups, in either order. -/
theorem ledgers_comm (D : Depot) (t : Session Sql.Ledgers) (i : Nat) {q r : Request} {g h : Uuid}
    (hq : q.alters? = some g) (hr : r.alters? = some h) (hne : g ≠ h) :
    let tq := t.step D.ledgers (.request i q)
    let tr := t.step D.ledgers (.request i r)
    (tr.2.step D.ledgers (.request i q)).1 = tq.1 ∧ (tq.2.step D.ledgers (.request i r)).1 = tr.1 ∧
      D.LooksAlike (tq.2.step D.ledgers (.request i r)).2
        (tr.2.step D.ledgers (.request i q)).2 := by
  cases hv : D.view i with
  | none =>
    simp only [Session.step, ledgers, hv, Option.map_none, true_and]
    exact .refl _
  | some v =>
    have hconfined {q : Request} {g : Uuid} (hq : q.alters? = some g) :
        (Ledger.places.family (List Char)).Confined (v.tables, some (v.region, g))
          (((Ledger.backend v.region v.codec).within v.tables).perform t.clock q) :=
      ((Ledger.confined_change v.codec t.clock hq).within v.tables).congr
        ((Ledger.backend v.region v.codec).perform_within v.tables t.clock q)
    have hplace : (v.tables, some (v.region, g)) ≠ (v.tables, some (v.region, h)) := by
      simpa using hne
    obtain ⟨hanswer, hanswer', hstate⟩ := (hconfined hq).comm (hconfined hr) hplace t.state
    simp only [Session.step, ledgers, hv, Option.map_some]
    refine ⟨congrArg _ hanswer, congrArg _ hanswer', fun _ _ _ _ => hstate, rfl, fun _ => .inl rfl⟩

theorem clock_request (t : Session Sql.Ledgers) (i : Nat) (q : Request) :
    (t.step D.ledgers (.request i q)).2.clock = t.clock := by
  simp only [Session.step]
  split <;> rfl

/-- Sessions whose ledgers look alike answer every event alike, by induction on the events. -/
theorem run_same {R : D.State → Sql.Ledgers → Prop} (hR : D.Represents R) (es : List Event) :
    ∀ {x x' : Session D.State} {t t' : Session Sql.Ledgers}, Session.Related R x t →
      Session.Related R x' t' → D.LooksAlike t t' →
        List.Forall₂ Response.Same (x.run D.backends es).1 (x'.run D.backends es).1 := by
  induction es with
  | nil => intro x x' t t' _ _ _; exact .nil
  | cons e es ih =>
    intro x x' t t' hx hx' halike
    obtain ⟨hresponse, halike'⟩ := halike.step e
    have hsame := step_same hR hx hx' halike.clock hresponse
    exact .cons hsame (ih (Session.step_alike hR.refines e hx).2
      (Session.step_alike hR.refines e hx').2 halike')

/-- Two changes of different groups through one store, in a session from new tables: each is
answered the same in either order, and so is every later event, in whatever session follows, but for
the order of marked members. -/
theorem changes_commute {tables : D.State} (hnew : D.IsNew tables) (clock : Int64) (es : List Event)
    (i : Nat) {q r : Request} {g h : Uuid} (hq : q.alters? = some g) (hr : r.alters? = some h)
    (hne : g ≠ h) (later : List Event) :
    let x := ((Session.start tables clock).run D.backends es).2
    let xq := x.step D.backends (.request i q)
    let xr := x.step D.backends (.request i r)
    let xqr := xq.2.step D.backends (.request i r)
    let xrq := xr.2.step D.backends (.request i q)
    xq.1.Same xrq.1 ∧ xqr.1.Same xr.1 ∧
      List.Forall₂ Response.Same (xqr.2.run D.backends later).1 (xrq.2.run D.backends later).1 := by
  obtain ⟨R, hR, -, hx⟩ := run_alike_ledgers hnew clock es
  generalize ((Session.start tables clock).run D.backends es).2 = x at hx
  generalize ((Session.start (fun _ => Ledger.empty) clock).run D.ledgers es).2 = t at hx
  obtain ⟨hanswer, hanswer', halike⟩ := D.ledgers_comm t i hq hr hne
  have hxq := (Session.step_alike hR.refines (.request i q) hx).2
  have hxr := (Session.step_alike hR.refines (.request i r) hx).2
  have hxqr := (Session.step_alike hR.refines (.request i r) hxq).2
  have hxrq := (Session.step_alike hR.refines (.request i q) hxr).2
  refine ⟨?_, ?_, run_same hR later hxqr hxrq halike⟩
  · exact step_same hR hx hxr (clock_request t i r).symm hanswer.symm
  · exact step_same hR hxq hx (clock_request t i q) hanswer'

/-- A removal from one group frees the row number that an addition to another may take. -/
theorem changes_commute_freed_row :
    let m (n : UInt8) : Message := .create ⟨List.replicate 15 0 ++ [n], rfl⟩ 0 [n]
    let es : List Event := [.request 0 (.addToGroup (.uuid plainSpace) (m 1)),
      .request 1 (.addToGroup (.uuid taggedSpace) (m 2)), .openStream 1 "open"]
    let q : Request := .removeFromGroup (.uuid taggedSpace) (m 2)
    let r : Request := .addToGroup (.uuid plainSpace) (m 3)
    let later : List Event := [.request 2 (.addToGroup (.uuid taggedSpace) (m 2)), .poll "open",
      .request 1 .iterate, .clock 6, .request 0 (.addToGroup (.uuid plainSpace) (m 3))]
    threeStores.IsNew newDatabase ∧ q.alters? = some taggedSpace ∧ r.alters? = some plainSpace ∧
      taggedSpace ≠ plainSpace ∧
      let x := ((Session.start newDatabase 5).run threeStores.backends es).2
      let xq := x.step threeStores.backends (.request 0 q)
      let xr := x.step threeStores.backends (.request 0 r)
      let xqr := xq.2.step threeStores.backends (.request 0 r)
      let xrq := xr.2.step threeStores.backends (.request 0 q)
      xq.1.Same xrq.1 ∧ xqr.1.Same xr.1 ∧ List.Forall₂ Response.Same
        (xqr.2.run threeStores.backends later).1 (xrq.2.run threeStores.backends later).1 := by
  intro m es q r later
  have hne : taggedSpace ≠ plainSpace := by decide
  exact ⟨isNew_threeStores, rfl, rfl, hne,
    changes_commute isNew_threeStores 5 es 0 rfl rfl hne later⟩

end MessageDepot.Depot
