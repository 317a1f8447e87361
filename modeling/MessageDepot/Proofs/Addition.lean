import MessageDepot.Proofs.MessageHistory

/-!
# Adding a message

An addition finds the place of its identifier in the region taken or free. Where it is taken, only
the very message that is stored there succeeds, and nothing changes either way; where it is free,
a message within the limit goes into one new row, under a stamp of its own. So a message that was
answered can be added again for as long as its row is there.

Results:
* `row?_eq`: the stored row of an identifier is that of its ledger.
* `addition`: how an addition turns out, on the tables of any ledger.
* `addition_of_reachable`: so it does in every session, and what it answers can be added again.
-/
namespace MessageDepot

/-- One message is another under the stamp of a clock, in place of the stamp it had, if any. -/
structure Message.StampedAs (m : Message) (now : Int64) (x : Message) : Prop where
  id : x.id = m.id
  timestamp : x.timestamp = m.timestamp
  payload : x.payload = m.payload
  saved : x.header? savedHeader = some "true"
  created : x.header? createdDateHeader = some (Decimal.text now.toInt)
  others : ∀ name, name ≠ savedHeader → name ≠ createdDateHeader → x.header? name = m.header? name

theorem Message.stampedAs_markSaved (m : Message) (now : Int64) :
    m.StampedAs now (m.markSaved now) where
  id := rfl
  timestamp := rfl
  payload := rfl
  saved := by simp [header?, markSaved, withHeader, savedHeader, createdDateHeader]
  created := by simp [header?, markSaved, withHeader]
  others name hsaved hcreated := by simp [header?, markSaved, withHeader, hsaved, hcreated]

/-- What an addition is answered with has its identifier, and is kept under it. -/
theorem Ledger.addMessage_ok {region : String} {codec : Codec} {now : Int64} {m a : Message}
    {L : Ledger} (h : (L.addMessage region codec now m).1 = .ok a) :
    a.id = m.id ∧ (L.addMessage region codec now m).2.find? region m.id = some a := by
  constructor
  · unfold addMessage at h
    split at h
    · split at h <;> cases h
      rfl
    · split at h <;> cases h
      rfl
  · rw [find?_addMessage, if_pos ⟨rfl, rfl⟩, h]
    rfl

namespace Depot

/-! ## Rows -/

/-- The stored form of the message that a store's region has under an identifier. -/
def row? : (D : Depot) → Nat → Uuid → D.State → Option Bytes
  | memory stores, i, id, t => do
    let s ← stores i
    let r ← s.find? id t
    some r.bytes
  | database stores, i, id, db => do
    let s ← stores i
    let t ← db.messages? s.tablePrefix
    let r ← t.rows.find? (s.holds id)
    some (r.bytes.getD [])

/-- The second tables are the first but for one more row, behind all others of the message table
that a store writes to: a row of its region with an identifier, a clock where the table has a
column for it, and the stored form of a message. -/
def AddsRow : (D : Depot) → Nat → Uuid → Int64 → Bytes → D.State → D.State → Prop
  | memory stores, i, id, _, bytes, t, t' => ∃ s, stores i = some s ∧
    t' = { t with messages := t.messages ++ [⟨s.region, id.text, bytes⟩] }
  | database stores, i, id, now, bytes, db, db' => ∃ s t, stores i = some s ∧
    db.messages? s.tablePrefix = some t ∧
    db' = db.put (Sql.messageTable s.tablePrefix)
      (.messages { t with rows := t.rows ++ [⟨id.text, s.region, some now, some bytes⟩] })

/-- The failure of a message that cannot be written. -/
def encodeFailure : (D : Depot) → EncodeError → D.Failure
  | memory _, e => Memory.Error.encode e
  | database _, e => Sql.Error.encode e

/-- How an addition to a store turns out. -/
structure Addition (D : Depot) (i : Nat) (v : View) (now : Int64) (m : Message) (s : D.State)
    (x : Except D.Failure Message × D.State) : Prop where
  /-- Where there is a row, nothing changes; the stored message is answered as it came, and every
  other one is refused. -/
  taken : ∀ bytes, D.row? i m.id s = some bytes → x.2 = s ∧ ∃ stored,
    (∀ c : Codec, c.decode bytes = .ok stored) ∧
      if stored = m then x.1 = .ok m else ∃ e, x.1 = .error e
  /-- Where there is none, a message that is too large under its stamp is refused and nothing
  changes; every other one is answered under its stamp and has one row more. -/
  free : D.row? i m.id s = none → ∃ stamped, m.StampedAs now stamped ∧
    let size := (Codec.envelope stamped).size
    if v.codec.maxSize < size then
      x = (.error (D.encodeFailure (.tooLarge size v.codec.maxSize)), s)
    else x.1 = .ok stamped ∧ ∃ bytes, v.codec.encode stamped = .ok bytes ∧
      D.AddsRow i m.id now bytes s x.2

variable {D : Depot} {i : Nat} {v : View} {B : Backend D.State D.Failure} {s : D.State} {L : Ledger}
  (hv : D.view i = some v) (hB : D.backends i = some B) (h : D.Holds i s L)
include hv h

theorem row?_eq (id : Uuid) : D.row? i id s = (L.find? v.region id).map Codec.frame := by
  cases D with
  | memory stores =>
    obtain ⟨store, hstore, rfl⟩ := Option.map_eq_some_iff.1 hv
    have hfind := store.find?_eq h id
    simp only [row?, hstore, Option.bind_eq_bind, Option.bind_some, hfind, Ledger.find?]
    cases L.kept.find? (·.isAt store.region id) <;> rfl
  | database stores =>
    obtain ⟨store, hstore, rfl⟩ := Option.map_eq_some_iff.1 hv
    have hrows : (L.kept.map Sql.MessageRow.ofKept).find? (store.holds id) =
        (L.kept.find? (·.isAt store.region id)).map .ofKept := by
      rw [List.find?_map]
      congr 2
      funext k
      exact store.holds_ofKept id k
    simp only [row?, hstore, Option.bind_eq_bind, Option.bind_some, (h store hstore).messages,
      hrows, Ledger.find?]
    cases L.kept.find? (·.isAt store.region id) <;> rfl

include hB

/-- An addition by what is kept under its identifier. -/
theorem addMessage_cases (now : Int64) (m : Message) :
    match L.find? v.region m.id with
    | some stored =>
      if stored = m then B.addMessage now m s = (.ok m, s)
      else ∃ e, B.addMessage now m s = (.error e, s)
    | none =>
      let size := (Codec.envelope (m.markSaved now)).size
      if v.codec.maxSize < size then
        B.addMessage now m s = (.error (D.encodeFailure (.tooLarge size v.codec.maxSize)), s)
      else (B.addMessage now m s).1 = .ok (m.markSaved now) ∧
        D.AddsRow i m.id now (Codec.frame (m.markSaved now)) s (B.addMessage now m s).2 := by
  cases D with
  | memory stores =>
    obtain ⟨store, hstore, rfl⟩ := Option.map_eq_some_iff.1 hv
    obtain ⟨store', hstore', rfl⟩ := Option.map_eq_some_iff.1 hB
    obtain rfl : store = store' := Option.some.inj (hstore.symm.trans hstore')
    have hadd : store.backend.addMessage now m s = store.addMessage now m s := rfl
    rw [hadd]
    cases hf : L.find? store.region m.id with
    | some stored =>
      simp only [store.addMessage_taken h now hf]
      split
      · rfl
      · exact ⟨_, rfl⟩
    | none =>
      simp only [store.addMessage_free h now hf]
      split
      · rfl
      · exact ⟨rfl, store, hstore, rfl⟩
  | database stores =>
    obtain ⟨store, hstore, rfl⟩ := Option.map_eq_some_iff.1 hv
    obtain ⟨store', hstore', rfl⟩ := Option.map_eq_some_iff.1 hB
    obtain rfl : store = store' := Option.some.inj (hstore.symm.trans hstore')
    have hadd : store.backend.addMessage now m s = store.addMessage now m s := rfl
    have hholds := h store hstore
    rw [hadd]
    cases hf : L.find? store.region m.id with
    | some stored =>
      simp only
      split
      · rename_i hm
        exact store.addMessage_known hholds now (hm ▸ hf)
      · rename_i hm
        exact ⟨_, store.addMessage_clash hholds now hf hm⟩
    | none =>
      simp only [store.addMessage_free hholds now hf]
      split
      · rfl
      · exact ⟨rfl, store, _, hstore, hholds.messages, rfl⟩

/-- A message that is kept is answered as it came. -/
theorem addMessage_again {m : Message} (now : Int64) (hm : L.find? v.region m.id = some m) :
    B.addMessage now m s = (.ok m, s) := by
  have hcases := addMessage_cases hv hB h now m
  rw [hm] at hcases
  simpa using hcases

theorem addition (now : Int64) (m : Message) : D.Addition i v now m s (B.addMessage now m s) := by
  have hcases := addMessage_cases hv hB h now m
  have hrow := row?_eq hv h m.id
  cases hf : L.find? v.region m.id with
  | some stored =>
    rw [hf] at hcases hrow
    refine ⟨fun bytes hbytes => ?_, fun hnone => absurd (hrow.symm.trans hnone) (by simp)⟩
    obtain ⟨k, -, rfl⟩ := Option.map_eq_some_iff.1 hf
    obtain rfl : Codec.frame k.message = bytes := Option.some.inj (hrow.symm.trans hbytes)
    have hdecode (c : Codec) : c.decode (Codec.frame k.message) = .ok k.message :=
      Codec.decode_frame c k.fits
    by_cases hm : k.message = m
    · simp only [if_pos hm] at hcases
      exact ⟨by rw [hcases], k.message, hdecode, by rw [if_pos hm, hcases]⟩
    · simp only [if_neg hm] at hcases
      obtain ⟨e, he⟩ := hcases
      exact ⟨by rw [he], k.message, hdecode, by rw [if_neg hm, he]; exact ⟨e, rfl⟩⟩
  | none =>
    rw [hf] at hcases hrow
    refine ⟨fun bytes hbytes => ?_, fun _ => ⟨m.markSaved now, m.stampedAs_markSaved now, ?_⟩⟩
    · rw [hrow] at hbytes
      cases hbytes
    by_cases hsize : v.codec.maxSize < (Codec.envelope (m.markSaved now)).size
    · simp only [if_pos hsize] at hcases ⊢
      exact hcases
    · simp only [if_neg hsize] at hcases ⊢
      exact ⟨hcases.1, _, by rw [Codec.encode_eq, if_neg hsize], hcases.2⟩

omit hv hB h

/-- In every session from new tables an addition turns out as its row and its size say. What it
answers can be added again as often as wanted and at any clock, as long as no step removes the
identifier from the region: it is answered as it came, and nothing changes. -/
theorem addition_of_reachable {tables : D.State} (hnew : D.IsNew tables) (clock : Int64)
    (es : List Event) (hv : D.view i = some v) (hB : D.backends i = some B) (now : Int64)
    (m : Message) :
    let x := ((Session.start tables clock).run D.backends es).2
    let y := B.addMessage now m x.state
    D.Addition i v now m x.state y ∧
      ∀ a, y.1 = .ok a → ∀ later : List Event,
        (∀ e ∈ later, e.removes (D.shares i) m.id = false) →
          let z := (Session.run D.backends { x with state := y.2 } later).2.state
          D.row? i m.id z = D.row? i m.id y.2 ∧
            ∀ now', B.addMessage now' a z = (.ok a, z) := by
  obtain ⟨R, hR, -, hrelated⟩ := run_alike_ledgers hnew clock es
  generalize ((Session.start tables clock).run D.backends es).2 = x at hrelated
  generalize ((Session.start (fun _ => Ledger.empty) clock).run D.ledgers es).2 = t at hrelated
  have hrefines := hR.refines_of_view hv hB
  refine ⟨addition hv hB (hR.holds hrelated.state i v hv) now m, fun a ha later hlater => ?_⟩
  obtain ⟨hanswer, hstate⟩ := hrefines.addMessage now m hrelated.state
  -- the addition leaves its answer in the ledger, where it stays until the end of the session
  let W := (((Ledger.backend v.region v.codec).within v.tables).addMessage now m t.state).2
  obtain ⟨hid, hkept⟩ : a.id = m.id ∧ kept v m.id W = some a := by
    rw [ha] at hanswer
    obtain ⟨hid, hfind⟩ := Ledger.addMessage_ok hanswer.eq_ok
    refine ⟨hid, ?_⟩
    show (Function.update t.state v.tables _ v.tables).find? v.region m.id = some a
    rw [Function.update_self]
    exact hfind
  have hlast := (Session.run_alike hR.refines later (s := { x with state := _ })
    (t := { t with state := W }) ⟨hstate, hrelated.clock, hrelated.streams⟩).2
  have hstays := kept_stays_run hv m.id later hlater (t := { t with state := W }) hkept
  have hholds := hR.holds hlast.state i v hv
  refine ⟨?_, fun now' => addMessage_again hv hB hholds now' (by rw [hid]; exact hstays)⟩
  rw [row?_eq hv hholds, row?_eq hv (hR.holds hstate i v hv)]
  exact congrArg (Option.map Codec.frame) (hstays.trans hkept.symm)

/-- A message that another region has stamped is added, after it was added here and removed. -/
theorem addition_of_reachable_stamped :
    let m : Message := .create plainSpace 0 [1]
    let es : List Event := [.request 2 (.addMessage m), .request 0 (.addMessage m), .clock 7,
      .request 1 (.removeMessage m.id)]
    let v : View := ⟨Sql.foldName "INT_", "DEFAULT", .standard⟩
    let B := (Sql.Store.mk "DEFAULT" "INT_" .standard).backend
    threeStores.IsNew newDatabase ∧ threeStores.view 0 = some v ∧ threeStores.backends 0 = some B ∧
      let x := ((Session.start newDatabase 5).run threeStores.backends es).2
      let y := B.addMessage 7 (m.markSaved 5) x.state
      threeStores.Addition 0 v 7 (m.markSaved 5) x.state y ∧
        ∀ a, y.1 = .ok a → ∀ later : List Event,
          (∀ e ∈ later, e.removes (threeStores.shares 0) m.id = false) →
            let z := (Session.run threeStores.backends { x with state := y.2 } later).2.state
            threeStores.row? 0 m.id z = threeStores.row? 0 m.id y.2 ∧
              ∀ now', B.addMessage now' a z = (.ok a, z) :=
  ⟨isNew_threeStores, rfl, rfl, addition_of_reachable isNew_threeStores 5 _ rfl rfl 7 _⟩

end Depot

end MessageDepot
