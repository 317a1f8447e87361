import MessageDepot.Proofs.Addition
import MessageDepot.Proofs.TableInvariant

/-!
# Why an operation fails

Nothing but an addition is ever refused by a ledger, and where it refuses one, the store that keeps
it fails with an error that depends on nothing but the refusal and the message: a store in memory
looks at the place and then at the size of the message, one in a database writes the message first
and finds its place taken on the row alone. So what ledgers refuse alike fails alike, to the very
error.

Results:
* `Memory.Store.addMessage_refused`, `Sql.Store.addMessage_refused`: the error of a refusal, and
  likewise for the members of groups.
* `Depot.step_ledgers_cases`: a step of ledgers succeeds, but for additions.
* `Depot.step_same`: where the ledgers of two sessions answer alike, the stores do, errors included.
-/
namespace MessageDepot

variable {ε φ χ : Type}

/-! ## The same answer -/

/-- The errors of the groups that could not be loaded. -/
def Answer.failures : Answer ε → List ε
  | .groups gs => gs.filterMap fun
    | .error e => some e
    | .ok _ => none
  | _ => []

/-- The errors in a response. -/
def Response.failures : Response ε → List ε
  | .answered a => a.failures
  | .failed e => [e]
  | .unknown => []

/-- The same response, but for the order of marked members. -/
structure Response.Same (x y : Response ε) : Prop where
  alike : x.Alike y
  failures : x.failures = y.failures

theorem Response.Succeeds.failures_eq {x : Response ε} (h : x.Succeeds) : x.failures = [] := by
  cases h with
  | @answered a ha =>
    cases a with
    | groups gs =>
      refine List.filterMap_eq_nil_iff.2 fun g hg => ?_
      obtain ⟨G, rfl⟩ := ha g hg
      rfl
    | _ => rfl

theorem Response.Alike.failures_of_unknown {x : Response ε} (h : x.Alike (.unknown : Response φ)) :
    x.failures = [] := by
  cases h
  rfl

theorem Response.eq_error_of_failed {x : Except ε (Answer ε)} {e : ε}
    (h : ofExcept x = .failed e) : x = .error e := by
  cases x with
  | error e' => cases h; rfl
  | ok a => cases h

theorem forall₂_comp {α β γ : Type} {r : α → β → Prop} {s : γ → β → Prop} {t : α → γ → Prop}
    (hr : ∀ a b c, r a b → s c b → t a c) {as : List α} {bs : List β} {cs : List γ}
    (h : List.Forall₂ r as bs) (k : List.Forall₂ s cs bs) : List.Forall₂ t as cs := by
  induction h generalizing cs with
  | nil => cases k; exact .nil
  | cons hab _ ih =>
    cases k with
    | cons hcb k => exact .cons (hr _ _ _ hab hcb) (ih k)

theorem Answer.Alike.comp {a : Answer ε} {b : Answer φ} {c : Answer χ} (h : a.Alike b)
    (k : c.Alike b) : a.Alike c := by
  cases h with
  | message m => cases k; exact .message m
  | found m => cases k; exact .found m
  | count n => cases k; exact .count n
  | group h => cases k with | group k => exact .group (alike_comp _ _ _ h k)
  | done => cases k; exact .done
  | groups h =>
    cases k with
    | groups k => exact .groups (forall₂_comp (fun _ _ _ h k => h.comp k alike_comp) h k)
  | expired h => cases k with | expired k => exact .expired (forall₂_comp alike_comp h k)
  | next h => cases k with | next k => exact .next (alike_comp _ _ _ h k)
  | ended => cases k; exact .ended

theorem Response.Alike.comp {x : Response ε} {y : Response φ} {z : Response χ} (h : x.Alike y)
    (k : z.Alike y) : x.Alike z := by
  cases h with
  | answered h => cases k with | answered k => exact .answered (h.comp k)
  | failed => cases k; exact .failed
  | unknown => cases k; exact .unknown

/-! ## Stores in memory -/

namespace Memory.Store

variable (s : Store)

/-- The error of an addition that a ledger refuses. -/
def refusal (m : Message) : Ledger.Refusal → Error
  | .duplicate => .rowExists m.id.text
  | .tooLarge => .encode (.tooLarge (Codec.envelope m).size s.codec.maxSize)

variable {t : Tables} {L : Ledger} (h : Represents t L)
include h

theorem addMessage_refused {now : Int64} {m : Message} {e : Ledger.Refusal}
    (he : (L.addMessage s.region s.codec now m).1 = .error e) :
    (s.addMessage now m t).1 = .error (s.refusal (m.markSaved now) e) := by
  unfold Ledger.addMessage at he
  cases hf : L.find? s.region m.id with
  | some stored =>
    rw [s.addMessage_taken h now hf]
    simp only [hf] at he
    split at he
    · cases he
    · rename_i hm
      cases he
      rw [if_neg hm]
      rfl
  | none =>
    rw [s.addMessage_free h now hf]
    simp only [hf] at he
    split at he
    · cases he
    · cases he
      rw [if_pos (by omega)]
      rfl

theorem addToGroup_refused {now : Int64} {g : Uuid} {m : Message} {e : Ledger.Refusal}
    (he : (L.addToGroup s.region s.codec now g m).1 = .error e) :
    (s.addToGroup now g m t).1 = .error (s.refusal m e) := by
  unfold Ledger.addToGroup at he
  unfold addToGroup
  rw [s.any_isMember h]
  split at he
  · rename_i hd
    cases he
    rw [if_pos hd]
    rfl
  · rename_i hd
    rw [if_neg hd, Codec.encode_eq]
    split at he
    · cases he
    · cases he
      rw [if_pos (by omega)]
      rfl

end Memory.Store

/-! ## Stores in a database -/

namespace Sql.Store

variable (s : Store)

/-- The error of an addition that a ledger refuses: a message that cannot be written is not tried on
the table. -/
def refusal (m : Message) : Error :=
  if s.codec.maxSize < (Codec.envelope m).size then
    .encode (.tooLarge (Codec.envelope m).size s.codec.maxSize)
  else .statement .duplicateKey

variable {db : Database} {L : Ledger} (h : Holds s.tablePrefix db L)
include h

theorem addMessage_refused {now : Int64} {m : Message} {e : Ledger.Refusal}
    (he : (L.addMessage s.region s.codec now m).1 = .error e) :
    (s.addMessage now m db).1 = .error (s.refusal (m.markSaved now)) := by
  unfold Ledger.addMessage at he
  cases hf : L.find? s.region m.id with
  | some stored =>
    simp only [hf] at he
    split at he
    · cases he
    · rename_i hm
      rw [s.addMessage_clash h now hf hm]
      rfl
  | none =>
    rw [s.addMessage_free h now hf, refusal]
    simp only [hf] at he
    split at he
    · cases he
    · rw [if_pos (by omega), if_pos (by omega)]

theorem addToGroup_refused {now : Int64} {g : Uuid} {m : Message} {e : Ledger.Refusal}
    (he : (L.addToGroup s.region s.codec now g m).1 = .error e) :
    (s.addToGroup now g m db).1 = .error (s.refusal m) := by
  unfold addToGroup refusal
  rw [Codec.encode_eq]
  by_cases hs : (Codec.envelope m).size ≤ s.codec.maxSize
  · have hd : L.members.any (·.isAt s.region g m.id) = true := by
      unfold Ledger.addToGroup at he
      by_contra hd
      rw [if_neg hd, dif_pos hs] at he
      cases he
    obtain ⟨t, ht, hl⟩ := h.members
    have hi := hl.insert_taken (m := .enrol s.region s.codec now g m hs) hd
    have hinsert : db.insertMember s.tablePrefix
        ⟨g.text, m.id.text, s.region, some now, some 0, none, some (Codec.frame m)⟩ =
          .error .duplicateKey := by
      rw [Database.insertMember, ht]
      exact congrArg (Except.map _) hi
    rw [if_neg (by omega), if_neg (by omega)]
    simp only [hinsert]
    rfl
  · rw [if_pos (by omega), if_pos (by omega)]

end Sql.Store

/-! ## Depots -/

/-- What a ledger answers is whole. -/
theorem Ledger.isWhole_of_perform {region : String} {codec : Codec} {now : Int64} {q : Request}
    {L : Ledger} {a : Answer Ledger.Refusal}
    (h : ((backend region codec).perform now q L).1 = .ok a) : a.IsWhole := by
  cases hq : q.isAddition with
  | false =>
    obtain ⟨b, hb, hwhole⟩ := (serves region codec).perform now q L hq
    cases hb.symm.trans h
    exact hwhole
  | true =>
    cases q with
    | addMessage m =>
      simp only [Backend.perform] at h
      cases hx : ((backend region codec).addMessage now m L).1 <;> rw [hx] at h <;> cases h
      trivial
    | addToGroup key m =>
      simp only [Backend.perform] at h
      cases hx : ((backend region codec).addToGroup now key.identifier m L).1 <;> rw [hx] at h <;>
        cases h
      trivial
    | _ => cases hq

/-- An error comes through a change of the value. -/
theorem map_eq_error_iff {α β : Type} {f : α → β} {x : Except ε α} {e : ε} :
    x.map f = .error e ↔ x = .error e := by
  cases x <;> simp [Except.map]

/-- Where the second backend refuses an addition, the first fails with an error that depends on the
refusal and the addition, and on nothing of its state. -/
structure Backend.Refuses {σ τ : Type} (B : Backend σ ε) (A : Backend τ φ) (R : σ → τ → Prop) :
    Prop where
  addMessage : ∀ now m e, ∃ err, ∀ {s t}, R s t → (A.addMessage now m t).1 = .error e →
    (B.addMessage now m s).1 = .error err
  addToGroup : ∀ now g m e, ∃ err, ∀ {s t}, R s t → (A.addToGroup now g m t).1 = .error e →
    (B.addToGroup now g m s).1 = .error err

theorem Backend.Refuses.perform {σ τ : Type} {B : Backend σ ε} {A : Backend τ φ}
    {R : σ → τ → Prop} (h : B.Refuses A R) {s s' : σ} {t t' : τ} (hs : R s t) (hs' : R s' t')
    {now : Int64} {q : Request} {e : φ} (hq : q.isAddition = true)
    (he : (A.perform now q t).1 = .error e) (he' : (A.perform now q t').1 = .error e) :
    (B.perform now q s).1 = (B.perform now q s').1 := by
  cases q with
  | addMessage m =>
    obtain ⟨err, herr⟩ := h.addMessage now m e
    have hfails := herr hs (map_eq_error_iff.1 he)
    have hfails' := herr hs' (map_eq_error_iff.1 he')
    exact congrArg (Except.map _) (hfails.trans hfails'.symm)
  | addToGroup key m =>
    obtain ⟨err, herr⟩ := h.addToGroup now key.identifier m e
    have hfails := herr hs (map_eq_error_iff.1 he)
    have hfails' := herr hs' (map_eq_error_iff.1 he')
    exact congrArg (Except.map _) (hfails.trans hfails'.symm)
  | _ => cases hq

namespace Depot

variable {D : Depot}

theorem Represents.exists_backend {R : D.State → Sql.Ledgers → Prop} (hR : D.Represents R) {i : Nat}
    {v : View} (hv : D.view i = some v) : ∃ B, D.backends i = some B := by
  have hi := hR.refines i
  rw [ledgers, hv] at hi
  cases hB : D.backends i with
  | none =>
    rw [hB] at hi
    cases hi
  | some B => exact ⟨B, rfl⟩

/-- A store that keeps a ledger fails with the error of the ledger's refusal. -/
theorem refuses {i : Nat} {v : View} {B : Backend D.State D.Failure} (hv : D.view i = some v)
    (hB : D.backends i = some B) : B.Refuses (Ledger.backend v.region v.codec) (D.Holds i) := by
  cases D with
  | memory stores =>
    obtain ⟨store, hstore, rfl⟩ := Option.map_eq_some_iff.1 hv
    obtain ⟨store', hstore', rfl⟩ := Option.map_eq_some_iff.1 hB
    obtain rfl : store = store' := Option.some.inj (hstore.symm.trans hstore')
    exact {
      addMessage := fun _ _ _ => ⟨_, fun h he => store.addMessage_refused h he⟩
      addToGroup := fun _ _ _ _ => ⟨_, fun h he => store.addToGroup_refused h he⟩ }
  | database stores =>
    obtain ⟨store, hstore, rfl⟩ := Option.map_eq_some_iff.1 hv
    obtain ⟨store', hstore', rfl⟩ := Option.map_eq_some_iff.1 hB
    obtain rfl : store = store' := Option.some.inj (hstore.symm.trans hstore')
    exact {
      addMessage := fun _ _ _ => ⟨_, fun h he => store.addMessage_refused (h store hstore) he⟩
      addToGroup := fun _ _ _ _ => ⟨_, fun h he => store.addToGroup_refused (h store hstore) he⟩ }

/-- A step of ledgers is answered as a whole, or asks for nothing that is there, or is an addition
that is refused. -/
theorem step_ledgers_cases (D : Depot) (e : Event) (t : Session Sql.Ledgers) :
    (t.step D.ledgers e).1 = .unknown ∨ (t.step D.ledgers e).1.Succeeds ∨
      ∃ i q v err, e = .request i q ∧ D.view i = some v ∧
        ((Ledger.backend v.region v.codec).perform t.clock q (t.state v.tables)).1 =
          .error err := by
  cases e with
  | clock now => exact .inr (.inl (.answered trivial))
  | request i q =>
    simp only [Session.step, ledgers]
    cases hv : D.view i with
    | none => exact .inl rfl
    | some v =>
      simp only [Option.map_some, Backend.perform_within, Backend.putAt]
      cases hp : ((Ledger.backend v.region v.codec).perform t.clock q (t.state v.tables)).1 with
      | error err => exact .inr (.inr ⟨i, q, v, err, rfl, hv, hp⟩)
      | ok a => exact .inr (.inl (.answered (Ledger.isWhole_of_perform hp)))
  | openStream i name =>
    simp only [Session.step, ledgers]
    cases D.view i with
    | none => exact .inl rfl
    | some v => exact .inr (.inl (.answered trivial))
  | poll name =>
    simp only [Session.step, ledgers]
    cases t.streams.lookup name with
    | none => exact .inl rfl
    | some c =>
      simp only
      cases D.view c.store with
      | none => exact .inl rfl
      | some v =>
        simp only [Option.map_some]
        cases c.keys with
        | nil => exact .inr (.inl (.answered trivial))
        | cons key keys => exact .inr (.inl (.answered trivial))

/-- Where the ledgers of two sessions answer an event alike, the stores do, errors included. -/
theorem step_same {R : D.State → Sql.Ledgers → Prop} (hR : D.Represents R) {x x' : Session D.State}
    {t t' : Session Sql.Ledgers} (hx : Session.Related R x t) (hx' : Session.Related R x' t')
    (hclock : t.clock = t'.clock) {e : Event}
    (he : (t.step D.ledgers e).1 = (t'.step D.ledgers e).1) :
    (x.step D.backends e).1.Same (x'.step D.backends e).1 := by
  have h := (Session.step_alike hR.refines e hx).1
  have h' := (Session.step_alike hR.refines e hx').1
  rw [← he] at h'
  refine ⟨h.comp h', ?_⟩
  rcases step_ledgers_cases D e t with hunknown | hsucceeds | ⟨i, q, v, err, rfl, hv, hp⟩
  · rw [hunknown] at h h'
    rw [h.failures_of_unknown, h'.failures_of_unknown]
  · rw [(h.succeeds hsucceeds).failures_eq, (h'.succeeds hsucceeds).failures_eq]
  · obtain ⟨B, hB⟩ := hR.exists_backend hv
    have hp' : ((Ledger.backend v.region v.codec).perform t'.clock q (t'.state v.tables)).1 =
        .error err := by
      simp only [Session.step, ledgers, hv, Option.map_some, Backend.perform_within,
        Backend.putAt, hp] at he
      exact Response.eq_error_of_failed he.symm
    rw [← hclock] at hp'
    have hq : q.isAddition = true := by
      by_contra hq
      obtain ⟨a, ha, -⟩ := (Ledger.serves v.region v.codec).perform t.clock q (t.state v.tables)
        (Bool.eq_false_iff.2 hq)
      cases ha.symm.trans hp
    have hfails := (refuses hv hB).perform (hR.holds hx.state i v hv) (hR.holds hx'.state i v hv)
      hq hp hp'
    simp only [Session.step, hB, hx.clock, hx'.clock, ← hclock, hfails]

end Depot

end MessageDepot
