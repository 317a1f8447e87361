import MessageDepot.Proofs.Refinement

/-!
# Histories

The history of a session lists its requests, each with its step, the clock at which it was made
and what came of it. For a group it tells which additions still stand, namely those after which
nothing has removed their member, and which of these are marked, namely those after which
something has marked it. `advance` says the same one request at a time: what stands after a
request, given what stood before.

Results:
* `history_congr`: sessions that are answered alike have one history.
* `foldl_advance`: what stands by the whole history, and request by request.
* `pairwise_standing`: what stands is listed in the order of the steps.
-/
namespace MessageDepot

variable {ε φ : Type}

namespace Response

def isAnswered : Response ε → Bool
  | .answered _ => true
  | _ => false

theorem ofExcept_eq_answered {x : Except ε (Answer ε)} {a : Answer ε}
    (h : ofExcept x = .answered a) : x = .ok a := by
  cases x with
  | error e => cases h
  | ok b => cases h; rfl

/-- The groups that a pass of expiry has removed. -/
def expired : Response ε → List Uuid
  | .answered (.expired gs) => gs.map (·.id)
  | _ => []

end Response

/-- The group that a request changes and answers. -/
def Request.changed? : Request → Option Uuid
  | .addToGroup key _ | .markMessage key _ | .removeFromGroup key _ => some key.identifier
  | .markGroup g => some g.id
  | _ => none

/-- A request to one of several stores, and what came of it. -/
structure Record where
  step : Nat
  clock : Int64
  store : Nat
  request : Request
  succeeded : Bool
  expired : List Uuid

/-- The requests among the events of a session, from the step `n` and a clock on. -/
def history : Nat → Int64 → List Event → List (Response ε) → List Record
  | n, _, .clock now :: es, _ :: rs => history (n + 1) now es rs
  | n, clock, .request i q :: es, r :: rs =>
    ⟨n, clock, i, q, r.isAnswered, r.expired⟩ :: history (n + 1) clock es rs
  | n, clock, _ :: es, _ :: rs => history (n + 1) clock es rs
  | _, _, _, _ => []

/-- A member with the clock of its addition. -/
structure Standing where
  clock : Int64
  message : Message
  marked : Bool
  deriving DecidableEq, Repr

namespace Standing

def mark (covered : Bool) (e : Standing) : Standing := { e with marked := e.marked || covered }

end Standing

/-! ## What requests do to a group -/

section
variable (sees : Nat → Bool) (g : Uuid)

namespace Record

/-- The message that has become a member of the group. -/
def added? (r : Record) : Option Message :=
  match r.request with
  | .addToGroup key m =>
    if sees r.store && r.succeeded && key.identifier = g then some m else none
  | _ => none

/-- Whether the member of an identifier has been removed from the group. -/
def removes (id : Uuid) (r : Record) : Bool :=
  sees r.store && r.succeeded &&
    match r.request with
    | .removeFromGroup key m => key.identifier = g && m.id = id
    | .removeGroup key => key.identifier = g
    | .expire _ => g ∈ r.expired
    | _ => false

/-- Whether the member of an identifier has been marked in the group. -/
def marks (id : Uuid) (r : Record) : Bool :=
  sees r.store && r.succeeded &&
    match r.request with
    | .markGroup group => group.id = g
    | .markMessage key m => key.identifier = g && m.id = id
    | _ => false

end Record

/-- The additions that nothing has undone, with their steps. -/
def standing : List Record → List (Nat × Standing)
  | [] => []
  | r :: rs =>
    match r.added? sees g with
    | some m =>
      if rs.any (·.removes sees g m.id) then standing rs
      else (r.step, ⟨r.clock, m, rs.any (·.marks sees g m.id)⟩) :: standing rs
    | none => standing rs

/-- What of some members is left by later requests. -/
def remaining (rs : List Record) (es : List Standing) : List Standing :=
  (es.filter fun e => !rs.any (·.removes sees g e.message.id)).map fun e =>
    e.mark (rs.any (·.marks sees g e.message.id))

/-- The members after a request. -/
def advance (es : List Standing) (r : Record) : List Standing :=
  remaining sees g [r] es ++ (r.added? sees g).toList.map (⟨r.clock, ·, false⟩)

theorem remaining_nil (es : List Standing) : remaining sees g [] es = es := by
  simp [remaining, Standing.mark]

theorem remaining_append (rs : List Record) (es fs : List Standing) :
    remaining sees g rs (es ++ fs) = remaining sees g rs es ++ remaining sees g rs fs := by
  simp [remaining]

theorem remaining_cons (r : Record) (rs : List Record) (es : List Standing) :
    remaining sees g (r :: rs) es = remaining sees g rs (remaining sees g [r] es) := by
  simp only [remaining, List.filter_map, List.map_map, List.filter_filter]
  have hf : (fun e : Standing => !(r :: rs).any (·.removes sees g e.message.id)) = fun e =>
      ((fun e : Standing => !rs.any (·.removes sees g e.message.id)) ∘ fun e : Standing =>
        e.mark ([r].any (·.marks sees g e.message.id))) e &&
          !([r].any (·.removes sees g e.message.id)) := by
    funext e
    simp [Standing.mark, Bool.and_comm]
  rw [hf]
  refine List.map_congr_left fun e _ => ?_
  simp [Standing.mark, Bool.or_assoc]

/-- What stands by a history, request by request. -/
theorem foldl_advance (rs : List Record) : ∀ es, rs.foldl (advance sees g) es =
    remaining sees g rs es ++ (standing sees g rs).map (·.2) := by
  induction rs with
  | nil => intro es; simp [remaining_nil, standing]
  | cons r rs ih =>
    intro es
    rw [List.foldl_cons, ih, advance, remaining_append, ← remaining_cons, List.append_assoc]
    congr 1
    rw [standing]
    cases r.added? sees g with
    | none => simp [remaining]
    | some m =>
      simp only [Option.toList_some, List.map_cons, List.map_nil, remaining]
      by_cases hr : rs.any (·.removes sees g m.id)
      · simp [hr]
      · simp [hr, Standing.mark]

/-- A request that does not concern the group leaves its members alone. -/
theorem advance_idle {r : Record} (ha : r.added? sees g = none)
    (hr : ∀ id, r.removes sees g id = false) (hm : ∀ id, r.marks sees g id = false)
    (es : List Standing) : advance sees g es r = es := by
  simp [advance, remaining, ha, hr, hm, Standing.mark]

theorem advance_unseen {r : Record} (h : sees r.store = false) (es : List Standing) :
    advance sees g es r = es := by
  refine advance_idle sees g ?_ ?_ ?_ es
  · unfold Record.added?
    split
    · simp [h]
    · rfl
  · intro id
    simp [Record.removes, h]
  · intro id
    simp [Record.marks, h]

/-- So does one that has failed. -/
theorem advance_failed {r : Record} (h : r.succeeded = false) (es : List Standing) :
    advance sees g es r = es := by
  refine advance_idle sees g ?_ ?_ ?_ es
  · unfold Record.added?
    split
    · simp [h]
    · rfl
  · intro id
    simp [Record.removes, h]
  · intro id
    simp [Record.marks, h]

theorem sublist_standing (rs : List Record) :
    ((standing sees g rs).map (·.1)).Sublist (rs.map (·.step)) := by
  induction rs with
  | nil => exact .slnil
  | cons r rs ih =>
    rw [standing]
    split
    · split
      · exact ih.cons _
      · exact ih.cons_cons _
    · exact ih.cons _

end

/-! ## Histories of sessions -/

theorem Response.Alike.isAnswered_eq {x : Response ε} {y : Response φ} (h : x.Alike y) :
    x.isAnswered = y.isAnswered := by
  cases h <;> rfl

theorem Response.Alike.expired_eq {x : Response ε} {y : Response φ} (h : x.Alike y) :
    x.expired = y.expired := by
  cases h with
  | answered h =>
    cases h with
    | expired h =>
      show List.map _ _ = List.map _ _
      induction h with
      | nil => rfl
      | cons a _ ih => rw [List.map_cons, List.map_cons, a.id, ih]
    | _ => rfl
  | _ => rfl

/-- Sessions that are answered alike have one history. -/
theorem history_congr {xs : List (Response ε)} {ys : List (Response φ)}
    (h : List.Forall₂ Response.Alike xs ys) : ∀ (n : Nat) (clock : Int64) (es : List Event),
      history n clock es xs = history n clock es ys := by
  induction h with
  | nil => intro n clock es; cases es with
    | nil => rfl
    | cons e es => cases e <;> rfl
  | cons a _ ih =>
    intro n clock es
    cases es with
    | nil => rfl
    | cons e es =>
      cases e with
      | request i q => rw [history, history, ih, a.isAnswered_eq, a.expired_eq]
      | _ => exact ih ..

/-- The last event of a session comes after all others. -/
theorem Session.run_concat {σ : Type} (B : Nat → Option (Backend σ ε)) (es : List Event)
    (e : Event) : ∀ s : Session σ, s.run B (es ++ [e]) =
      ((s.run B es).1 ++ [((s.run B es).2.step B e).1], ((s.run B es).2.step B e).2) := by
  induction es with
  | nil => intro s; rfl
  | cons f es ih =>
    intro s
    simp only [List.cons_append, run, ih]

theorem sublist_history (es : List Event) : ∀ (n : Nat) (clock : Int64) (rs : List (Response ε)),
    ((history n clock es rs).map (·.step)).Sublist (List.range' n es.length) := by
  induction es with
  | nil => intro n clock rs; exact .slnil
  | cons e es ih =>
    intro n clock rs
    rw [List.length_cons, List.range'_succ]
    cases rs with
    | nil => cases e <;> exact List.nil_sublist _
    | cons r rs =>
      cases e with
      | request i q => exact (ih ..).cons_cons n
      | _ => exact (ih ..).cons n

/-- What stands is listed in the order of the steps. -/
theorem pairwise_standing (sees : Nat → Bool) (g : Uuid) (n : Nat) (clock : Int64)
    (es : List Event) (rs : List (Response ε)) :
    (standing sees g (history n clock es rs)).Pairwise fun a b => a.1 < b.1 := by
  have hs := (sublist_standing sees g _).trans (sublist_history es n clock rs)
  exact List.pairwise_map.1 (List.Pairwise.sublist hs (List.pairwise_lt_range' 1))

end MessageDepot
