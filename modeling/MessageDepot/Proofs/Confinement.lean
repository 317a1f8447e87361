import Mathlib.Tactic.Choose
import MessageDepot.Proofs.Trace

/-!
# Operations that keep to their place

A state has places, such as the rows of one region in one table. An operation is confined to a
place when what it answers and what it leaves there depend on nothing else, and it leaves all
other places as they were (`Places.Confined`). Confined operations can be put together, so a
backend whose operations are each confined to one of two places, that of its messages and that of
its groups, performs every request in its place, expiry and iteration among them.

Sessions of such backends do not notice what happens elsewhere: when some operations are picked,
and none of the others has a place of a picked one, then leaving the others out changes no answer
of those that are left.

Results:
* `Places.Confined.comm`: what is confined to two places can be done in either order.
* `Backend.Confined.perform`: every request is confined to the place of its kind.
* `Session.unaffected`: picked operations answer as in the session without the others.
-/
namespace MessageDepot

variable {σ κ ε α β : Type}

/-! ## Places -/

/-- Places of a state, what is seen at each, and when two sights of one place are alike. -/
structure Places (σ κ : Type) where
  Sight : Type
  look : κ → σ → Sight
  Alike : Sight → Sight → Prop
  refl : ∀ x, Alike x x

namespace Places

variable (P : Places σ κ) (p : κ)

/-- Two states look alike at a place. -/
def Same (s t : σ) : Prop := P.Alike (P.look p s) (P.look p t)

/-- What is read depends on one place. -/
def Reads (f : σ → α) : Prop := ∀ s t, P.Same p s t → f s = f t

/-- What is answered and left at one place depends on that place, and all others stay. -/
structure Confined (f : σ → α × σ) : Prop where
  answer : ∀ {s t}, P.Same p s t → (f s).1 = (f t).1
  state : ∀ {s t}, P.Same p s t → P.Same p (f s).2 (f t).2
  elsewhere : ∀ {q s}, q ≠ p → P.look q (f s).2 = P.look q s

variable {P p}

theorem Reads.congr {f g : σ → α} (hf : P.Reads p f) (h : ∀ s, g s = f s) : P.Reads p g :=
  funext h ▸ hf

theorem Confined.congr {f g : σ → α × σ} (hf : P.Confined p f) (h : ∀ s, g s = f s) :
    P.Confined p g := funext h ▸ hf

theorem Confined.pure (a : α) : P.Confined p fun s => (a, s) where
  answer _ := rfl
  state h := h
  elsewhere _ := rfl

/-- A read that decides what is done. -/
theorem Reads.bind {f : σ → β} {g : β → σ → α × σ} (hf : P.Reads p f)
    (hg : ∀ b, P.Confined p (g b)) : P.Confined p fun s => g (f s) s where
  answer {s t} h := by rw [hf s t h]; exact (hg (f t)).answer h
  state {s t} h := by rw [hf s t h]; exact (hg (f t)).state h
  elsewhere {q s} hq := (hg (f s)).elsewhere hq

/-- An operation that is confined whatever is read first. -/
theorem Reads.cases {f : σ → β} {op : σ → α × σ} (hf : P.Reads p f)
    (h : ∀ b, ∃ g, P.Confined p g ∧ ∀ s, f s = b → op s = g s) : P.Confined p op := by
  choose g hg hop using h
  exact (hf.bind hg).congr fun s => hop (f s) s rfl

/-- One operation after another, whose answer decides what is done. -/
theorem Confined.bind {f : σ → β × σ} {g : β → σ → α × σ} (hf : P.Confined p f)
    (hg : ∀ b, P.Confined p (g b)) : P.Confined p fun s => g (f s).1 (f s).2 where
  answer {s t} h := by rw [hf.answer h]; exact (hg (f t).1).answer (hf.state h)
  state {s t} h := by rw [hf.answer h]; exact (hg (f t).1).state (hf.state h)
  elsewhere {q s} hq := ((hg (f s).1).elsewhere hq).trans (hf.elsewhere hq)

theorem Reads.map {f : σ → β} (hf : P.Reads p f) (g : β → α) : P.Reads p fun s => g (f s) :=
  fun s t h => congrArg g (hf s t h)

theorem Reads.confined {f : σ → α} (hf : P.Reads p f) : P.Confined p fun s => (f s, s) :=
  hf.bind .pure

theorem Confined.map {f : σ → β × σ} (hf : P.Confined p f) (g : β → α) :
    P.Confined p fun s => (g (f s).1, (f s).2) :=
  hf.bind fun b => .pure (g b)

/-- Operations that are confined to two places answer alike in either order, and what they leave
looks alike everywhere. -/
theorem Confined.comm {f : σ → α × σ} {g : σ → β × σ} {q : κ} (hf : P.Confined p f)
    (hg : P.Confined q g) (hpq : p ≠ q) (s : σ) : (f (g s).2).1 = (f s).1 ∧
      (g (f s).2).1 = (g s).1 ∧ ∀ r, P.Same r (g (f s).2).2 (f (g s).2).2 := by
  have hp : P.Same p s (g s).2 := by
    rw [Same, hg.elsewhere hpq]
    exact P.refl _
  have hq : P.Same q (f s).2 s := by
    rw [Same, hf.elsewhere hpq.symm]
    exact P.refl _
  refine ⟨(hf.answer hp).symm, hg.answer hq, fun r => ?_⟩
  by_cases hr : r = p
  · subst hr
    rw [Same, hg.elsewhere hpq]
    exact hf.state hp
  by_cases hr' : r = q
  · subst hr'
    rw [Same, hf.elsewhere hr]
    exact hg.state hq
  · rw [Same, hg.elsewhere hr', hf.elsewhere hr, hf.elsewhere hr, hg.elsewhere hr']
    exact P.refl _

/-- All places as one. -/
def whole (P : Places σ κ) : Places σ Unit where
  Sight := κ → P.Sight
  look _ s p := P.look p s
  Alike x y := ∀ p, P.Alike (x p) (y p)
  refl x p := P.refl (x p)

theorem Reads.whole {f : σ → α} (hf : P.Reads p f) : P.whole.Reads () f :=
  fun s t h => hf s t (h p)

theorem Confined.whole {f : σ → α × σ} (hf : P.Confined p f) : P.whole.Confined () f where
  answer h := hf.answer (h p)
  state {s t} h q := by
    by_cases hq : q = p
    · rw [hq]
      exact hf.state (h p)
    · show P.Alike (P.look q (f s).2) (P.look q (f t).2)
      rw [hf.elsewhere hq, hf.elsewhere hq]
      exact h q
  elsewhere hq := absurd rfl hq

end Places

/-! ## Rows of a region -/

section
variable (region : α → String)

def rowsIn (r : String) (rows : List α) : List α := rows.filter (region · = r)

/-- A change of rows that depends on those of a region and changes no others. -/
structure RegionLocal (r : String) (f : List α → List α) : Prop where
  own : ∀ rows, rowsIn region r (f rows) = f (rowsIn region r rows)
  others : ∀ {r'}, r' ≠ r → ∀ rows, rowsIn region r' (f rows) = rowsIn region r' rows

variable {region}

/-! What only rows of a region have is looked for among them. -/

section
variable {r : String} {p : α → Bool} (h : ∀ a, p a = true → region a = r) (rows : List α)
include h

theorem filter_rowsIn : (rowsIn region r rows).filter p = rows.filter p := by
  rw [rowsIn, List.filter_filter]
  refine List.filter_congr fun a _ => ?_
  cases hp : p a with
  | false => rfl
  | true => simp [h a hp]

theorem find?_rowsIn : (rowsIn region r rows).find? p = rows.find? p := by
  rw [← List.head?_filter, filter_rowsIn h, List.head?_filter]

theorem any_rowsIn : (rowsIn region r rows).any p = rows.any p := by
  rw [← List.isSome_find?, find?_rowsIn h, List.isSome_find?]

end

/-- No row that `p` picks goes with those that `q` picks, if they pick none in common. -/
theorem filter_not_of_apart {p q : α → Bool} (h : ∀ a, p a = true → q a = false)
    (rows : List α) : (rows.filter (!q ·)).filter p = rows.filter p := by
  rw [List.filter_filter]
  refine List.filter_congr fun a _ => ?_
  cases hp : p a with
  | false => rfl
  | true => rw [h a hp]; rfl

theorem RegionLocal.append {r : String} {a : α} (h : region a = r) :
    RegionLocal region r (· ++ [a]) where
  own rows := by simp [rowsIn, h]
  others {r'} hr rows := by simp [rowsIn, h, hr.symm]

theorem RegionLocal.filter {r : String} {gone : α → Bool} (h : ∀ a, gone a = true → region a = r) :
    RegionLocal region r (·.filter fun a => !gone a) where
  own rows := by simp only [rowsIn, List.filter_filter, Bool.and_comm]
  others {r'} hr rows := by
    refine filter_not_of_apart (fun a ha => Bool.eq_false_iff.2 fun hgone => hr ?_) rows
    rw [← h a hgone, of_decide_eq_true ha]

theorem RegionLocal.map {r : String} {f : α → α} (hkeep : ∀ a, region (f a) = region a)
    (hother : ∀ a, region a ≠ r → f a = a) : RegionLocal region r (List.map f) where
  own rows := by
    simp only [rowsIn, List.filter_map]
    congr 2
    funext a
    simp [hkeep]
  others {r'} hr rows := by
    rw [rowsIn, List.filter_map, rowsIn]
    have hregion : (fun a => decide (region a = r')) ∘ f = fun a => decide (region a = r') := by
      funext a
      simp [hkeep]
    rw [hregion]
    refine (List.map_congr_left fun a ha => ?_).trans (List.map_id _)
    have ha : region a = r' := by simpa using (List.mem_filter.1 ha).2
    exact hother a (ha ▸ hr)

end

/-! ## Operations -/

/-- What a request works on. -/
inductive Kind where
  | message
  | group
  deriving DecidableEq

def Request.kind : Request → Kind
  | .addMessage _ | .getMessage _ | .removeMessage _ | .messageCount => .message
  | _ => .group

namespace Backend

/-- The operations on messages are confined to one place and those on groups to another. -/
structure Confined (B : Backend σ ε) (P : Places σ κ) (place : Kind → κ) : Prop where
  addMessage : ∀ now m, P.Confined (place .message) (B.addMessage now m)
  getMessage : ∀ id, P.Reads (place .message) (B.getMessage id)
  removeMessage : ∀ id, P.Confined (place .message) (B.removeMessage id)
  messageCount : P.Reads (place .message) B.messageCount
  addToGroup : ∀ now g m, P.Confined (place .group) (B.addToGroup now g m)
  getGroup : ∀ g, P.Reads (place .group) (B.getGroup g)
  markGroup : ∀ now g, P.Confined (place .group) (B.markGroup now g)
  markMessage : ∀ now g id, P.Confined (place .group) (B.markMessage now g id)
  removeFromGroup : ∀ g id, P.Confined (place .group) (B.removeFromGroup g id)
  removeGroup : ∀ g, P.Confined (place .group) (B.removeGroup g)
  groupKeys : P.Reads (place .group) B.groupKeys
  groupCount : P.Reads (place .group) B.groupCount

namespace Confined

variable {B : Backend σ ε} {P : Places σ κ} {place : Kind → κ} (h : B.Confined P place)
include h

theorem loadKey (key : String) : P.Reads (place .group) (B.loadKey key) := h.getGroup _

/-- A pass of expiry, by induction on its keys. -/
theorem expireKeys (cutoff : Int64) (keys : List String) :
    P.Confined (place .group) (B.expireKeys cutoff keys) := by
  induction keys with
  | nil => exact .pure _
  | cons key keys ih =>
    refine .congr ((h.loadKey key).bind fun x => ?_) (B.expireKeys_cons cutoff key keys)
    cases x with
    | error e => exact .pure _
    | ok g =>
      by_cases he : isExpired cutoff g = true
      · refine .congr ((h.removeGroup g.id).bind (g := B.expireRemoved cutoff keys g) fun x => ?_)
          fun s => if_pos he
        cases x with
        | error e => exact .pure _
        | ok _ => exact ih.map _
      · exact ih.congr fun s => if_neg he

theorem expire (now : Int64) (timeout : Timeout) :
    P.Confined (place .group) (B.expire now timeout) := by
  refine h.groupKeys.cases fun x => ?_
  cases x with
  | error e => exact ⟨_, .pure (.error e), fun s hs => by simp only [Backend.expire, hs]⟩
  | ok keys =>
    exact ⟨_, h.expireKeys (expiryCutoff now timeout) keys, fun s hs => by
      simp only [Backend.expire, hs]⟩

theorem groups : P.Reads (place .group) B.groups := by
  intro s t hst
  have hload (key : String) : B.loadKey key s = B.loadKey key t := h.loadKey key s t hst
  unfold Backend.groups
  simp only [h.groupKeys s t hst, hload]

/-- Every request is confined to the place of its kind. -/
theorem perform (now : Int64) (q : Request) : P.Confined (place q.kind) (B.perform now q) := by
  cases q with
  | addMessage m => exact (h.addMessage now m).map _
  | getMessage id => exact ((h.getMessage id).map _).confined
  | removeMessage id => exact (h.removeMessage id).map _
  | messageCount => exact (h.messageCount.map _).confined
  | addToGroup key m => exact (h.addToGroup now key.identifier m).map _
  | getGroup key => exact ((h.getGroup key.identifier).map _).confined
  | markGroup g => exact (h.markGroup now g.id).map _
  | markMessage key m => exact (h.markMessage now key.identifier m.id).map _
  | removeFromGroup key m => exact (h.removeFromGroup key.identifier m.id).map _
  | removeGroup key => exact (h.removeGroup key.identifier).map _
  | iterate => exact (h.groups.map _).confined
  | groupCount => exact (h.groupCount.map _).confined
  | expire timeout => exact (h.expire now timeout).map _

end Confined

end Backend

/-! ## Sessions -/

/-- The store that a step asks and what it asks for, if it asks one. A poll asks the store of the
stream that is under the name. -/
def Step.asks? (x : Step σ ε) : Option (Nat × Kind) :=
  match x.event with
  | .clock _ => none
  | .request i q => some (i, q.kind)
  | .openStream i _ => some (i, .group)
  | .poll name => (x.before.streams.lookup name).map fun c => (c.store, .group)

/-- Whether a step asks no store, or for something that is picked. -/
def Step.isPicked (picks : Nat → Kind → Bool) (x : Step σ ε) : Bool :=
  x.asks?.all fun a => picks a.1 a.2

namespace Session

/-- Leaving out all steps that are not picked changes no answer of those that are. -/
def Unaffected (stores : Nat → Option (Backend σ ε)) (s : Session σ) (es : List Event)
    (picks : Nat → Kind → Bool) : Prop :=
  let picked := (s.trace stores es).filter (·.isPicked picks)
  (s.run stores (picked.map (·.event))).1 = picked.map (·.response)

/-- A session and one without the steps that are not picked: they look alike at all places that
are, and have the same streams but where a stream of the first is not picked. -/
structure Parallel (stores : Nat → Option (Backend σ ε)) (P : Places σ κ) (place : Nat → Kind → κ)
    (picks : Nat → Kind → Bool) (s t : Session σ) : Prop where
  state : ∀ i k, (stores i).isSome → picks i k = true → P.Same (place i k) s.state t.state
  clock : s.clock = t.clock
  streams : ∀ name, s.streams.lookup name = t.streams.lookup name ∨
    ∃ c, s.streams.lookup name = some c ∧ picks c.store .group = false

variable {stores : Nat → Option (Backend σ ε)} {P : Places σ κ} {place : Nat → Kind → κ}
  {picks : Nat → Kind → Bool}

theorem Parallel.refl (s : Session σ) : Parallel stores P place picks s s :=
  ⟨fun _ _ _ _ => P.refl _, rfl, fun _ => .inl rfl⟩

/-- A stream that is put under one name in both. -/
theorem Parallel.keep {s t : Session σ} (r : Parallel stores P place picks s t) (name : String)
    (c : Cursor) : Parallel stores P place picks (s.keep name c) (t.keep name c) where
  state := r.state
  clock := r.clock
  streams name' := by
    rw [lookup_keep, lookup_keep]
    split
    · exact .inl rfl
    · exact r.streams name'

/-- A stream that is put under a name in the first alone, and is not picked. -/
theorem Parallel.keep_left {s t : Session σ} (r : Parallel stores P place picks s t)
    (name : String) {c : Cursor} (hc : picks c.store .group = false) :
    Parallel stores P place picks (s.keep name c) t where
  state := r.state
  clock := r.clock
  streams name' := by
    rw [lookup_keep]
    split
    · exact .inr ⟨c, rfl, hc⟩
    · exact r.streams name'

variable (hstores : ∀ i, ∀ B ∈ stores i, B.Confined P (place i))
include hstores

/-- A step that is picked, in both sessions. -/
theorem step_picked {s t : Session σ} (r : Parallel stores P place picks s t) (e : Event)
    (hpicks : (Step.mk s e (s.step stores e).1).isPicked picks = true) :
    (s.step stores e).1 = (t.step stores e).1 ∧
      Parallel stores P place picks (s.step stores e).2 (t.step stores e).2 := by
  cases e with
  | clock now => exact ⟨rfl, r.state, rfl, r.streams⟩
  | request i q =>
    have hq : picks i q.kind = true := hpicks
    simp only [step]
    cases hB : stores i with
    | none => exact ⟨rfl, r⟩
    | some B =>
      have hperform := (hstores i B hB).perform s.clock q
      have hsame := r.state i q.kind (by simp [hB]) hq
      rw [← r.clock]
      refine ⟨congrArg Response.ofExcept (hperform.answer hsame), fun j l hj hjl => ?_, rfl,
        r.streams⟩
      by_cases hplace : place j l = place i q.kind
      · rw [hplace]
        exact hperform.state hsame
      · have hother := r.state j l hj hjl
        simp only [Places.Same, hperform.elsewhere hplace]
        exact hother
  | openStream i name =>
    have hi : picks i .group = true := hpicks
    simp only [step]
    cases hB : stores i with
    | none => exact ⟨rfl, r⟩
    | some B =>
      have hkeys := (hstores i B hB).groupKeys _ _ (r.state i .group (by simp [hB]) hi)
      simp only [hkeys]
      cases B.groupKeys t.state with
      | error e => exact ⟨rfl, r⟩
      | ok keys => exact ⟨rfl, r.keep name _⟩
  | poll name =>
    have hlookup : s.streams.lookup name = t.streams.lookup name := by
      refine (r.streams name).resolve_right ?_
      rintro ⟨c, hc, hunpicked⟩
      simp [Step.isPicked, Step.asks?, hc, hunpicked] at hpicks
    simp only [step, ← hlookup]
    cases hc : s.streams.lookup name with
    | none => exact ⟨rfl, r⟩
    | some c =>
      have hpicked : picks c.store .group = true := by
        simpa [Step.isPicked, Step.asks?, hc] using hpicks
      simp only
      cases hB : stores c.store with
      | none => exact ⟨rfl, r⟩
      | some B =>
        have hsame := r.state c.store .group (by simp [hB]) hpicked
        cases hkeys : c.keys with
        | nil => exact ⟨rfl, r⟩
        | cons key keys =>
          have hload := (hstores c.store B hB).loadKey key _ _ hsame
          exact ⟨congrArg (fun a => Response.ofExcept (a.map fun g => .next (some g))) hload,
            r.keep name _⟩

variable (hplaces : ∀ i k j l, (stores i).isSome → (stores j).isSome → picks i k = true →
  picks j l = false → place i k ≠ place j l)
include hplaces

/-- A step that is not picked, in the first session alone. -/
theorem step_unpicked {s t : Session σ} (r : Parallel stores P place picks s t) (e : Event)
    (hpicks : (Step.mk s e (s.step stores e).1).isPicked picks = false) :
    Parallel stores P place picks (s.step stores e).2 t := by
  cases e with
  | clock now => cases hpicks
  | request i q =>
    have hq : picks i q.kind = false := hpicks
    simp only [step]
    cases hB : stores i with
    | none => exact r
    | some B =>
      have hperform := (hstores i B hB).perform s.clock q
      refine ⟨fun j l hj hjl => ?_, r.clock, r.streams⟩
      have hplace := hplaces j l i q.kind hj (by simp [hB]) hjl hq
      have hother := r.state j l hj hjl
      simp only [Places.Same, hperform.elsewhere hplace]
      exact hother
  | openStream i name =>
    have hi : picks i .group = false := hpicks
    simp only [step]
    cases stores i with
    | none => exact r
    | some B =>
      simp only
      cases B.groupKeys s.state with
      | error e => exact r
      | ok keys => exact r.keep_left name (c := ⟨i, keys⟩) hi
  | poll name =>
    simp only [step]
    cases hc : s.streams.lookup name with
    | none => simp [Step.isPicked, Step.asks?, hc] at hpicks
    | some c =>
      have hunpicked : picks c.store .group = false := by
        simpa [Step.isPicked, Step.asks?, hc] using hpicks
      simp only
      cases stores c.store with
      | none => exact r
      | some B =>
        cases c.keys with
        | nil => exact r
        | cons key keys => exact r.keep_left name hunpicked

/-- All steps of a session and those that are picked in another, by induction on the events. -/
theorem run_parallel (es : List Event) : ∀ {s t : Session σ}, Parallel stores P place picks s t →
    (t.run stores (((s.trace stores es).filter (·.isPicked picks)).map (·.event))).1 =
      ((s.trace stores es).filter (·.isPicked picks)).map (·.response) := by
  induction es with
  | nil => intro s t _; rfl
  | cons e es ih =>
    intro s t r
    rw [trace]
    cases hpicks : (Step.mk s e (s.step stores e).1).isPicked picks with
    | true =>
      obtain ⟨hresponse, r'⟩ := step_picked hstores r e hpicks
      rw [List.filter_cons_of_pos hpicks, List.map_cons, List.map_cons, run, ← ih r', hresponse]
    | false =>
      rw [List.filter_cons_of_neg (by simp [hpicks])]
      exact ih (step_unpicked hstores hplaces r e hpicks)

/-- When none of the operations that are not picked has a place of one that is, leaving them out
changes no answer of the others. -/
theorem unaffected (s : Session σ) (es : List Event) : s.Unaffected stores es picks :=
  run_parallel hstores hplaces es (.refl s)

end Session

end MessageDepot
