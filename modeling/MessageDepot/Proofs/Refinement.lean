import Mathlib.Data.List.Forall2
import Mathlib.Logic.Function.Basic
import MessageDepot.Store.Session

/-!
# Backends that answer alike

Two results agree when both fail, whatever the errors, or both succeed with related values.
Groups are alike when they differ at most in the order of their marked members. A backend
refines another under a relation of their states (`Refines`) when every operation takes related
states to related states and answers alike. What is written on top of the operations, expiry,
iteration and whole sessions with their streams, then answers alike as well, by induction on the
keys that a pass has left and on the events of a session.

Results:
* `Refines.perform`: every request, expiry and iteration among them, is answered alike.
* `Refines.comp`: two backends that refine a third refine each other.
* `Session.run_alike`: so are all events of a session, streams polled at any time among them.
-/
namespace MessageDepot

variable {σ τ υ ε φ χ α β γ : Type}

/-! ## Answers -/

/-- Both fail, or both succeed with related values. -/
inductive Agree (rel : α → β → Prop) : Except ε α → Except φ β → Prop where
  | ok {a : α} {b : β} : rel a b → Agree rel (.ok a) (.ok b)
  | error {e : ε} {f : φ} : Agree rel (.error e) (.error f)

/-- Results that agree come with states that are related. -/
structure Steps (rel : α → β → Prop) (R : σ → τ → Prop) (x : Except ε α × σ)
    (y : Except φ β × τ) : Prop where
  answer : Agree rel x.1 y.1
  state : R x.2 y.2

/-- The same group, but for the order of the marked members. -/
structure Group.Alike (g h : Group) : Prop where
  id : g.id = h.id
  unmarked : g.unmarked = h.unmarked
  marked : g.marked.Perm h.marked
  timestamp : g.timestamp = h.timestamp

inductive Answer.Alike : Answer ε → Answer φ → Prop where
  | message (m : Message) : Alike (.message m) (.message m)
  | found (m : Option Message) : Alike (.found m) (.found m)
  | count (n : Nat) : Alike (.count n) (.count n)
  | group {g h : Group} : g.Alike h → Alike (.group g) (.group h)
  | done : Alike .done .done
  | groups {gs : List (Except ε Group)} {hs : List (Except φ Group)} :
    List.Forall₂ (Agree Group.Alike) gs hs → Alike (.groups gs) (.groups hs)
  | expired {gs hs : List Group} :
    List.Forall₂ Group.Alike gs hs → Alike (.expired gs) (.expired hs)
  | next {g h : Group} : g.Alike h → Alike (.next (some g)) (.next (some h))
  | ended : Alike (.next none) (.next none)

inductive Response.Alike : Response ε → Response φ → Prop where
  | answered {a : Answer ε} {b : Answer φ} : a.Alike b → Alike (.answered a) (.answered b)
  | failed {e : ε} {f : φ} : Alike (.failed e) (.failed f)
  | unknown : Alike .unknown .unknown

namespace Group

theorem Alike.refl (g : Group) : g.Alike g := ⟨rfl, rfl, .refl _, rfl⟩

theorem Alike.symm {g h : Group} (a : g.Alike h) : h.Alike g :=
  ⟨a.id.symm, a.unmarked.symm, a.marked.symm, a.timestamp.symm⟩

theorem Alike.trans {g h k : Group} (a : g.Alike h) (b : h.Alike k) : g.Alike k :=
  ⟨a.id.trans b.id, a.unmarked.trans b.unmarked, a.marked.trans b.marked,
    a.timestamp.trans b.timestamp⟩

end Group

theorem Agree.map {rel : α → β → Prop} {rel' : γ → χ → Prop} {f : α → γ} {g : β → χ}
    {x : Except ε α} {y : Except φ β} (h : Agree rel x y) (hr : ∀ a b, rel a b → rel' (f a) (g b)) :
    Agree rel' (x.map f) (y.map g) := by
  cases h with
  | ok h => exact .ok (hr _ _ h)
  | error => exact .error

theorem Agree.comp {rel : α → β → Prop} {rel' : γ → β → Prop} {rel'' : α → γ → Prop}
    {x : Except ε α} {y : Except φ β} {z : Except χ γ} (h : Agree rel x y) (k : Agree rel' z y)
    (hr : ∀ a b c, rel a b → rel' c b → rel'' a c) : Agree rel'' x z := by
  cases h with
  | ok h => cases k with | ok k => exact .ok (hr _ _ _ h k)
  | error => cases k with | error => exact .error

theorem Steps.comp {rel : α → β → Prop} {rel' : γ → β → Prop} {rel'' : α → γ → Prop}
    {R : σ → τ → Prop} {S : υ → τ → Prop} {x : Except ε α × σ} {y : Except φ β × τ}
    {z : Except χ γ × υ} (h : Steps rel R x y) (k : Steps rel' S z y)
    (hr : ∀ a b c, rel a b → rel' c b → rel'' a c) :
    Steps rel'' (fun s u => ∃ t, R s t ∧ S u t) x z :=
  ⟨h.answer.comp k.answer hr, y.2, h.state, k.state⟩

theorem Steps.putAt {ι : Type} [DecidableEq ι] {i : ι} {w : ι → τ} {rel : α → β → Prop}
    {R : σ → τ → Prop} {x : Except ε α × σ} {y : Except φ β × τ} (h : Steps rel R x y) :
    Steps rel (fun s w => R s (w i)) x (y.1, Function.update w i y.2) :=
  ⟨h.answer, by simpa using h.state⟩

theorem eq_comp (a b c : α) (h : a = b) (k : c = b) : a = c := h.trans k.symm

theorem alike_comp (a b c : Group) (h : a.Alike b) (k : c.Alike b) : a.Alike c := h.trans k.symm

theorem Agree.of_eq {rel : α → β → Prop} {x : Except ε α} {a : α} {b : β} (h : x = .ok a)
    (hr : rel a b) : Agree rel x (.ok b : Except φ β) := h ▸ .ok hr

/-- A result that agrees with a success is one. -/
theorem Agree.exists_ok {rel : α → β → Prop} {x : Except ε α} {b : β}
    (h : Agree rel x (.ok b : Except φ β)) : ∃ a, x = .ok a ∧ rel a b := by
  cases h with
  | ok h => exact ⟨_, rfl, h⟩

/-- What a success agrees with succeeds with the same value. -/
theorem Agree.eq_ok {x : Except φ α} {a : α} (h : Agree Eq (.ok a : Except ε α) x) : x = .ok a := by
  cases h with
  | ok e => rw [e]

theorem Agree.ofExcept {x : Except ε (Answer ε)} {y : Except φ (Answer φ)}
    (h : Agree Answer.Alike x y) : (Response.ofExcept x).Alike (.ofExcept y) := by
  cases h with
  | ok h => exact .answered h
  | error => exact .failed

/-- A list is read through when each of its elements is. -/
theorem mapM_eq_ok {f : α → Except ε β} {g : α → β} : ∀ {as : List α},
    (∀ a ∈ as, f a = .ok (g a)) → as.mapM f = .ok (as.map g)
  | [], _ => rfl
  | a :: as, h => by
    rw [List.mapM_cons, h a (by simp), mapM_eq_ok fun b hb => h b (by simp [hb])]
    rfl

/-! ## Operations -/

/-- Every operation keeps the states related and answers alike. -/
structure Refines (B : Backend σ ε) (C : Backend τ φ) (R : σ → τ → Prop) : Prop where
  addMessage : ∀ {s t} now m, R s t → Steps Eq R (B.addMessage now m s) (C.addMessage now m t)
  getMessage : ∀ {s t} id, R s t → Agree Eq (B.getMessage id s) (C.getMessage id t)
  removeMessage : ∀ {s t} id, R s t → Steps Eq R (B.removeMessage id s) (C.removeMessage id t)
  messageCount : ∀ {s t}, R s t → Agree Eq (B.messageCount s) (C.messageCount t)
  addToGroup : ∀ {s t} now g m, R s t →
    Steps Group.Alike R (B.addToGroup now g m s) (C.addToGroup now g m t)
  getGroup : ∀ {s t} g, R s t → Agree Group.Alike (B.getGroup g s) (C.getGroup g t)
  markGroup : ∀ {s t} now g, R s t →
    Steps Group.Alike R (B.markGroup now g s) (C.markGroup now g t)
  markMessage : ∀ {s t} now g id, R s t →
    Steps Group.Alike R (B.markMessage now g id s) (C.markMessage now g id t)
  removeFromGroup : ∀ {s t} g id, R s t →
    Steps Group.Alike R (B.removeFromGroup g id s) (C.removeFromGroup g id t)
  removeGroup : ∀ {s t} g, R s t → Steps Eq R (B.removeGroup g s) (C.removeGroup g t)
  groupKeys : ∀ {s t}, R s t → Agree Eq (B.groupKeys s) (C.groupKeys t)
  groupCount : ∀ {s t}, R s t → Agree Eq (B.groupCount s) (C.groupCount t)

namespace Refines

variable {B : Backend σ ε} {C : Backend τ φ} {D : Backend υ χ} {R : σ → τ → Prop} {S : υ → τ → Prop}

section
variable (h : Refines B C R)
include h

theorem loadKey {s : σ} {t : τ} (key : String) (r : R s t) :
    Agree Group.Alike (B.loadKey key s) (C.loadKey key t) :=
  h.getGroup _ r

theorem expireKeys (cutoff : Int64) (keys : List String) : ∀ {s : σ} {t : τ}, R s t →
    Steps (List.Forall₂ Group.Alike) R (B.expireKeys cutoff keys s)
      (C.expireKeys cutoff keys t) := by
  induction keys with
  | nil => intro s t r; exact ⟨.ok .nil, r⟩
  | cons key keys ih =>
    intro s t r
    have hl := h.loadKey key r
    rw [Backend.expireKeys_cons, Backend.expireKeys_cons]
    unfold Backend.expireLoaded
    generalize B.loadKey key s = x at hl ⊢
    generalize C.loadKey key t = y at hl ⊢
    cases hl with
    | error => exact ⟨.error, r⟩
    | @ok g k a =>
      -- alike groups have one timestamp, so both sides take the same branch
      have he : Backend.isExpired cutoff g = Backend.isExpired cutoff k := by
        simp only [Backend.isExpired, a.timestamp]
      simp only [he, a.id]
      split
      · obtain ⟨hr, r'⟩ := h.removeGroup k.id r
        unfold Backend.expireRemoved
        generalize (B.removeGroup k.id s).1 = x at hr ⊢
        generalize (C.removeGroup k.id t).1 = y at hr ⊢
        cases hr with
        | error => exact ⟨.error, r'⟩
        | ok _ =>
          obtain ⟨hk, r''⟩ := ih r'
          exact ⟨hk.map fun _ _ => .cons a, r''⟩
      · exact ih r

theorem expire {s : σ} {t : τ} (now : Int64) (timeout : Timeout) (r : R s t) :
    Steps (List.Forall₂ Group.Alike) R (B.expire now timeout s) (C.expire now timeout t) := by
  have hk := h.groupKeys r
  unfold Backend.expire
  generalize B.groupKeys s = x at hk ⊢
  generalize C.groupKeys t = y at hk ⊢
  cases hk with
  | error => exact ⟨.error, r⟩
  | @ok keys _ e => subst e; exact h.expireKeys _ keys r

theorem groups {s : σ} {t : τ} (r : R s t) :
    Agree (List.Forall₂ (Agree Group.Alike)) (B.groups s) (C.groups t) := by
  have hk := h.groupKeys r
  unfold Backend.groups
  generalize B.groupKeys s = x at hk ⊢
  generalize C.groupKeys t = y at hk ⊢
  cases hk with
  | error => exact .error
  | ok e =>
    subst e
    refine .ok ?_
    rw [List.forall₂_map_left_iff, List.forall₂_map_right_iff, List.forall₂_same]
    exact fun key _ => h.loadKey key r

/-- One request. -/
theorem perform {s : σ} {t : τ} (now : Int64) (q : Request) (r : R s t) :
    Steps Answer.Alike R (B.perform now q s) (C.perform now q t) := by
  cases q with
  | addMessage m =>
    obtain ⟨ha, hs⟩ := h.addMessage now m r
    exact ⟨ha.map fun a b e => e ▸ .message a, hs⟩
  | getMessage id => exact ⟨(h.getMessage id r).map fun a b e => e ▸ .found a, r⟩
  | removeMessage id =>
    obtain ⟨ha, hs⟩ := h.removeMessage id r
    exact ⟨ha.map fun a b e => e ▸ .found a, hs⟩
  | messageCount => exact ⟨(h.messageCount r).map fun a b e => e ▸ .count a, r⟩
  | addToGroup key m =>
    obtain ⟨ha, hs⟩ := h.addToGroup now key.identifier m r
    exact ⟨ha.map fun _ _ => .group, hs⟩
  | getGroup key => exact ⟨(h.getGroup key.identifier r).map fun _ _ => .group, r⟩
  | markGroup g =>
    obtain ⟨ha, hs⟩ := h.markGroup now g.id r
    exact ⟨ha.map fun _ _ => .group, hs⟩
  | markMessage key m =>
    obtain ⟨ha, hs⟩ := h.markMessage now key.identifier m.id r
    exact ⟨ha.map fun _ _ => .group, hs⟩
  | removeFromGroup key m =>
    obtain ⟨ha, hs⟩ := h.removeFromGroup key.identifier m.id r
    exact ⟨ha.map fun _ _ => .group, hs⟩
  | removeGroup key =>
    obtain ⟨ha, hs⟩ := h.removeGroup key.identifier r
    exact ⟨ha.map fun _ _ _ => .done, hs⟩
  | iterate => exact ⟨(h.groups r).map fun _ _ => .groups, r⟩
  | groupCount => exact ⟨(h.groupCount r).map fun a b e => e ▸ .count a, r⟩
  | expire timeout =>
    obtain ⟨ha, hs⟩ := h.expire now timeout r
    exact ⟨ha.map fun _ _ => .expired, hs⟩

end

/-- Two backends that refine a third refine each other, through a common state of it. -/
theorem comp (h : Refines B C R) (k : Refines D C S) :
    Refines B D fun s u => ∃ t, R s t ∧ S u t where
  addMessage now m := fun ⟨_, r, q⟩ => (h.addMessage now m r).comp (k.addMessage now m q) eq_comp
  getMessage id := fun ⟨_, r, q⟩ => (h.getMessage id r).comp (k.getMessage id q) eq_comp
  removeMessage id := fun ⟨_, r, q⟩ =>
    (h.removeMessage id r).comp (k.removeMessage id q) eq_comp
  messageCount := fun ⟨_, r, q⟩ => (h.messageCount r).comp (k.messageCount q) eq_comp
  addToGroup now g m := fun ⟨_, r, q⟩ =>
    (h.addToGroup now g m r).comp (k.addToGroup now g m q) alike_comp
  getGroup g := fun ⟨_, r, q⟩ => (h.getGroup g r).comp (k.getGroup g q) alike_comp
  markGroup now g := fun ⟨_, r, q⟩ =>
    (h.markGroup now g r).comp (k.markGroup now g q) alike_comp
  markMessage now g id := fun ⟨_, r, q⟩ =>
    (h.markMessage now g id r).comp (k.markMessage now g id q) alike_comp
  removeFromGroup g id := fun ⟨_, r, q⟩ =>
    (h.removeFromGroup g id r).comp (k.removeFromGroup g id q) alike_comp
  removeGroup g := fun ⟨_, r, q⟩ => (h.removeGroup g r).comp (k.removeGroup g q) eq_comp
  groupKeys := fun ⟨_, r, q⟩ => (h.groupKeys r).comp (k.groupKeys q) eq_comp
  groupCount := fun ⟨_, r, q⟩ => (h.groupCount r).comp (k.groupCount q) eq_comp

end Refines

/-! ## Sessions -/

namespace Session

/-- Sessions over related states, with one clock and the same streams. -/
structure Related (R : σ → τ → Prop) (s : Session σ) (t : Session τ) : Prop where
  state : R s.state t.state
  clock : s.clock = t.clock
  streams : s.streams = t.streams

variable {B : Nat → Option (Backend σ ε)} {C : Nat → Option (Backend τ φ)} {R : σ → τ → Prop}
  (h : ∀ i, Option.Rel (fun b c => Refines b c R) (B i) (C i))
include h

theorem step_alike (e : Event) {s : Session σ} {t : Session τ} (r : Related R s t) :
    (s.step B e).1.Alike (t.step C e).1 ∧ Related R (s.step B e).2 (t.step C e).2 := by
  cases e with
  | clock now => exact ⟨.answered .done, r.state, rfl, r.streams⟩
  | request i q =>
    have hi := h i
    simp only [step]
    generalize B i = b at hi ⊢
    generalize C i = c at hi ⊢
    cases hi with
    | none => exact ⟨.unknown, r⟩
    | some hi =>
      have hp := hi.perform s.clock q r.state
      rw [← r.clock]
      exact ⟨hp.answer.ofExcept, hp.state, rfl, r.streams⟩
  | openStream i name =>
    have hi := h i
    simp only [step]
    generalize B i = b at hi ⊢
    generalize C i = c at hi ⊢
    cases hi with
    | none => exact ⟨.unknown, r⟩
    | @some b c hi =>
      have hk := hi.groupKeys r.state
      simp only
      generalize b.groupKeys s.state = x at hk ⊢
      generalize c.groupKeys t.state = y at hk ⊢
      cases hk with
      | error => exact ⟨.failed, r⟩
      | ok e => subst e; exact ⟨.answered .done, r.state, r.clock, by simp [keep, r.streams]⟩
  | poll name =>
    simp only [step, ← r.streams]
    split
    · exact ⟨.unknown, r⟩
    · rename_i cursor _
      have hi := h cursor.store
      generalize B cursor.store = b at hi ⊢
      generalize C cursor.store = c at hi ⊢
      cases hi with
      | none => exact ⟨.unknown, r⟩
      | some hi =>
        cases cursor.keys with
        | nil => exact ⟨.answered .ended, r⟩
        | cons key keys =>
          have hl := hi.loadKey key r.state
          exact ⟨(hl.map fun _ _ => .next).ofExcept, r.state, r.clock, by simp [keep, r.streams]⟩

/-- All steps of two sessions from related states, by induction on the events. -/
theorem run_alike (es : List Event) : ∀ {s : Session σ} {t : Session τ}, Related R s t →
    List.Forall₂ Response.Alike (s.run B es).1 (t.run C es).1
      ∧ Related R (s.run B es).2 (t.run C es).2 := by
  induction es with
  | nil => intro s t r; exact ⟨.nil, r⟩
  | cons e es ih =>
    intro s t r
    obtain ⟨ha, r'⟩ := step_alike h e r
    obtain ⟨has, r''⟩ := ih r'
    exact ⟨.cons ha has, r''⟩

end Session

/-! ## One state among several -/

namespace Backend

variable {ι : Type} [DecidableEq ι] (i : ι) (B : Backend σ ε)

/-- A result together with the family in which the state at `i` is the new one. -/
def putAt (w : ι → σ) (x : Except ε α × σ) : Except ε α × (ι → σ) :=
  (x.1, Function.update w i x.2)

/-- A backend that works on the state at `i` of a family of states. -/
def within : Backend (ι → σ) ε where
  addMessage now m w := putAt i w (B.addMessage now m (w i))
  getMessage id w := B.getMessage id (w i)
  removeMessage id w := putAt i w (B.removeMessage id (w i))
  messageCount w := B.messageCount (w i)
  addToGroup now g m w := putAt i w (B.addToGroup now g m (w i))
  getGroup g w := B.getGroup g (w i)
  markGroup now g w := putAt i w (B.markGroup now g (w i))
  markMessage now g id w := putAt i w (B.markMessage now g id (w i))
  removeFromGroup g id w := putAt i w (B.removeFromGroup g id (w i))
  removeGroup g w := putAt i w (B.removeGroup g (w i))
  groupKeys w := B.groupKeys (w i)
  groupCount w := B.groupCount (w i)

theorem expireKeys_within (cutoff : Int64) (keys : List String) : ∀ w : ι → σ,
    (B.within i).expireKeys cutoff keys w = putAt i w (B.expireKeys cutoff keys (w i)) := by
  induction keys with
  | nil => intro w; simp [expireKeys, putAt]
  | cons key keys ih =>
    intro w
    have hl : (B.within i).loadKey key w = B.loadKey key (w i) := rfl
    rw [expireKeys_cons, expireKeys_cons, hl]
    unfold expireLoaded
    cases B.loadKey key (w i) with
    | error e => simp [putAt]
    | ok g =>
      simp only
      split
      · have hr : (B.within i).removeGroup g.id w = putAt i w (B.removeGroup g.id (w i)) := rfl
        rw [hr]
        obtain ⟨_ | _, s⟩ := B.removeGroup g.id (w i)
        · rfl
        · simp only [expireRemoved, putAt, ih, Function.update_self, Function.update_idem]
      · exact ih w

theorem expire_within (now : Int64) (timeout : Timeout) (w : ι → σ) :
    (B.within i).expire now timeout w = putAt i w (B.expire now timeout (w i)) := by
  have hk : (B.within i).groupKeys w = B.groupKeys (w i) := rfl
  unfold expire
  rw [hk]
  cases B.groupKeys (w i) with
  | error e => simp [putAt]
  | ok keys => exact B.expireKeys_within i _ keys w

theorem perform_within (now : Int64) (q : Request) (w : ι → σ) :
    (B.within i).perform now q w = putAt i w (B.perform now q (w i)) := by
  cases q with
  | expire timeout => simp only [perform, expire_within, putAt]
  | getMessage | messageCount | getGroup | iterate | groupCount =>
    simp [perform, putAt, within, groups, loadKey]
  | _ => rfl

end Backend

theorem Refines.within {B : Backend σ ε} {C : Backend τ φ} {R : σ → τ → Prop} {ι : Type}
    [DecidableEq ι] (h : Refines B C R) (i : ι) : Refines B (C.within i) fun s w => R s (w i) where
  addMessage now m := fun r => (h.addMessage now m r).putAt
  getMessage id := h.getMessage id
  removeMessage id := fun r => (h.removeMessage id r).putAt
  messageCount := h.messageCount
  addToGroup now g m := fun r => (h.addToGroup now g m r).putAt
  getGroup g := h.getGroup g
  markGroup now g := fun r => (h.markGroup now g r).putAt
  markMessage now g id := fun r => (h.markMessage now g id r).putAt
  removeFromGroup g id := fun r => (h.removeFromGroup g id r).putAt
  removeGroup g := fun r => (h.removeGroup g r).putAt
  groupKeys := h.groupKeys
  groupCount := h.groupCount

end MessageDepot
