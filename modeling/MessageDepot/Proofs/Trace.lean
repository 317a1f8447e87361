import MessageDepot.Store.Session

/-!
# Traces of sessions

The trace of a session has a step for each of its events, with the session as it was before and
what was answered. The stream under a name changes only with events about that name: it is put
there when it is opened, and every poll that answers takes its next key off.

Results:
* `map_event_trace`: a trace has a step for each event of a run.
* `lookup_keep`: the stream under a name after one was put.
* `step_openStream`: a stream is opened with the keys of that moment.
* `step_poll_nil`, `step_poll_cons`: a poll of a stream that has ended, or has a key left.
* `lookup_step`: every event that neither polls nor opens a stream leaves it as it is.
* `polls_eq`: what the polls of a stream answer, each from the tables of its moment.
-/
namespace MessageDepot

variable {σ ε : Type}

/-- A step of a session. -/
structure Step (σ ε : Type) where
  before : Session σ
  event : Event
  response : Response ε

namespace Event

/-- Whether the event opens a stream under a name. -/
def opens (name : String) : Event → Bool
  | .openStream _ name' => name' = name
  | _ => false

/-- Whether the event polls the stream under a name. -/
def polls (name : String) : Event → Bool
  | .poll name' => name' = name
  | _ => false

end Event

namespace Session

variable (stores : Nat → Option (Backend σ ε))

def trace (s : Session σ) : List Event → List (Step σ ε)
  | [] => []
  | e :: es => ⟨s, e, (s.step stores e).1⟩ :: trace (s.step stores e).2 es

theorem map_event_trace (es : List Event) :
    ∀ s : Session σ, (s.trace stores es).map (·.event) = es := by
  induction es with
  | nil => intro s; rfl
  | cons e es ih => intro s; rw [trace, List.map_cons, ih]

/-- A trace goes on from where the steps before have led. -/
theorem trace_append (es fs : List Event) : ∀ s : Session σ, s.trace stores (es ++ fs) =
    s.trace stores es ++ (s.run stores es).2.trace stores fs := by
  induction es with
  | nil => intro s; rfl
  | cons e es ih => intro s; rw [List.cons_append, trace, trace, List.cons_append, ih]; rfl

/-! ## Streams -/

theorem lookup_keep (s : Session σ) (name name' : String) (c : Cursor) :
    (s.keep name c).streams.lookup name' =
      if name' = name then some c else s.streams.lookup name' := by
  by_cases hn : name' = name
  · simp [keep, hn]
  · have hfilter : ∀ streams : List (String × Cursor),
        (streams.filter (·.1 ≠ name)).lookup name' = streams.lookup name' := by
      intro streams
      induction streams with
      | nil => rfl
      | cons x streams ih =>
        by_cases hx : x.1 = name
        · have hne : (name' == x.1) = false := by simpa [hx] using hn
          rw [List.filter_cons_of_neg (by simp [hx]), ih, List.lookup_cons, hne]
        · rw [List.filter_cons_of_pos (by simp [hx]), List.lookup_cons, List.lookup_cons, ih]
    simp only [keep, if_neg hn, List.lookup_cons, beq_eq_false_iff_ne.2 hn, hfilter]

variable {stores}

section
variable {s : Session σ} {name : String} {i : Nat} {B : Backend σ ε} (hB : stores i = some B)
include hB

theorem step_openStream {keys : List String} (hkeys : B.groupKeys s.state = .ok keys) :
    s.step stores (.openStream i name) = (.answered .done, s.keep name ⟨i, keys⟩) := by
  simp only [step, hB, hkeys]

theorem step_poll_nil (hc : s.streams.lookup name = some ⟨i, []⟩) :
    s.step stores (.poll name) = (.answered (.next none), s) := by
  simp only [step, hc, hB]

theorem step_poll_cons {key : String} {keys : List String}
    (hc : s.streams.lookup name = some ⟨i, key :: keys⟩) :
    s.step stores (.poll name) = (.ofExcept ((B.loadKey key s.state).map fun g => .next (some g)),
      s.keep name ⟨i, keys⟩) := by
  simp only [step, hc, hB]

end

/-- The stream under a name stays as it is until it is polled or another one is opened. -/
theorem lookup_step {s : Session σ} {name : String} {e : Event} (hopens : e.opens name = false)
    (hpolls : e.polls name = false) :
    (s.step stores e).2.streams.lookup name = s.streams.lookup name := by
  cases e with
  | clock now => rfl
  | request i q =>
    simp only [step]
    split <;> rfl
  | openStream i name' =>
    have hname : name ≠ name' := fun h => by simp [Event.opens, h] at hopens
    simp only [step]
    split
    · rfl
    · split
      · rfl
      · rw [lookup_keep, if_neg hname]
  | poll name' =>
    have hname : name ≠ name' := fun h => by simp [Event.polls, h] at hpolls
    simp only [step]
    split
    · rfl
    · split
      · rfl
      · split
        · rfl
        · rw [lookup_keep, if_neg hname]

/-- The steps of a trace that poll the stream under a name. -/
def polls (s : Session σ) (stores : Nat → Option (Backend σ ε)) (name : String)
    (es : List Event) : List (Step σ ε) :=
  (s.trace stores es).filter fun x => x.event.polls name

/-- Each poll of a stream loads the next of its keys from the tables of its moment, until there is
none left, by induction on the events with the keys that are still to come. -/
theorem polls_eq {name : String} {i : Nat} {B : Backend σ ε} (hB : stores i = some B)
    (es : List Event) : (∀ e ∈ es, e.opens name = false) →
      ∀ (s : Session σ) (keys : List String), s.streams.lookup name = some ⟨i, keys⟩ →
        ∀ (k : Nat) (x : Step σ ε), (s.polls stores name es)[k]? = some x →
          x.response = match keys[k]? with
            | some key => .ofExcept ((B.loadKey key x.before.state).map fun g => .next (some g))
            | none => .answered (.next none) := by
  induction es with
  | nil => intro _ s keys _ k x hx; cases hx
  | cons e es ih =>
    intro hopens s keys hc k x hx
    have hrest : ∀ e ∈ es, e.opens name = false := fun e he => hopens e (by simp [he])
    cases hpolls : e.polls name with
    | false =>
      have hc' : (s.step stores e).2.streams.lookup name = some ⟨i, keys⟩ :=
        (lookup_step (hopens e (by simp)) hpolls).trans hc
      rw [polls, trace, List.filter_cons_of_neg (by simp [hpolls])] at hx
      exact ih hrest _ keys hc' k x hx
    | true =>
      cases e with
      | poll name' =>
        obtain rfl : name' = name := by simpa [Event.polls] using hpolls
        rw [polls, trace, List.filter_cons_of_pos (by exact hpolls)] at hx
        cases keys with
        | nil =>
          have hstep := step_poll_nil hB hc
          cases k with
          | zero => cases hx; rw [hstep]; rfl
          | succ k =>
            rw [hstep] at hx
            exact ih hrest s [] hc k x hx
        | cons key keys =>
          have hstep := step_poll_cons hB hc
          cases k with
          | zero => cases hx; rw [hstep]; rfl
          | succ k =>
            have hc' : (s.keep name' ⟨i, keys⟩).streams.lookup name' = some ⟨i, keys⟩ := by
              rw [lookup_keep, if_pos rfl]
            rw [hstep] at hx
            exact ih hrest _ keys hc' k x hx
      | _ => cases hpolls

end Session

end MessageDepot
