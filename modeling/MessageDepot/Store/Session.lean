import MessageDepot.Store.Backend

/-!
# Sessions

A session runs requests through several stores over one state, under a clock that only the
session moves. Opened streams of groups are part of it: a stream keeps the keys that it still
has to yield, and loads the next group when it is polled, whether that succeeds or not.
-/
namespace MessageDepot

/-- One operation of a store. -/
inductive Request where
  | addMessage (m : Message)
  | getMessage (id : Uuid)
  | removeMessage (id : Uuid)
  | messageCount
  | addToGroup (key : Key) (m : Message)
  | getGroup (key : Key)
  /-- Marks the stored members of the group's key, whatever members the value lists. -/
  | markGroup (g : Group)
  | markMessage (key : Key) (m : Message)
  | removeFromGroup (key : Key) (m : Message)
  | removeGroup (key : Key)
  | iterate
  | groupCount
  | expire (timeout : Timeout)

/-- What an operation that succeeds answers. -/
inductive Answer (ε : Type) where
  | message (m : Message)
  | found (m : Option Message)
  | count (n : Nat)
  | group (g : Group)
  | done
  | groups (gs : List (Except ε Group))
  | expired (gs : List Group)
  /-- The next group of a stream, or its end. -/
  | next (g : Option Group)

namespace Backend

variable {σ ε : Type} (B : Backend σ ε)

/-- Performs a request at a clock. -/
def perform (now : Int64) (r : Request) (s : σ) : Except ε (Answer ε) × σ :=
  match r with
  | .addMessage m => let (a, s) := B.addMessage now m s; (a.map .message, s)
  | .getMessage id => ((B.getMessage id s).map .found, s)
  | .removeMessage id => let (a, s) := B.removeMessage id s; (a.map .found, s)
  | .messageCount => ((B.messageCount s).map .count, s)
  | .addToGroup key m =>
    let (a, s) := B.addToGroup now key.identifier m s; (a.map .group, s)
  | .getGroup key => ((B.getGroup key.identifier s).map .group, s)
  | .markGroup g => let (a, s) := B.markGroup now g.id s; (a.map .group, s)
  | .markMessage key m =>
    let (a, s) := B.markMessage now key.identifier m.id s; (a.map .group, s)
  | .removeFromGroup key m =>
    let (a, s) := B.removeFromGroup key.identifier m.id s; (a.map .group, s)
  | .removeGroup key => let (a, s) := B.removeGroup key.identifier s; (a.map fun _ => .done, s)
  | .iterate => ((B.groups s).map .groups, s)
  | .groupCount => ((B.groupCount s).map .count, s)
  | .expire timeout => let (a, s) := B.expire now timeout s; (a.map .expired, s)

end Backend

/-- A stream that has been opened: its store and the keys to come. -/
structure Cursor where
  store : Nat
  keys : List String
  deriving DecidableEq, Repr

structure Session (σ : Type) where
  state : σ
  clock : Int64
  streams : List (String × Cursor)

/-- One step of a session. -/
inductive Event where
  | clock (now : Int64)
  | request (store : Nat) (r : Request)
  | openStream (store : Nat) (name : String)
  | poll (name : String)

/-- What a step answers. -/
inductive Response (ε : Type) where
  | answered (a : Answer ε)
  | failed (e : ε)
  /-- There is no such store or stream. -/
  | unknown

namespace Response

variable {ε : Type}

def ofExcept : Except ε (Answer ε) → Response ε
  | .ok a => .answered a
  | .error e => .failed e

end Response

namespace Session

variable {σ ε : Type}

def start (state : σ) (clock : Int64) : Session σ := ⟨state, clock, []⟩

/-- Puts a stream under a name, in place of the one that was there. -/
def keep (s : Session σ) (name : String) (c : Cursor) : Session σ :=
  { s with streams := (name, c) :: s.streams.filter (·.1 ≠ name) }

/-- One step with the given stores. -/
def step (stores : Nat → Option (Backend σ ε)) (s : Session σ) : Event → Response ε × Session σ
  | .clock now => (.answered .done, { s with clock := now })
  | .request i r =>
    match stores i with
    | none => (.unknown, s)
    | some B =>
      let (a, state) := B.perform s.clock r s.state
      (.ofExcept a, { s with state := state })
  | .openStream i name =>
    match stores i with
    | none => (.unknown, s)
    | some B =>
      match B.groupKeys s.state with
      | .error e => (.failed e, s)
      | .ok keys => (.answered .done, s.keep name ⟨i, keys⟩)
  | .poll name =>
    match s.streams.lookup name with
    | none => (.unknown, s)
    | some c =>
      match stores c.store with
      | none => (.unknown, s)
      | some B =>
        match c.keys with
        | [] => (.answered (.next none), s)
        | key :: keys =>
          let a := (B.loadKey key s.state).map fun g => Answer.next (some g)
          (.ofExcept a, s.keep name { c with keys := keys })

/-- All steps of a run, with their responses. -/
def run (stores : Nat → Option (Backend σ ε)) (s : Session σ) :
    List Event → List (Response ε) × Session σ
  | [] => ([], s)
  | e :: es =>
    let (r, s) := s.step stores e
    let (rs, s) := run stores s es
    (r :: rs, s)

end Session

end MessageDepot
