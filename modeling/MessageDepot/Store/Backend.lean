import MessageDepot.Expiry
import MessageDepot.Group
import MessageDepot.Key

/-!
# What a store does

A backend keeps messages and message groups in some state, for one region of it. Single
messages are stored under their identifiers; groups under the text of their keys, one row for
each member. Every operation that changes a group answers the group as it is stored afterwards.

Iterating over the groups takes the stored keys once and loads each group when its turn comes,
through the key text. Expiry is written once for every backend, on top of iteration.

Results:
* `expireKeys_cons`: one key of a pass of expiry, as three steps that follow each other.
-/
namespace MessageDepot

/-- The operations of a store on states `σ`, with errors `ε`: those of `MessageStore`, and from
`addToGroup` on those of `MessageGroupStore`. An operation that fails may have changed the
state. -/
structure Backend (σ ε : Type) where
  addMessage : Int64 → Message → σ → Except ε Message × σ
  getMessage : Uuid → σ → Except ε (Option Message)
  removeMessage : Uuid → σ → Except ε (Option Message) × σ
  messageCount : σ → Except ε Nat
  /-- Adds an unmarked member (`add_message_to_group`). -/
  addToGroup : Int64 → Uuid → Message → σ → Except ε Group × σ
  /-- Loads a group (`get_message_group`). -/
  getGroup : Uuid → σ → Except ε Group
  /-- Marks every unmarked member of a group (`mark_message_group`). -/
  markGroup : Int64 → Uuid → σ → Except ε Group × σ
  /-- Marks one member of a group (`mark_message_from_group`). -/
  markMessage : Int64 → Uuid → Uuid → σ → Except ε Group × σ
  /-- Removes one member of a group (`remove_message_from_group`). -/
  removeFromGroup : Uuid → Uuid → σ → Except ε Group × σ
  /-- Removes all members of a group (`remove_message_group`). -/
  removeGroup : Uuid → σ → Except ε Unit × σ
  /-- The stored keys of the region, each once: what `iterate_groups` starts from. -/
  groupKeys : σ → Except ε (List String)
  /-- The number of groups with members (`message_group_count`). -/
  groupCount : σ → Except ε Nat

namespace Backend

variable {σ ε : Type} (B : Backend σ ε)

/-- Loads the group of a stored key, as a stream of `iterate_groups` does when it is polled. -/
def loadKey (key : String) (s : σ) : Except ε Group := B.getGroup (Key.text key).identifier s

/-- Whether the oldest member of a group joined before a clock. -/
def isExpired (cutoff : Int64) (g : Group) : Bool := g.timestamp.any (· < cutoff)

/-- Removes the expired ones of the groups of `keys` and gives them as they were: the loop of
`expire_message_groups`. The first group that cannot be loaded or removed ends the pass; what
was removed before stays removed. -/
def expireKeys (cutoff : Int64) : List String → σ → Except ε (List Group) × σ
  | [], s => (.ok [], s)
  | key :: keys, s =>
    match B.loadKey key s with
    | .error e => (.error e, s)
    | .ok g =>
      if isExpired cutoff g then
        match B.removeGroup g.id s with
        | (.error e, s) => (.error e, s)
        | (.ok (), s) =>
          match expireKeys cutoff keys s with
          | (.error e, s) => (.error e, s)
          | (.ok gs, s) => (.ok (g :: gs), s)
      else expireKeys cutoff keys s

/-- Removes the groups whose oldest member is older than the timeout, and gives them
(`expire_message_groups`). -/
def expire (now : Int64) (timeout : Timeout) (s : σ) : Except ε (List Group) × σ :=
  match B.groupKeys s with
  | .error e => (.error e, s)
  | .ok keys => B.expireKeys (expiryCutoff now timeout) keys s

/-- Every group of the region, loaded from one state: a stream of `iterate_groups` that is
polled to its end with nothing in between. -/
def groups (s : σ) : Except ε (List (Except ε Group)) :=
  match B.groupKeys s with
  | .error e => .error e
  | .ok keys => .ok (keys.map fun key => B.loadKey key s)

/-! ## A pass of expiry, key by key -/

/-- What a pass of expiry does when the removal of a group was answered. -/
def expireRemoved (cutoff : Int64) (keys : List String) (g : Group)
    (x : Except ε Unit) (s : σ) : Except ε (List Group) × σ :=
  match x with
  | .error e => (.error e, s)
  | .ok () => ((B.expireKeys cutoff keys s).1.map (g :: ·), (B.expireKeys cutoff keys s).2)

/-- What a pass of expiry does when the load of a group was answered. -/
def expireLoaded (cutoff : Int64) (keys : List String) (x : Except ε Group)
    (s : σ) : Except ε (List Group) × σ :=
  match x with
  | .error e => (.error e, s)
  | .ok g =>
    if isExpired cutoff g then
      B.expireRemoved cutoff keys g (B.removeGroup g.id s).1 (B.removeGroup g.id s).2
    else B.expireKeys cutoff keys s

theorem expireKeys_cons (cutoff : Int64) (key : String) (keys : List String)
    (s : σ) : B.expireKeys cutoff (key :: keys) s =
      B.expireLoaded cutoff keys (B.loadKey key s) s := by
  unfold expireKeys expireLoaded expireRemoved
  cases B.loadKey key s with
  | error e => rfl
  | ok g =>
    simp only
    split
    · obtain ⟨_ | _, s'⟩ := B.removeGroup g.id s
      · rfl
      · simp only
        obtain ⟨_ | _, _⟩ := B.expireKeys cutoff keys s' <;> rfl
    · rfl

end Backend

end MessageDepot
