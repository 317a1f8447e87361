import MessageDepot.Message

/-!
# Message groups

The members of a group in two lists, those still to be worked on and those marked as done,
with the clock at which the oldest member joined. A group without members has no such clock.
-/
namespace MessageDepot

/-- The members of a group as they were loaded (`MessageGroup`). -/
structure Group where
  id : Uuid
  unmarked : List Message
  marked : List Message
  timestamp : Option Int64
  deriving DecidableEq, Repr

namespace Group

/-- The group of a key under which nothing is stored (`MessageGroup.empty`). -/
def empty (id : Uuid) : Group := ⟨id, [], [], none⟩

/-- The number of members (`MessageGroup.size`). -/
def size (g : Group) : Nat := g.unmarked.length + g.marked.length

/-- Whether there are no members (`MessageGroup.is_empty`). -/
def isEmpty (g : Group) : Bool := g.size = 0

/-- Whether a member has the identifier, marked or not (`MessageGroup.contains`). -/
def contains (g : Group) (id : Uuid) : Bool := (g.unmarked ++ g.marked).any (·.id = id)

end Group

end MessageDepot
