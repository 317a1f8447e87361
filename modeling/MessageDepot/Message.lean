import MessageDepot.Calendar
import MessageDepot.Decimal
import MessageDepot.Headers
import MessageDepot.Uuid.Basic

/-!
# Messages

A message has an identifier, a timestamp in milliseconds, headers and a payload. A store
stamps the messages it keeps with two headers: a flag, and the clock at which it took them.

Results:
* `isSaved_markSaved`, `createdDate?_markSaved`: a stamp is read back as it was put.
-/
namespace MessageDepot

structure Message where
  id : Uuid
  timestamp : Int64
  headers : Headers
  payload : Bytes
  deriving DecidableEq, Repr

namespace Message

/-- Header that flags a stored message (`SAVED_KEY`). -/
def savedHeader : String := "MessageStore.SAVED"

/-- Header with the clock at which a message was stored (`CREATED_DATE_KEY`). -/
def createdDateHeader : String := "MessageStore.CREATED_DATE"

/-- A message without headers (`Message.new`); the identifier is drawn outside. -/
def create (id : Uuid) (now : Int64) (payload : Bytes) : Message := ⟨id, now, .empty, payload⟩

/-- The value of a header (`Message.header`). -/
def header? (m : Message) (name : String) : Option String := m.headers.get? name

/-- Adds a header, or replaces the one of its name (`Message.with_header`). -/
def withHeader (m : Message) (name value : String) : Message :=
  { m with headers := m.headers.insert name value }

/-- The timestamp as calendar time, within the years that the calendar covers
(`Message.created_at`). -/
def createdAt? (m : Message) : Option DateTime := DateTime.ofMillis? m.timestamp.toInt

/-- Whether a store has stamped the message (`Message.is_saved`). -/
def isSaved (m : Message) : Bool := m.header? savedHeader = some "true"

/-- The clock of the stamp, if it is a signed 64-bit number (`Message.created_date`). -/
def createdDate? (m : Message) : Option Int64 := (m.header? createdDateHeader).bind Decimal.int64?

/-- Stamps the message as stored at a clock (`Message.mark_saved`). -/
def markSaved (m : Message) (now : Int64) : Message :=
  (m.withHeader savedHeader "true").withHeader createdDateHeader (Decimal.text now.toInt)

@[simp] theorem isSaved_markSaved (m : Message) (now : Int64) : (m.markSaved now).isSaved = true := by
  simp [isSaved, header?, markSaved, withHeader, savedHeader, createdDateHeader]

@[simp] theorem createdDate?_markSaved (m : Message) (now : Int64) :
    (m.markSaved now).createdDate? = some now := by
  simp [createdDate?, header?, markSaved, withHeader]

end Message

end MessageDepot
