/-!
# SQL statements

Every statement that a relational store issues, for the prefix of its table names. Values are
bound to the numbered parameters; the prefix cannot be bound and is spliced in.
-/
namespace MessageDepot

/-- The texts of all statements (`Queries`). -/
structure Statements where
  getMessage : String
  deleteMessage : String
  createMessage : String
  countMessages : String
  listUnmarked : String
  listMarked : String
  minCreatedDate : String
  markGroup : String
  markMessage : String
  removeFromGroup : String
  deleteGroup : String
  addToGroup : String
  listGroupKeys : String
  countGroups : String
  deriving DecidableEq, Repr

namespace Statements

/-- The statements over the tables of a prefix (`Queries.new`). Members that joined within one
millisecond are listed in the order of their rows. -/
def ofPrefix (tables : String) : Statements where
  getMessage := s!"
    SELECT MESSAGE_ID, CREATED_DATE, MESSAGE_BYTES
    FROM {tables}MESSAGE
    WHERE MESSAGE_ID = ?1 AND REGION = ?2
"
  deleteMessage := s!"
    DELETE FROM {tables}MESSAGE
    WHERE MESSAGE_ID = ?1 AND REGION = ?2
"
  createMessage := s!"
    INSERT INTO {tables}MESSAGE (MESSAGE_ID, REGION, CREATED_DATE, MESSAGE_BYTES)
    VALUES (?1, ?2, ?3, ?4)
"
  countMessages := s!"
    SELECT COUNT(*)
    FROM {tables}MESSAGE
    WHERE REGION = ?1
"
  listUnmarked := s!"
    SELECT MESSAGE_ID, CREATED_DATE, GROUP_KEY, MESSAGE_BYTES
    FROM {tables}MESSAGE_GROUP
    WHERE GROUP_KEY = ?1 AND REGION = ?2 AND MARKED = 0
    ORDER BY CREATED_DATE, ROWID
"
  listMarked := s!"
    SELECT MESSAGE_ID, CREATED_DATE, GROUP_KEY, MESSAGE_BYTES
    FROM {tables}MESSAGE_GROUP
    WHERE GROUP_KEY = ?1 AND REGION = ?2 AND MARKED = 1
"
  minCreatedDate := s!"
    SELECT MIN(CREATED_DATE) AS CREATED_DATE
    FROM {tables}MESSAGE_GROUP
    WHERE GROUP_KEY = ?1 AND REGION = ?2
"
  markGroup := s!"
    UPDATE {tables}MESSAGE_GROUP
    SET UPDATED_DATE = ?1, MARKED = 1
    WHERE MARKED = 0 AND GROUP_KEY = ?2 AND REGION = ?3
"
  markMessage := s!"
    UPDATE {tables}MESSAGE_GROUP
    SET UPDATED_DATE = ?1, MARKED = 1
    WHERE MESSAGE_ID = ?2 AND MARKED = 0 AND GROUP_KEY = ?3 AND REGION = ?4
"
  removeFromGroup := s!"
    DELETE FROM {tables}MESSAGE_GROUP
    WHERE GROUP_KEY = ?1 AND REGION = ?2 AND MESSAGE_ID = ?3
"
  deleteGroup := s!"
    DELETE FROM {tables}MESSAGE_GROUP
    WHERE GROUP_KEY = ?1 AND REGION = ?2
"
  addToGroup := s!"
    INSERT INTO {tables}MESSAGE_GROUP (MESSAGE_ID, REGION, CREATED_DATE, GROUP_KEY, MARKED, MESSAGE_BYTES)
    VALUES (?1, ?2, ?3, ?4, 0, ?5)
"
  listGroupKeys := s!"
    SELECT DISTINCT GROUP_KEY
    FROM {tables}MESSAGE_GROUP
    WHERE REGION = ?1
"
  countGroups := s!"
    SELECT COUNT(DISTINCT GROUP_KEY)
    FROM {tables}MESSAGE_GROUP
    WHERE REGION = ?1
"

end Statements

end MessageDepot
