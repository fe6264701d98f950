import SpatialStore.Index.Basic
import SpatialStore.Table.Source

/-!
# Errors of an edit session
-/

namespace SpatialStore

/-- Where an edit session is in its life. -/
inductive SessionPhase where
  | closed
  | opened
  | committed
  | cancelled
  deriving DecidableEq, Repr

/-- Name of a phase. -/
def SessionPhase.name : SessionPhase → String
  | .closed => "closed"
  | .opened => "open"
  | .committed => "committed"
  | .cancelled => "cancelled"

/-- Why an operation on an edit session fails. -/
inductive EditError where
  | notOpen (table : String) (phase : SessionPhase)
  | alreadyOpen (table : String)
  | unknownTable (table : String)
  | rowOutOfBounds (row count : Nat)
  | fieldOutOfBounds (field count : Nat)
  | fieldNotFound (name : String)
  | rowWidthMismatch (expected found : Nat)
  | typeMismatch (field : String) (expected : DataType) (found : String)
  | constraintViolation (row : Nat) (field reason : String)
  | schema (e : SchemaError)
  | storage (e : SourceError)
  | index (e : IndexError)
  deriving DecidableEq, Repr

/-- The message of an error. -/
def EditError.message : EditError → String
  | .notOpen table phase =>
    "Table " ++ table ++ " is not open for edition (state: " ++ phase.name ++ ")"
  | .alreadyOpen table => "Table " ++ table ++ " is already open"
  | .unknownTable table => "Unknown table: " ++ table
  | .rowOutOfBounds row count => s!"Row {row} out of bounds (row count {count})"
  | .fieldOutOfBounds field count => s!"Field {field} out of bounds (field count {count})"
  | .fieldNotFound name => "Field not found: " ++ name
  | .rowWidthMismatch expected found =>
    s!"Row has {found} values but the schema has {expected} fields"
  | .typeMismatch field expected found =>
    "Field " ++ field ++ " expects " ++ expected.name ++ " but got " ++ found
  | .constraintViolation row field reason =>
    s!"Constraint violation at row {row}, field " ++ field ++ ": " ++ reason
  | .schema e => "Schema error: " ++ e.message
  | .storage e => "Storage error: " ++ e.message
  | .index e => "Index error: " ++ e.message

end SpatialStore
