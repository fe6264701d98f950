import SpatialStore.Schema.Basic

/-!
# Table sources

A source keeps the stored content of a table in memory. While it is switched off it neither gives
nor takes anything. Every row it takes has one value for each field of the schema.
-/

namespace SpatialStore

/-- Why a source refuses to read or write. -/
inductive SourceError where
  | unavailable (source : String)
  | rowWidthMismatch (row expected found : Nat)
  deriving DecidableEq, Repr

/-- The message of a storage error. -/
def SourceError.message : SourceError → String
  | .unavailable source => "Data source unavailable: " ++ source
  | .rowWidthMismatch row expected found =>
    s!"Row {row} has {found} values but the schema has {expected} fields"

/-- The stored content of a table. -/
structure Source where
  name : String
  schema : Schema
  rows : List Row
  /-- Whether the source is switched on. -/
  available : Bool
  /-- How often the content was replaced. -/
  writes : Nat

namespace Source

/-- Every row has to be as wide as the schema; the first that is not is reported. -/
def checkWidths (schema : Schema) (rows : List Row) : Except SourceError Unit :=
  match rows.zipIdx.find? fun r => r.1.length != schema.count with
  | some (row, i) => .error (.rowWidthMismatch i schema.count row.length)
  | none => .ok ()

/-- A source with some content, switched on. -/
def ofRows (name : String) (schema : Schema) (rows : List Row) : Except SourceError Source :=
  (checkWidths schema rows).map fun _ => ⟨name, schema, rows, true, 0⟩

/-- Something read from the source, while it is switched on. -/
def whenAvailable {α : Type} (s : Source) (a : α) : Except SourceError α :=
  if s.available then .ok a else .error (.unavailable s.name)

def readSchema (s : Source) : Except SourceError Schema := s.whenAvailable s.schema

def readRows (s : Source) : Except SourceError (List Row) := s.whenAvailable s.rows

def rowCount (s : Source) : Except SourceError Nat := s.whenAvailable s.rows.length

/-- The source with new content. -/
def write (s : Source) (schema : Schema) (rows : List Row) : Except SourceError Source := do
  s.whenAvailable ()
  checkWidths schema rows
  return { s with schema, rows, writes := s.writes + 1 }

end Source

end SpatialStore
