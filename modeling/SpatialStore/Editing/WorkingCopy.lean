import SpatialStore.Editing.Error
import SpatialStore.Index.Registry

/-!
# Working copy

The working copy of a table while it is edited: its schema, its rows with their ids, and copies
of its indexes. Ids stay with their rows while positions shift, and every change of a row or
column also goes to the indexes concerned.
-/

namespace SpatialStore

/-- A row with its id. -/
structure NumberedRow where
  id : RowId
  values : Row

/-- The working copy of a table. -/
structure WorkingCopy where
  schema : Schema
  rows : List NumberedRow
  /-- The id of the next new row. -/
  nextId : RowId
  /-- Working indexes, by field name. -/
  indexes : TableIndexes

namespace WorkingCopy

/-- The working copy of stored rows, whose ids are their positions. -/
def ofRows (schema : Schema) (rows : List Row) (indexes : TableIndexes) : WorkingCopy :=
  ⟨schema, rows.zipIdx.map fun r => ⟨r.2, r.1⟩, rows.length, indexes⟩

/-- Number of rows. -/
def rowCount (b : WorkingCopy) : Nat := b.rows.length

/-- The rows without their ids. -/
def values (b : WorkingCopy) : List Row := b.rows.map (·.values)

/-- The row at a position. -/
def row (b : WorkingCopy) (i : Nat) : Except EditError NumberedRow :=
  match b.rows[i]? with
  | some r => .ok r
  | none => .error (.rowOutOfBounds i b.rowCount)

/-- The value at a position of a row and a position of a field. -/
def value (b : WorkingCopy) (i field : Nat) : Except EditError Value := do
  let r ← b.row i
  match r.values[field]? with
  | some v => return v
  | none => throw (.fieldOutOfBounds field b.schema.count)

/-! ### Rows -/

/-- A row put in front of position `i`, or behind the last row. -/
def insertRow (b : WorkingCopy) (i : Nat) (id : RowId) (row : Row) :
    Except EditError WorkingCopy :=
  if b.rowCount < i then .error (.rowOutOfBounds i b.rowCount)
  else
    .ok { b with
      rows := b.rows.insertIdx i ⟨id, row⟩
      indexes := b.indexes.map fun name index =>
        match (b.schema.indexOf? name).bind fun c => row[c]? with
        | some v => index.insert id v
        | none => index }

/-- The row at a position taken out. -/
def removeRow (b : WorkingCopy) (i : Nat) : Except EditError WorkingCopy := do
  let r ← b.row i
  return { b with
    rows := b.rows.eraseIdx i
    indexes := b.indexes.map fun _ index => index.erase r.id }

/-- A value stored in a field of a row. -/
def setValue (b : WorkingCopy) (i field : Nat) (v : Value) :
    Except EditError WorkingCopy := do
  let r ← b.row i
  match r.values[field]?, b.schema.field? field with
  | some _, some definition =>
    return { b with
      rows := b.rows.set i { r with values := r.values.set field v }
      indexes := b.indexes.modify definition.name fun index => index.insert r.id v }
  | _, _ => throw (.fieldOutOfBounds field b.schema.count)

/-! ### Columns -/

/-- Values for the rows of a column, in order; rows beyond them get nulls. -/
def padded (values : List Value) (i : Nat) : Value := (values[i]?).getD .null

/-- A column put in front of position `i`, with some values. -/
def insertColumn (b : WorkingCopy) (i : Nat) (f : Field) (values : List Value) :
    Except EditError WorkingCopy :=
  match b.schema.insertField i f with
  | .error e => .error (.schema e)
  | .ok schema =>
    .ok { b with
      schema
      rows := b.rows.zipIdx.map fun r =>
        { r.1 with values := r.1.values.insertIdx i (padded values r.2) } }

/-- The column at a position taken out, and its index with it. -/
def removeColumn (b : WorkingCopy) (i : Nat) : Except EditError WorkingCopy :=
  match b.schema.removeField i with
  | .error e => .error (.schema e)
  | .ok (f, schema) =>
    .ok { b with
      schema
      rows := b.rows.map fun r => { r with values := r.values.eraseIdx i }
      indexes := b.indexes.erase f.name }

/-- Another name for the column at a position, and for the index that goes by its former name. -/
def renameColumn (b : WorkingCopy) (i : Nat) (former name : String) :
    Except EditError WorkingCopy :=
  match b.schema.renameField i name with
  | .error e => .error (.schema e)
  | .ok (_, schema) =>
    let indexes :=
      match b.indexes[former]? with
      | none => b.indexes
      | some index => (b.indexes.erase former).insert name { index with field := name }
    .ok { b with schema, indexes }

end WorkingCopy

end SpatialStore
