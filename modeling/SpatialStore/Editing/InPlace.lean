import SpatialStore.Editing.Request

/-!
# Editing in place

An edit session that is changed in place, one part after the other: rows, ids, schema and indexes
of its buffer, its history, the source and the standing indexes. When a step fails, everything that
was changed before stays changed, as nothing is put back unless a step does so itself. The requests
are those of `EditSession.perform`, which has a former database and session to return to.
-/

namespace SpatialStore

open MonadExcept (ofExcept)

/-- A working copy that is kept in place, with the rows and their ids in lists of their own. -/
structure EditBuffer where
  schema : Schema
  rows : List Row
  ids : List RowId
  /-- The id of the next new row. -/
  nextId : RowId
  /-- Working indexes, by field name. -/
  indexes : TableIndexes

namespace EditBuffer

/-- The buffer with the contents of a copy. -/
def ofCopy (b : WorkingCopy) : EditBuffer :=
  ⟨b.schema, b.values, b.rows.map (·.id), b.nextId, b.indexes⟩

/-- The contents of the buffer. -/
def copy (b : EditBuffer) : WorkingCopy :=
  ⟨b.schema, List.zipWith NumberedRow.mk b.ids b.rows, b.nextId, b.indexes⟩

/-- Something done to a buffer. What it has changed when it fails stays changed. -/
abbrev Action (α : Type) : Type := EStateM EditError EditBuffer α

/-! ### Rows -/

/-- The row at a position. -/
def row (i : Nat) : Action NumberedRow := do
  ofExcept ((← get).copy.row i)

/-- Put a row in front of position `i`, or behind the last row. -/
def insertRow (i : Nat) (id : RowId) (row : Row) : Action Unit := do
  let count := (← get).rows.length
  if count < i then
    throw (.rowOutOfBounds i count)
  else
    modify fun b => { b with rows := b.rows.insertIdx i row }
    modify fun b => { b with ids := b.ids.insertIdx i id }
    modify fun b => { b with
      indexes := b.indexes.map fun name index =>
        match (b.schema.indexOf? name).bind fun c => row[c]? with
        | some v => index.insert id v
        | none => index }

/-- Take out the row at a position. -/
def removeRow (i : Nat) : Action Unit := do
  let r ← row i
  modify fun b => { b with rows := b.rows.eraseIdx i }
  modify fun b => { b with ids := b.ids.eraseIdx i }
  modify fun b => { b with indexes := b.indexes.map fun _ index => index.erase r.id }

/-- Store a value in a field of a row. -/
def setValue (i field : Nat) (v : Value) : Action Unit := do
  let r ← row i
  let schema := (← get).schema
  match r.values[field]?, schema.field? field with
  | some _, some definition =>
    modify fun b => { b with rows := b.rows.set i (r.values.set field v) }
    modify fun b => { b with
      indexes := b.indexes.modify definition.name fun index => index.insert r.id v }
  | _, _ => throw (.fieldOutOfBounds field schema.count)

/-! ### Columns -/

/-- Put a column in front of position `i`, with some values. -/
def insertColumn (i : Nat) (f : Field) (values : List Value) : Action Unit := do
  match (← get).schema.insertField i f with
  | .error e => throw (.schema e)
  | .ok schema =>
    modify fun b => { b with schema }
    modify fun b => { b with
      rows := b.rows.mapIdx fun p row => row.insertIdx i (WorkingCopy.padded values p) }

/-- Take out the column at a position, and its index with it. -/
def removeColumn (i : Nat) : Action Unit := do
  match (← get).schema.removeField i with
  | .error e => throw (.schema e)
  | .ok (f, schema) =>
    modify fun b => { b with schema }
    modify fun b => { b with rows := b.rows.map fun row => row.eraseIdx i }
    modify fun b => { b with indexes := b.indexes.erase f.name }

/-- Rename the column at a position, and the index that goes by its former name. -/
def renameColumn (i : Nat) (former name : String) : Action Unit := do
  match (← get).schema.renameField i name with
  | .error e => throw (.schema e)
  | .ok (_, schema) =>
    modify fun b => { b with schema }
    match (← get).indexes[former]? with
    | none => pure ()
    | some index =>
      modify fun b => { b with indexes := b.indexes.erase former }
      modify fun b => { b with indexes := b.indexes.insert name { index with field := name } }

/-! ### Edits -/

/-- Make an edit. -/
def apply : Edit → Action Unit
  | .insertRow i id row => insertRow i id row
  | .deleteRow i _ _ => removeRow i
  | .setValue i field _ new => setValue i field new
  | .addField i f => insertColumn i f []
  | .removeField i _ _ _ => removeColumn i
  | .renameField i former new => renameColumn i former new

/-- Take an edit back. -/
def revert : Edit → Action Unit
  | .insertRow i _ _ => removeRow i
  | .deleteRow i id row => insertRow i id row
  | .setValue i field former _ => setValue i field former
  | .addField i _ => removeColumn i
  | .removeField i f values index => do
    insertColumn i f values
    match index with
    | none => pure ()
    | some index => modify fun b => { b with indexes := b.indexes.insert f.name index }
  | .renameField i former new => renameColumn i new former

end EditBuffer

/-- An edit session and the database that it works on, in place. -/
structure LiveSession where
  db : Database
  /-- The table name under which indexes are looked up. -/
  name : String
  /-- Position of the source among those of the database. -/
  source : Nat
  phase : SessionPhase
  buffer : Option EditBuffer
  /-- Names under which indexes were standing when the session was opened. -/
  opened : List String
  undo : List Edit
  redo : List Edit

namespace LiveSession

/-- The session with everything in its place. -/
def ofSession (db : Database) (e : EditSession) : LiveSession :=
  match e.state with
  | .opened w =>
    ⟨db, e.name, e.source, .opened, some (.ofCopy w.copy), w.opened, w.undo, w.redo⟩
  | state => ⟨db, e.name, e.source, state.phase, none, [], [], []⟩

/-- Something done to a session. What it has changed when it fails stays changed. -/
abbrev Action (α : Type) : Type := EStateM EditError LiveSession α

/-! ### Parts of a session -/

/-- The buffer, which only an open session has. -/
def openBuffer : Action EditBuffer := do
  let s ← get
  match s.buffer, s.phase with
  | some b, .opened => return b
  | _, _ => throw (.notOpen s.name s.phase)

/-- The contents of the buffer with the history. -/
def workspace : Action Workspace := do
  let b ← openBuffer
  let s ← get
  return ⟨b.copy, s.opened, s.undo, s.redo⟩

/-- Do something to the buffer. -/
def onBuffer {α : Type} (m : EditBuffer.Action α) : Action α := do
  let b ← openBuffer
  match m.run b with
  | .ok a b =>
    modify fun s => { s with buffer := some b }
    return a
  | .error err b =>
    modify fun s => { s with buffer := some b }
    throw err

/-- The source of the session. -/
def findSource : Action Source := do
  let s ← get
  match s.db.sources[s.source]? with
  | some source => return source
  | none => throw (.unknownTable s.name)

/-- Change the source of the session. -/
def onSource (f : Source → Source) : Action Unit :=
  modify fun s => { s with db := { s.db with sources := s.db.sources.modify s.source f } }

/-- Throw away the buffer and its history. -/
def close (phase : SessionPhase) : Action Unit := do
  modify fun s => { s with buffer := none }
  modify fun s => { s with opened := [] }
  modify fun s => { s with undo := [] }
  modify fun s => { s with redo := [] }
  modify fun s => { s with phase }

/-- Load the content of the source into a new buffer. -/
def load : Action Unit := do
  let s ← get
  if s.phase = .opened then
    throw (.alreadyOpen s.name)
  else
    let source ← findSource
    let schema ← ofExcept (source.readSchema.mapError .storage)
    let rows ← ofExcept (source.readRows.mapError .storage)
    let indexes := (s.db.indexes.ofTable s.name).filter fun name _ => schema.hasField name
    modify fun s => { s with opened := indexes.keys }
    modify fun s => { s with
      buffer := some ⟨schema, rows, List.range rows.length, rows.length, indexes⟩ }
    modify fun s => { s with undo := [] }
    modify fun s => { s with redo := [] }
    modify fun s => { s with phase := .opened }

/-! ### Changes -/

/-- Make an edit and put it onto the undo list. -/
def execute (e : Edit) : Action Unit := do
  onBuffer (EditBuffer.apply e)
  modify fun s => { s with undo := e :: s.undo }
  modify fun s => { s with redo := [] }

/-- Put a new row in front of position `i`. -/
def insertRowAt (i : Nat) (row : Row) : Action RowId := do
  let b := (← workspace).copy
  if b.rowCount < i then
    throw (.rowOutOfBounds i b.rowCount)
  else
    ofExcept (b.schema.checkRow row)
    execute (.insertRow i b.nextId row)
    modify fun s => { s with buffer := s.buffer.map fun b => { b with nextId := b.nextId + 1 } }
    return b.nextId

/-- Put a row of nulls in front of position `i`. -/
def insertBlankRowAt (i : Nat) : Action RowId := do
  let b := (← workspace).copy
  insertRowAt i (List.replicate b.schema.count .null)

/-- Remove the row at a position. -/
def deleteRow (i : Nat) : Action Unit := do
  let b := (← workspace).copy
  let r ← ofExcept (b.row i)
  execute (.deleteRow i r.id r.values)

/-- Store a value in a field of a row. -/
def setValue (i field : Nat) (v : Value) : Action Unit := do
  let b := (← workspace).copy
  let former ← ofExcept (b.value i field)
  match b.schema.field? field with
  | some f => ofExcept (f.checkType v)
  | none => pure ()
  execute (.setValue i field former v)

/-- Add a field behind the others. -/
def addField (f : Field) : Action Nat := do
  let schema := (← workspace).copy.schema
  if schema.hasField f.name then
    throw (.schema (.duplicateField f.name))
  else
    execute (.addField schema.count f)
    return schema.count

/-- Remove the field at a position. -/
def removeField (i : Nat) : Action Unit := do
  let b := (← workspace).copy
  match b.schema.field? i with
  | none => throw (.fieldOutOfBounds i b.schema.count)
  | some f =>
    let values := b.rows.map fun r => (r.values[i]?).getD .null
    execute (.removeField i f values b.indexes[f.name]?)

/-- Rename the field at a position. -/
def renameField (i : Nat) (name : String) : Action Unit := do
  let schema := (← workspace).copy.schema
  match schema.field? i with
  | none => throw (.fieldOutOfBounds i schema.count)
  | some f =>
    if (schema.indexOf? name).any (· != i) then
      throw (.schema (.duplicateField name))
    else
      execute (.renameField i f.name name)

/-! ### History -/

/-- Take the latest edit back. It leaves the undo list first, and returns there if that fails. -/
def undoLast : Action Bool := do
  let _ ← openBuffer
  match (← get).undo with
  | [] => return false
  | e :: undo =>
    modify fun s => { s with undo }
    tryCatch (onBuffer (EditBuffer.revert e)) fun err => do
      modify fun s => { s with undo := e :: s.undo }
      throw err
    modify fun s => { s with redo := e :: s.redo }
    return true

/-- Make the edit that was undone last again. It leaves the redo list first, and returns there if
that fails. -/
def redoLast : Action Bool := do
  let _ ← openBuffer
  match (← get).redo with
  | [] => return false
  | e :: redo =>
    modify fun s => { s with redo }
    tryCatch (onBuffer (EditBuffer.apply e)) fun err => do
      modify fun s => { s with redo := e :: s.redo }
      throw err
    modify fun s => { s with undo := e :: s.undo }
    return true

/-! ### Committing -/

/-- Replace the content of the source. -/
def writeSource (schema : Schema) (rows : List Row) : Action Unit := do
  let source ← findSource
  ofExcept ((source.whenAvailable ()).mapError .storage)
  ofExcept ((Source.checkWidths schema rows).mapError .storage)
  onSource fun source => { source with schema }
  onSource fun source => { source with rows }
  onSource fun source => { source with writes := source.writes + 1 }

/-- Store the content of the buffer and publish its indexes. -/
def commit : Action Unit := do
  let b ← openBuffer
  if (← get).undo.isEmpty then
    close .committed
  else
    match b.schema.firstViolation? b.rows with
    | some (row, field, reason) => throw (.constraintViolation row field reason)
    | none =>
      writeSource b.schema b.rows
      let s ← get
      let kinds := EditSession.committedKinds s.opened b.indexes (s.db.indexes.fields s.name)
      let rebuilt := EditSession.rebuild s.db.settings.nodes b.schema b.rows kinds
      modify fun s => { s with
        db := { s.db with indexes := s.db.indexes.replaceTable s.name rebuilt } }
      close .committed

/-! ### Requests -/

/-- Read something off the workspace. -/
def read (f : Workspace → Except EditError EditReply) : Action EditReply := do
  ofExcept (f (← workspace))

/-- Carry out a request. -/
def carryOut : EditRequest → Action EditReply
  | .begin => do
    load
    return .done
  | .insertRow row => do
    return .number (← insertRowAt (← workspace).copy.rowCount row)
  | .insertRowAt i row => do
    return .number (← insertRowAt i row)
  | .insertBlankRow => do
    return .number (← insertBlankRowAt (← workspace).copy.rowCount)
  | .insertBlankRowAt i => do
    return .number (← insertBlankRowAt i)
  | .deleteRow i => do
    deleteRow i
    return .done
  | .setValue i field v => do
    setValue i field v
    return .done
  | .addField f => do
    return .number (← addField f)
  | .removeField i => do
    removeField i
    return .done
  | .renameField i name => do
    renameField i name
    return .done
  | .undo => do
    return .flag (← undoLast)
  | .redo => do
    return .flag (← redoLast)
  | .commit => do
    commit
    return .done
  | .cancel => do
    let _ ← openBuffer
    close .cancelled
    return .done
  | .rowCount => read fun w => return .number w.copy.rowCount
  | .schema => read fun w => return .schema w.copy.schema
  | .fieldIndex name => read fun w => return .number? (w.copy.schema.indexOf? name)
  | .row i => read fun w => return .row (← w.copy.row i).values
  | .value i field => read fun w => return .value (← w.copy.value i field)
  | .isNull i field => read fun w => return .flag (← w.copy.value i field).isNull
  | .rowId i => read fun w => return .number (← w.copy.row i).id
  | .positionOf id => read fun w => return .number? (w.positionOf? id)
  | .rowOf id => read fun w => return .row? (w.rowOf? id)
  | .extent => read fun w => return .extent w.extent?
  | .query q => read fun w => return .positions (← w.query q)

end LiveSession

end SpatialStore
