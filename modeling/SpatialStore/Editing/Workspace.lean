import SpatialStore.Editing.Edit
import SpatialStore.Editing.Violation

/-!
# Workspace of an open session

A workspace is a working copy with its history. Every change is an edit that goes onto the
undo list; undoing moves it to the redo list, and a new change empties that one. A change that
fails leaves no workspace behind, so the caller keeps the former one.
-/

namespace SpatialStore

/-- The state of an edit session while it is open. -/
structure Workspace where
  copy : WorkingCopy
  /-- Names under which indexes were standing when the session was opened. -/
  opened : List String
  /-- Edits that can be undone, the latest first. -/
  undo : List Edit
  /-- Edits that can be made again, the latest undone first. -/
  redo : List Edit

namespace Workspace

/-- The workspace over stored rows and the standing indexes of their table, of which those on
existing fields are copied. -/
def ofRows (schema : Schema) (rows : List Row) (standing : TableIndexes) : Workspace :=
  let indexes := standing.filter fun name _ => schema.hasField name
  ⟨.ofRows schema rows indexes, indexes.keys, [], []⟩

/-- Whether there is something to commit. -/
def modified (w : Workspace) : Bool := !w.undo.isEmpty

/-! ### Changes -/

/-- The workspace after a new edit. -/
def perform (w : Workspace) (e : Edit) : Except EditError Workspace := do
  let copy ← e.apply w.copy
  return { w with copy, undo := e :: w.undo, redo := [] }

/-- A new row in front of position `i`, and its id. -/
def insertRowAt (w : Workspace) (i : Nat) (row : Row) :
    Except EditError (Workspace × RowId) := do
  let b := w.copy
  if b.rowCount < i then throw (.rowOutOfBounds i b.rowCount)
  b.schema.checkRow row
  let w ← w.perform (.insertRow i b.nextId row)
  return ({ w with copy := { w.copy with nextId := b.nextId + 1 } }, b.nextId)

/-- A new row behind the others. -/
def insertRow (w : Workspace) (row : Row) : Except EditError (Workspace × RowId) :=
  w.insertRowAt w.copy.rowCount row

/-- A row of nulls in front of position `i`. -/
def insertBlankRowAt (w : Workspace) (i : Nat) : Except EditError (Workspace × RowId) :=
  w.insertRowAt i (List.replicate w.copy.schema.count .null)

/-- A row of nulls behind the others. -/
def insertBlankRow (w : Workspace) : Except EditError (Workspace × RowId) :=
  w.insertBlankRowAt w.copy.rowCount

/-- The row at a position removed. -/
def deleteRow (w : Workspace) (i : Nat) : Except EditError Workspace := do
  let r ← w.copy.row i
  w.perform (.deleteRow i r.id r.values)

/-- A value stored in a field of a row. -/
def setValue (w : Workspace) (i field : Nat) (v : Value) : Except EditError Workspace := do
  let former ← w.copy.value i field
  match w.copy.schema.field? field with
  | some f => f.checkType v
  | none => pure ()
  w.perform (.setValue i field former v)

/-- A field behind the others, null in every row, and its position. -/
def addField (w : Workspace) (f : Field) : Except EditError (Workspace × Nat) := do
  let schema := w.copy.schema
  if schema.hasField f.name then throw (.schema (.duplicateField f.name))
  let w ← w.perform (.addField schema.count f)
  return (w, schema.count)

/-- The field at a position removed, with its values and its index. -/
def removeField (w : Workspace) (i : Nat) : Except EditError Workspace := do
  let b := w.copy
  match b.schema.field? i with
  | none => throw (.fieldOutOfBounds i b.schema.count)
  | some f =>
    let values := b.rows.map fun r => (r.values[i]?).getD .null
    w.perform (.removeField i f values b.indexes[f.name]?)

/-- Another name for the field at a position. -/
def renameField (w : Workspace) (i : Nat) (name : String) : Except EditError Workspace := do
  let schema := w.copy.schema
  match schema.field? i with
  | none => throw (.fieldOutOfBounds i schema.count)
  | some f =>
    if (schema.indexOf? name).any (· != i) then throw (.schema (.duplicateField name))
    w.perform (.renameField i f.name name)

/-! ### History -/

/-- The workspace before the latest edit, `none` when there is none. -/
def undoLast (w : Workspace) : Except EditError (Option Workspace) :=
  match w.undo with
  | [] => .ok none
  | e :: undo => do
    let copy ← e.revert w.copy
    return some { w with copy, undo, redo := e :: w.redo }

/-- The workspace with the edit that was undone last made again, `none` when there is none. -/
def redoLast (w : Workspace) : Except EditError (Option Workspace) :=
  match w.redo with
  | [] => .ok none
  | e :: redo => do
    let copy ← e.apply w.copy
    return some { w with copy, undo := e :: w.undo, redo }

/-! ### Reading -/

/-- Position of the row with an id. -/
def positionOf? (w : Workspace) (id : RowId) : Option Nat :=
  w.copy.rows.findIdx? fun r => r.id == id

/-- The row with an id. -/
def rowOf? (w : Workspace) (id : RowId) : Option Row :=
  (w.copy.rows.find? fun r => r.id == id).map (·.values)

/-- The box around the geometries of the first geometry field, read off its index if it has a
spatial one. -/
def extent? (w : Workspace) : Option Envelope :=
  let b := w.copy
  match b.schema.spatialIndex? with
  | none => none
  | some i =>
    let scan :=
      Envelope.unionAll (b.rows.filterMap fun r => r.values[i]?.bind Value.envelope?)
    match (b.schema.field? i).bind fun f => b.indexes[f.name]? with
    | some index => if index.kind = .spatial then index.extent? else scan
    | none => scan

/-- The positions of the rows that a query asks for, in ascending order. The working index of the
field answers if it is of the right kind, otherwise every row is looked at. -/
def query (w : Workspace) (q : IndexQuery) : Except EditError (List Nat) :=
  let b := w.copy
  let positions (test : NumberedRow → Bool) : List Nat :=
    (b.rows.zipIdx.filter fun r => test r.1).map (·.2)
  match b.schema.indexOf? q.field with
  | none => .error (.fieldNotFound q.field)
  | some column =>
    let scan := positions fun r => (r.values[column]?).any q.accepts
    match b.indexes[q.field]? with
    | none => .ok scan
    | some index =>
      if index.kind = q.kind then
        match index.query q with
        | .error e => .error (.index e)
        | .ok hits =>
          let hits := Std.ExtTreeSet.ofList hits
          .ok (positions fun r => hits.contains r.id)
      else .ok scan

end Workspace

end SpatialStore
