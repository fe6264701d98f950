import SpatialStore.Editing.Session

/-!
# Requests to an edit session

`EditRequest` lists everything that can be asked of an edit session, and `EditSession.perform`
carries a request out. It gives the database and the session afterwards and the reply. A request
that fails is answered by its error, and database and session stay as they were.
-/

namespace SpatialStore

/-- Something asked of an edit session. -/
inductive EditRequest where
  | begin
  | insertRow (row : Row)
  | insertRowAt (position : Nat) (row : Row)
  | insertBlankRow
  | insertBlankRowAt (position : Nat)
  | deleteRow (position : Nat)
  | setValue (position field : Nat) (v : Value)
  | addField (f : Field)
  | removeField (position : Nat)
  | renameField (position : Nat) (name : String)
  | undo
  | redo
  | commit
  | cancel
  | rowCount
  | schema
  | fieldIndex (name : String)
  | row (position : Nat)
  | value (position field : Nat)
  | isNull (position field : Nat)
  | rowId (position : Nat)
  | positionOf (id : RowId)
  | rowOf (id : RowId)
  | extent
  | query (q : IndexQuery)

/-- What a request is answered by. -/
inductive EditReply where
  | done
  | flag (b : Bool)
  | number (n : Nat)
  | number? (n : Option Nat)
  | schema (s : Schema)
  | row (r : Row)
  | row? (r : Option Row)
  | value (v : Value)
  | extent (e : Option Envelope)
  | positions (ps : List Nat)

namespace EditSession

/-- The session with another workspace. -/
def withWorkspace (e : EditSession) (w : Workspace) : EditSession := { e with state := .opened w }

/-- What a request leads to when it succeeds. -/
def run (db : Database) (e : EditSession) :
    EditRequest → Except EditError (Database × EditSession × EditReply)
  | .begin => do
    return (db, ← e.begin db, .done)
  | .insertRow row => do
    let (w, id) ← (← e.workspace).insertRow row
    return (db, e.withWorkspace w, .number id)
  | .insertRowAt i row => do
    let (w, id) ← (← e.workspace).insertRowAt i row
    return (db, e.withWorkspace w, .number id)
  | .insertBlankRow => do
    let (w, id) ← (← e.workspace).insertBlankRow
    return (db, e.withWorkspace w, .number id)
  | .insertBlankRowAt i => do
    let (w, id) ← (← e.workspace).insertBlankRowAt i
    return (db, e.withWorkspace w, .number id)
  | .deleteRow i => do
    return (db, e.withWorkspace (← (← e.workspace).deleteRow i), .done)
  | .setValue i field v => do
    return (db, e.withWorkspace (← (← e.workspace).setValue i field v), .done)
  | .addField f => do
    let (w, i) ← (← e.workspace).addField f
    return (db, e.withWorkspace w, .number i)
  | .removeField i => do
    return (db, e.withWorkspace (← (← e.workspace).removeField i), .done)
  | .renameField i name => do
    return (db, e.withWorkspace (← (← e.workspace).renameField i name), .done)
  | .undo => do
    match ← (← e.workspace).undoLast with
    | some w => return (db, e.withWorkspace w, .flag true)
    | none => return (db, e, .flag false)
  | .redo => do
    match ← (← e.workspace).redoLast with
    | some w => return (db, e.withWorkspace w, .flag true)
    | none => return (db, e, .flag false)
  | .commit => do
    let (db, e) ← e.commit db
    return (db, e, .done)
  | .cancel => do
    return (db, ← e.cancel, .done)
  | .rowCount => do
    return (db, e, .number (← e.workspace).copy.rowCount)
  | .schema => do
    return (db, e, .schema (← e.workspace).copy.schema)
  | .fieldIndex name => do
    return (db, e, .number? ((← e.workspace).copy.schema.indexOf? name))
  | .row i => do
    return (db, e, .row (← (← e.workspace).copy.row i).values)
  | .value i field => do
    return (db, e, .value (← (← e.workspace).copy.value i field))
  | .isNull i field => do
    return (db, e, .flag (← (← e.workspace).copy.value i field).isNull)
  | .rowId i => do
    return (db, e, .number (← (← e.workspace).copy.row i).id)
  | .positionOf id => do
    return (db, e, .number? ((← e.workspace).positionOf? id))
  | .rowOf id => do
    return (db, e, .row? ((← e.workspace).rowOf? id))
  | .extent => do
    return (db, e, .extent (← e.workspace).extent?)
  | .query q => do
    return (db, e, .positions (← (← e.workspace).query q))

/-- Carry out a request. -/
def perform (db : Database) (e : EditSession) (op : EditRequest) :
    Database × EditSession × Except EditError EditReply :=
  match e.run db op with
  | .ok (db, e, reply) => (db, e, .ok reply)
  | .error err => (db, e, .error err)

end EditSession

end SpatialStore
