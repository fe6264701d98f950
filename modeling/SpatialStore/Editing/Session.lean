import SpatialStore.Editing.Workspace
import SpatialStore.Table.Database

/-!
# Edit sessions

An edit session changes a table in a workspace of its own and writes it back as a whole. It is
opened on a source, and ends by being committed or cancelled; afterwards it can be opened again.

Committing validates the rows, writes them to the source and builds the indexes anew over their
new positions. `EditSession.committedKinds` decides which indexes the table has then: those of the
workspace, except where the index was dropped meanwhile, and those that were built meanwhile.

Whatever fails gives an error and nothing else, so that the caller keeps the database and the
session as they were.
-/

namespace SpatialStore

/-- The state of an edit session. -/
inductive SessionState where
  | closed
  | opened (w : Workspace)
  | committed
  | cancelled

/-- The phase that a state belongs to. -/
def SessionState.phase : SessionState → SessionPhase
  | .closed => .closed
  | .opened _ => .opened
  | .committed => .committed
  | .cancelled => .cancelled

/-- An edit session of a table. -/
structure EditSession where
  /-- The table name under which indexes are looked up. -/
  name : String
  /-- Position of the source among those of the database. -/
  source : Nat
  state : SessionState

namespace EditSession

/-- An edit session that is not open yet. -/
def create (name : String) (source : Nat) : EditSession := ⟨name, source, .closed⟩

/-- The workspace of an open session. -/
def workspace? (e : EditSession) : Option Workspace :=
  match e.state with
  | .opened w => some w
  | _ => none

/-- The workspace, which only an open session has. -/
def workspace (e : EditSession) : Except EditError Workspace :=
  match e.workspace? with
  | some w => .ok w
  | none => .error (.notOpen e.name e.state.phase)

/-- Whether there are edits that are not committed. -/
def modified (e : EditSession) : Bool := e.workspace?.any (·.modified)

def canUndo (e : EditSession) : Bool := e.workspace?.any fun w => !w.undo.isEmpty

def canRedo (e : EditSession) : Bool := e.workspace?.any fun w => !w.redo.isEmpty

/-- The session with a new workspace over the content of its source. -/
def begin (db : Database) (e : EditSession) : Except EditError EditSession :=
  match e.workspace?, db.sources[e.source]? with
  | some _, _ => .error (.alreadyOpen e.name)
  | none, none => .error (.unknownTable e.name)
  | none, some source =>
    match source.readSchema, source.readRows with
    | .error err, _ => .error (.storage err)
    | _, .error err => .error (.storage err)
    | .ok schema, .ok rows =>
      .ok { e with state := .opened (.ofRows schema rows (db.indexes.ofTable e.name)) }

/-- An open session of a registered table. -/
def ofTable (db : Database) (table : String) : Except EditError EditSession :=
  match db.tables[table]? with
  | none => .error (.unknownTable table)
  | some i => (create table i).begin db

/-! ### Committing -/

/-- Which fields are indexed after a commit, and by what kind. A working index goes on unless it
stood when the session was opened and does not stand any more; an index that came to stand since
then goes on as well. -/
def committedKinds (opened : List String) (working : TableIndexes)
    (standing : List (String × IndexKind)) : Std.ExtTreeMap String IndexKind :=
  let kept := working.filterMap fun name index =>
    if name ∉ opened ∨ standing.any (·.1 == name) then some index.kind else none
  standing.foldl
    (fun kinds x => if x.1 ∈ opened then kinds else kinds.insertIfNew x.1 x.2)
    kept

/-- The indexes over some rows on those fields that exist. -/
def rebuild (settings : NodeSettings) (schema : Schema) (rows : List Row)
    (kinds : Std.ExtTreeMap String IndexKind) : TableIndexes :=
  kinds.filterMap fun name kind =>
    (schema.indexOf? name).map fun i =>
      ColumnIndex.build name kind settings (ColumnIndex.column rows i)

/-- The database after the workspace was written to a source and its indexes were published. -/
def write (db : Database) (name : String) (source : Nat) (w : Workspace) :
    Except EditError Database := do
  let schema := w.copy.schema
  let rows := w.copy.values
  match schema.firstViolation? rows, db.sources[source]? with
  | some (row, field, reason), _ => throw (.constraintViolation row field reason)
  | none, none => throw (.unknownTable name)
  | none, some former =>
    match former.write schema rows with
    | .error err => throw (.storage err)
    | .ok written =>
      let kinds := committedKinds w.opened w.copy.indexes (db.indexes.fields name)
      let rebuilt := rebuild db.settings.nodes schema rows kinds
      return { db.setSource source written with
        indexes := db.indexes.replaceTable name rebuilt }

/-- End the session by storing its content. Without edits nothing is written. -/
def commit (db : Database) (e : EditSession) : Except EditError (Database × EditSession) := do
  let w ← e.workspace
  let db ← if w.modified then write db e.name e.source w else pure db
  return (db, { e with state := .committed })

/-- End the session without storing anything. -/
def cancel (e : EditSession) : Except EditError EditSession := do
  let _ ← e.workspace
  return { e with state := .cancelled }

end EditSession

end SpatialStore
