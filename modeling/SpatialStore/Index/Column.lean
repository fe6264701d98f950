import SpatialStore.Index.Key
import SpatialStore.Index.RTree.Basic

/-!
# The index of a field

A field index is an R-tree or an attribute index, together with the name of the field that it
serves. Its entries are what it knows of each row: the envelope of a geometry, or the key of a
scalar value. `ColumnIndex.build` puts the values of a table into a fresh index, and
`IndexEntry.ofValue?` says what entry a value leads to.
-/

namespace SpatialStore

/-- What an index knows of a row. -/
inductive IndexEntry where
  | envelope (e : Envelope)
  | key (k : ScalarKey)

/-- The entry of a value in an index of some kind. Nulls, empty geometries and values of a foreign
type have none. -/
def IndexEntry.ofValue? (kind : IndexKind) (v : Value) : Option IndexEntry :=
  match kind with
  | .spatial => v.envelope?.map .envelope
  | .attribute => (ScalarKey.ofValue? v).map .key

/-- The contents of an index, by kind. -/
inductive IndexContent where
  | spatial (t : RTree)
  | attribute (index : KeyIndex)

/-- An index over the values of one field. -/
structure ColumnIndex where
  field : String
  content : IndexContent

namespace ColumnIndex

/-- An index without rows. -/
def empty (field : String) (kind : IndexKind) (settings : NodeSettings) : ColumnIndex :=
  match kind with
  | .spatial => ⟨field, .spatial (.empty settings)⟩
  | .attribute => ⟨field, .attribute .empty⟩

def kind (index : ColumnIndex) : IndexKind :=
  match index.content with
  | .spatial _ => .spatial
  | .attribute _ => .attribute

/-- Number of indexed rows. -/
def size (index : ColumnIndex) : Nat :=
  match index.content with
  | .spatial t => t.size
  | .attribute a => a.size

/-- Whether a row is indexed. -/
def contains (index : ColumnIndex) (id : RowId) : Bool :=
  match index.content with
  | .spatial t => t.contains id
  | .attribute a => a.contains id

/-- The index with the value of a row, in place of the row's former one. A value without entry
leaves the row unindexed. -/
def insert (index : ColumnIndex) (id : RowId) (v : Value) : ColumnIndex :=
  match index.content with
  | .spatial t =>
    match v.envelope? with
    | some e => { index with content := .spatial (t.insert id e) }
    | none => { index with content := .spatial (t.erase id) }
  | .attribute a => { index with content := .attribute (a.insert id v) }

/-- The index without a row, `none` when the row is not there. -/
def erase? (index : ColumnIndex) (id : RowId) : Option ColumnIndex :=
  match index.content with
  | .spatial t => (t.erase? id).map fun t => { index with content := .spatial t }
  | .attribute a => (a.erase? id).map fun a => { index with content := .attribute a }

/-- The index without a row. -/
def erase (index : ColumnIndex) (id : RowId) : ColumnIndex := (index.erase? id).getD index

/-- The values of a column, numbered by position. A row that is too short has none. -/
def column (rows : List Row) (i : Nat) : List (RowId × Value) :=
  rows.zipIdx.filterMap fun r => r.1[i]?.map fun v => (r.2, v)

/-- The index over some rows and their values. -/
def build (field : String) (kind : IndexKind) (settings : NodeSettings)
    (values : List (RowId × Value)) : ColumnIndex :=
  values.foldl (fun index v => index.insert v.1 v.2) (empty field kind settings)

/-- The rows that a query asks for, in the order in which the index finds them. The query has to
be about the field of the index and of its kind. -/
def query (index : ColumnIndex) (q : IndexQuery) : Except IndexError (List RowId) :=
  let mismatch : Except IndexError (List RowId) :=
    .error (.queryMismatch q.field index.kind q.kind)
  match index.content, q with
  | .spatial t, .window field e => if field = index.field then .ok (t.query e) else mismatch
  | .attribute a, .equals field v => if field = index.field then .ok (a.lookup v) else mismatch
  | _, _ => mismatch

/-- The box around all indexed geometries; an attribute index has none. -/
def extent? (index : ColumnIndex) : Option Envelope :=
  match index.content with
  | .spatial t => t.extent?
  | .attribute _ => none

/-- Every indexed row with its entry, in ascending order of the rows. -/
def entries (index : ColumnIndex) : List (RowId × IndexEntry) :=
  match index.content with
  | .spatial t => t.entries.map fun x => (x.1, .envelope x.2)
  | .attribute a => a.entries.map fun x => (x.1, .key x.2)

end ColumnIndex

end SpatialStore
