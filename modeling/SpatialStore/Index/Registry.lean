import SpatialStore.Index.Column

/-!
# Registry of standing indexes

The registry keeps, for every table, the indexes that stand on its fields. A field has at most one
index, found under the field's name.
-/

namespace SpatialStore

/-- The indexes of a table, by field name. -/
abbrev TableIndexes := Std.ExtTreeMap String ColumnIndex

/-- The standing indexes of all tables. -/
structure IndexRegistry where
  tables : Std.ExtTreeMap String TableIndexes

namespace IndexRegistry

def empty : IndexRegistry := ⟨∅⟩

/-- The indexes of a table. -/
def ofTable (r : IndexRegistry) (table : String) : TableIndexes := r.tables.getD table ∅

/-- The index of a field. -/
def get? (r : IndexRegistry) (table field : String) : Option ColumnIndex :=
  (r.ofTable table)[field]?

/-- The kind of the index of a field. -/
def kind? (r : IndexRegistry) (table field : String) : Option IndexKind :=
  (r.get? table field).map (·.kind)

/-- The indexed fields of a table with the kinds of their indexes, by name. -/
def fields (r : IndexRegistry) (table : String) : List (String × IndexKind) :=
  (r.ofTable table).toList.map fun x => (x.1, x.2.kind)

/-- The registry with other indexes for a table. -/
def replaceTable (r : IndexRegistry) (table : String) (indexes : TableIndexes) : IndexRegistry :=
  if indexes.isEmpty then ⟨r.tables.erase table⟩ else ⟨r.tables.insert table indexes⟩

/-- The registry with an index for a field, in place of the field's former one. -/
def put (r : IndexRegistry) (table field : String) (index : ColumnIndex) : IndexRegistry :=
  r.replaceTable table ((r.ofTable table).insert field index)

/-- The registry without the index of a field. -/
def drop (r : IndexRegistry) (table field : String) : IndexRegistry :=
  r.replaceTable table ((r.ofTable table).erase field)

end IndexRegistry

end SpatialStore
