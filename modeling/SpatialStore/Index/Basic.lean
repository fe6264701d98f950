import SpatialStore.Value.Basic

/-!
# Indexes and their queries

An index serves one field of a table. A spatial index holds the envelopes of geometries and finds
the rows whose envelope meets a window, an attribute index holds keys of scalar values and finds
the rows with an equal one. `IndexQuery.accepts` says for a single value what a query asks for,
without any index.
-/

namespace SpatialStore

/-- Identity of a row. The rows of a stored table have their positions as ids. -/
abbrev RowId := Nat

/-- What an index is able to find. -/
inductive IndexKind where
  | spatial
  | attribute
  deriving DecidableEq, Repr

namespace IndexKind

/-- Name of a kind. -/
def name : IndexKind → String
  | .spatial => "spatial"
  | .attribute => "attribute"

/-- Whether a field of a type can have an index of the kind. -/
def supports (k : IndexKind) (t : DataType) : Bool :=
  match k with
  | .spatial => t == .geometry
  | .attribute => t != .geometry

end IndexKind

/-- A question to the index of a field. -/
inductive IndexQuery where
  /-- The rows whose envelope meets a window. -/
  | window (field : String) (e : Envelope)
  /-- The rows with a value equal to a given one. -/
  | equals (field : String) (v : Value)

namespace IndexQuery

/-- The field that is asked about. -/
def field : IndexQuery → String
  | .window f _ | .equals f _ => f

/-- The kind of index that can answer. -/
def kind : IndexQuery → IndexKind
  | .window _ _ => .spatial
  | .equals _ _ => .attribute

/-- Whether a value is among those asked for. -/
def accepts (q : IndexQuery) (v : Value) : Bool :=
  match q with
  | .window _ e =>
    match v.envelope? with
    | some f => f.intersects e
    | none => false
  | .equals _ expected => v.queryEq expected

end IndexQuery

/-- Why an index cannot be built or asked. -/
inductive IndexError where
  | incompatibleField (table field : String) (kind : IndexKind) (type : DataType)
  | fieldNotFound (table field : String)
  | sourceUnreadable (table reason : String)
  | cancelled (table field : String)
  | queryMismatch (field : String) (indexKind queryKind : IndexKind)
  deriving DecidableEq, Repr

/-- The message of an index error. -/
def IndexError.message : IndexError → String
  | .incompatibleField table field kind type =>
    "Field " ++ table ++ "." ++ field ++ " of type " ++ type.name ++ " cannot carry a " ++
      kind.name ++ " index"
  | .fieldNotFound table field => "Field not found: " ++ table ++ "." ++ field
  | .sourceUnreadable table reason => "Cannot read table " ++ table ++ ": " ++ reason
  | .cancelled table field => "Index build on " ++ table ++ "." ++ field ++ " cancelled"
  | .queryMismatch field indexKind queryKind =>
    "A " ++ queryKind.name ++ " query cannot be answered by the " ++ indexKind.name ++
      " index on field " ++ field

end SpatialStore
