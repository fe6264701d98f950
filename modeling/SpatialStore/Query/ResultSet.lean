import SpatialStore.Query.Plan
import SpatialStore.Table.Database

/-!
# Execution of plans

`Plan.execute` produces the rows of a plan from the stored rows of a database. Products go through
the left rows and, for each of them, through the right ones; a lookup product asks an index for
the right rows and then looks at the predicates of all its access paths.

Plans that join the same scans in different orders produce the same rows up to order.
`ResultSet.canonicalRows` puts columns and rows into an order that depends on the rows only.
-/

namespace SpatialStore

/-- The rows that a plan produces. -/
structure ResultSet where
  layout : Layout
  rows : List Row

/-- The values at some positions of a row. A position beyond the row is left out. -/
def Row.project (row : Row) (positions : List Nat) : Row := positions.filterMap fun i => row[i]?

/-- The rows with their columns in canonical order, sorted by their texts. -/
def ResultSet.canonicalRows (r : ResultSet) : List Row :=
  let order := r.layout.canonicalOrder
  let keyed := r.rows.map fun row =>
    let row := Row.project row order
    (Value.rowText row, row)
  (keyed.mergeSort fun a b => a.1 ≤ b.1).map (·.2)

/-- Whether two results have equal rows once both are in canonical order. A NaN differs from
itself. -/
def ResultSet.sameUpToOrder (r s : ResultSet) : Bool :=
  let (rows, others) := (r.canonicalRows, s.canonicalRows)
  rows.length == others.length && (rows.zip others).all fun p => Row.same p.1 p.2

namespace Database

/-- The stored rows of the table that a scan reads. -/
def readScan (db : Database) (s : Scan) : Except PlanError (List Row) :=
  match db.source? s.table with
  | none => .error (.unknownTable s.table)
  | some source =>
    match source.readRows with
    | .ok rows => .ok rows
    | .error e => .error (.storage e)

/-- The scan of a registered table with its present schema. -/
def scanOf (db : Database) (id : ScanId) (table : String) (label : Option String) :
    Except PlanError Scan :=
  match db.source? table with
  | none => .error (.unknownTable table)
  | some source =>
    match source.readSchema with
    | .ok schema => .ok ⟨id, table, label, schema⟩
    | .error e => .error (.storage e)

/-- The index that an access path uses: the one standing on the field, if it is of the right kind,
and otherwise one over the rows of the scan. -/
def indexFor (db : Database) (s : Scan) (path : AccessPath) (rows : List Row) :
    Except PlanError ColumnIndex :=
  let standing := (db.indexes.get? s.table path.field).filter fun i => i.kind == path.kind
  match standing, s.schema.indexOf? path.field with
  | some index, _ => .ok index
  | none, some i =>
    .ok (.build path.field path.kind db.settings.nodes (ColumnIndex.column rows i))
  | none, none => .error (.unknownField (s.displayName ++ "." ++ path.field))

end Database

namespace Plan

/-- Bind several predicates to a layout. -/
def bindAll (l : Layout) (predicates : List Predicate) : Except PlanError (List RowExpr) :=
  predicates.mapM (Expr.bind l)

/-- Whether every predicate is true on a row. -/
def allTrue (predicates : List RowExpr) (row : Row) : Bool :=
  predicates.all fun p => p.isTrue row

/-- The rows joined to a left row: those the index finds for the value of the lookup, if the
predicates are true on the pair. -/
def probe (path : AccessPath) (lookup : RowExpr) (predicates : List RowExpr)
    (index : ColumnIndex) (right : Array Row) (left : Row) : Except PlanError (List Row) :=
  match path.indexQuery? (lookup.evaluate left) with
  | none => .ok []
  | some q =>
    match index.query q with
    | .error e => .error (.index e)
    | .ok ids =>
      .ok (((ids.filterMap fun id => right[id]?).map (left ++ ·)).filter (allTrue predicates))

/-- The rows of a lookup product, given those of its left side. -/
def executeLookup (db : Database) (left : ResultSet) (right : Scan) (first : AccessPath)
    (paths : List AccessPath) : Except PlanError ResultSet := do
  let rows ← db.readScan right
  let layout := left.layout ++ Layout.ofScan right
  let lookup ← first.lookup.bind left.layout
  let predicates ← bindAll layout ((first :: paths).map (·.predicate))
  let index ← db.indexFor right first rows
  let table := rows.toArray
  let joined ← left.rows.mapM (probe first lookup predicates index table)
  return ⟨layout, joined.flatten⟩

/-- The rows of a plan. -/
def execute (db : Database) : Plan → Except PlanError ResultSet
  | .scan s => do
    return ⟨.ofScan s, ← db.readScan s⟩
  | .select predicates p => do
    let input ← p.execute db
    let bound ← bindAll input.layout predicates
    return ⟨input.layout, input.rows.filter (allTrue bound)⟩
  | .project fields p => do
    let input ← p.execute db
    let positions ← input.layout.resolveAll fields
    return ⟨input.layout.project positions, input.rows.map (Row.project · positions)⟩
  | .product p q => do
    let left ← p.execute db
    let right ← q.execute db
    return ⟨left.layout ++ right.layout, left.rows.flatMap fun l => right.rows.map (l ++ ·)⟩
  | .lookup _ s [] => .error (.fault (.noPath s.displayName))
  | .lookup p s (path :: paths) => do
    executeLookup db (← p.execute db) s path paths

end Plan

end SpatialStore
