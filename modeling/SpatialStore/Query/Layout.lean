import SpatialStore.Query.Error
import SpatialStore.Query.Expr

/-!
# Layouts

A scan reads a table under an id and possibly under a label. A layout lists the columns of the
rows that a plan produces, each with the scan it comes from. A field name designates the one
column that has it and whose label or table is its qualifier; `Layout.resolve` finds it.
-/

namespace SpatialStore

/-- The reading of a table. -/
structure Scan where
  id : ScanId
  table : String
  label : Option String
  schema : Schema
  deriving DecidableEq

namespace Scan

/-- The name that a scan goes by: its label or, without one, its table. -/
def displayName (s : Scan) : String := s.label.getD s.table

/-- Whether a qualifier designates the scan. -/
def answersTo (s : Scan) (qualifier : String) : Bool :=
  s.label == some qualifier || s.table == qualifier

end Scan

/-- A column of a row. -/
structure Column where
  scanId : ScanId
  table : String
  label : Option String
  name : String
  type : DataType
  /-- Position of the field in the schema of its table. -/
  ordinal : Nat
  deriving DecidableEq, Repr

namespace Column

/-- The column's name behind the name its scan goes by. -/
def qualifiedName (c : Column) : String := c.label.getD c.table ++ "." ++ c.name

/-- Whether a field name designates the column. -/
def answersTo (c : Column) (f : FieldName) : Bool :=
  c.name == f.name &&
    match f.table with
    | none => true
    | some q => c.label == some q || c.table == q

end Column

/-- The columns of a row, in order. -/
abbrev Layout := List Column

namespace Layout

/-- The columns of a scan. -/
def ofScan (s : Scan) : Layout :=
  s.schema.fields.zipIdx.map fun f => ⟨s.id, s.table, s.label, f.1.name, f.1.type, f.2⟩

/-- The columns of several scans, one after the other. -/
def ofScans (scans : List Scan) : Layout := scans.flatMap ofScan

/-- The columns at some positions. A position beyond the row is left out. -/
def project (l : Layout) (positions : List Nat) : Layout := positions.filterMap fun i => l[i]?

/-- The position of the column that a field name designates. -/
def resolve (l : Layout) (f : FieldName) : Except PlanError Nat :=
  match l.zipIdx.filter fun c => c.1.answersTo f with
  | [] => .error (.unknownField f.text)
  | [(_, i)] => .ok i
  | found => .error (.ambiguousField f.text (found.map (·.1.qualifiedName)))

/-- The column that a field name designates. -/
def columnOf (l : Layout) (f : FieldName) : Except PlanError Column := do
  let i ← l.resolve f
  match l[i]? with
  | some c => return c
  | none => throw (.unknownField f.text)

/-- The positions of several field names. -/
def resolveAll (l : Layout) (fs : List FieldName) : Except PlanError (List Nat) :=
  fs.mapM l.resolve

/-- The positions of the columns by table id and ordinal. Rows that join the same scans in
different orders agree once their columns are put into this order. -/
def canonicalOrder (l : Layout) : List Nat :=
  (l.zipIdx.mergeSort fun a b =>
    a.1.scanId < b.1.scanId || (a.1.scanId == b.1.scanId && a.1.ordinal ≤ b.1.ordinal)).map
      (·.2)

end Layout

/-- The expression over the positions of a layout. -/
def Expr.bind (l : Layout) (e : Predicate) : Except PlanError RowExpr := e.traverse l.resolve

end SpatialStore
