import SpatialStore.Index.Registry
import SpatialStore.Query.Plan
import SpatialStore.Settings.Basic

/-!
# Access paths of a join

A predicate offers an access path to a table when one of its sides is a field of the table and the
other side refers to other tables only: once those are joined, every row so far can be looked up
in the index of the field. Equalities need a standing attribute index; `Intersects` and `Contains`
use a spatial one, which may also be built for the query.
-/

namespace SpatialStore

namespace AccessPath

/-- The kind of index a predicate can use, and its two sides. -/
def sides? : Predicate → Option (IndexKind × Predicate × Predicate)
  | .compare .eq l r => some (.attribute, l, r)
  | .spatial _ l r => some (.spatial, l, r)
  | _ => none

/-- Ids in ascending order, each once. -/
def sortedIds (ids : List ScanId) : List ScanId := (ids.mergeSort (· ≤ ·)).eraseReps

/-- The access path that looks up one side of a predicate in the index of the other, if it exists.
References that do not resolve are an error. -/
def ofSide? (indexes : IndexRegistry) (settings : JoinSettings) (layout : Layout) (id : Nat)
    (predicate : Predicate) (kind : IndexKind) (target lookup : Predicate) :
    Except PlanError (Option AccessPath) :=
  match target with
  | .column f => do
    let column ← layout.columnOf f
    if !kind.supports column.type then return none
    let referred ← lookup.columns.mapM fun g => (layout.columnOf g).map (·.scanId)
    let tables := sortedIds referred
    if tables.isEmpty || tables.contains column.scanId then return none
    let standing := indexes.kind? column.table column.name == some kind
    if !standing && !(kind == .spatial && settings.allowAdHoc) then return none
    return some ⟨id, predicate, column.scanId, column.name, kind, !standing, lookup, tables⟩
  | _ => return none

/-- The access paths of one predicate: to its left side and to its right side. -/
def ofPredicate (indexes : IndexRegistry) (settings : JoinSettings) (layout : Layout)
    (p : Predicate × Nat) : Except PlanError (List AccessPath) :=
  match sides? p.1 with
  | none => return []
  | some (kind, l, r) => do
    let left ← ofSide? indexes settings layout p.2 p.1 kind l r
    let right ← ofSide? indexes settings layout p.2 p.1 kind r l
    return left.toList ++ right.toList

/-- The access paths that some predicates offer to the tables of a layout. Without a registry
there are none. -/
def candidates (indexes : Option IndexRegistry) (settings : JoinSettings) (layout : Layout)
    (predicates : List Predicate) : Except PlanError (List AccessPath) :=
  match indexes with
  | none => return []
  | some indexes => do
    let paths ← predicates.zipIdx.mapM (ofPredicate indexes settings layout)
    return paths.flatten

end AccessPath

end SpatialStore
