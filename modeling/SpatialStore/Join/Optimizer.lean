import SpatialStore.Join.Candidates
import SpatialStore.Join.Tree
import SpatialStore.Table.Database

/-!
# Join optimization

The optimizer looks for selections over products of scans and replaces them by the plan of the
best join order. Everything else in a plan stays as it is.

`Plan.optimize` reports the reason when a plan cannot be optimized; `Plan.optimizeOrKeep` keeps
the plan in this case.
-/

namespace SpatialStore

/-- What the optimizer works with. -/
structure Optimizer where
  settings : JoinSettings
  /-- Number of rows of a table; a table that is not known has none. -/
  rowCount : String → Except SourceError (Option Nat)
  /-- The standing indexes, if they may be used. -/
  indexes : Option IndexRegistry

/-- The optimizer that uses the row counts and the indexes of a database. -/
def Optimizer.ofDatabase (db : Database) : Optimizer :=
  ⟨db.settings.join, db.rowCount, some db.indexes⟩

/-- A plan with the costs of the join orders chosen in it, from the bottom up, and the statistics
of the searches for them. -/
structure Optimized where
  plan : Plan
  costs : List JoinCost
  stats : SearchCounts

namespace Optimizer

/-- The first id that two scans have in common. -/
def duplicateId? (seen : List ScanId) : List Scan → Option ScanId
  | [] => none
  | s :: ss => if s.id ∈ seen then some s.id else duplicateId? (s.id :: seen) ss

/-- The table of a scan with its number of rows. -/
def inputOf (o : Optimizer) (s : Scan) : Except PlanError JoinInput :=
  match o.rowCount s.table with
  | .error e => .error (.storage e)
  | .ok none => .error (.unknownTable s.table)
  | .ok (some n) => .ok ⟨s, n⟩

/-- The best plan for a selection over a product of scans. -/
def joinScans (o : Optimizer) (predicates : List Predicate) (scans : List Scan) :
    Except PlanError Optimized :=
  match duplicateId? [] scans with
  | some id => .error (.duplicateScanId id)
  | none => do
    let predicates := Expr.conjunctsOfAll predicates
    let layout := Layout.ofScans scans
    let _ ← layout.resolveAll (Expr.columnsOfAll predicates)
    let inputs ← scans.mapM o.inputOf
    let candidates ← AccessPath.candidates o.indexes o.settings layout predicates
    let (best, stats) ← JoinPrefix.search inputs candidates o.settings.reduction
    let plan ← best.toPlan scans predicates
    return ⟨plan, [best.cost], stats⟩

end Optimizer

namespace Plan

/-- The scans that a selection over the plan can be optimized for: those of a product of at least
two scans. -/
def joinable? (p : Plan) : Option (List Scan) :=
  p.productLeaves?.filter fun scans => 2 ≤ scans.length

/-- The plan with the joins below every selection put into their best order. -/
def optimize (o : Optimizer) : Plan → Except PlanError Optimized
  | .scan s => return ⟨.scan s, [], .zero⟩
  | .select predicates p => do
    let input ← p.optimize o
    match input.plan.joinable? with
    | none => return { input with plan := .select predicates input.plan }
    | some scans =>
      let joined ← o.joinScans predicates scans
      return ⟨joined.plan, input.costs ++ joined.costs, input.stats.add joined.stats⟩
  | .project fields p => do
    let input ← p.optimize o
    return { input with plan := .project fields input.plan }
  | .product p q => do
    let left ← p.optimize o
    let right ← q.optimize o
    return ⟨.product left.plan right.plan, left.costs ++ right.costs, left.stats.add right.stats⟩
  | .lookup p s paths => do
    let left ← p.optimize o
    return { left with plan := .lookup left.plan s paths }

/-- The optimized plan, or the plan itself with the reason why it cannot be optimized. -/
def optimizeOrKeep (o : Optimizer) (p : Plan) : Optimized × Option PlanError :=
  match p.optimize o with
  | .ok optimized => (optimized, none)
  | .error e => (⟨p, [], .zero⟩, some e)

end Plan

end SpatialStore
