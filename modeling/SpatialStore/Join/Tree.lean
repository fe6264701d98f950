import SpatialStore.Join.Order

/-!
# The plan of a join order

`JoinPrefix.toPlan` turns a complete join order into products that are grouped to the left. A
table with access paths becomes the right side of a lookup product, which takes over their
predicates; the other predicates remain in a selection above.
-/

namespace SpatialStore

namespace JoinPrefix

/-- The scan of a table. -/
def scanOf (scans : List Scan) (id : ScanId) : Except PlanError Scan :=
  match scans.find? fun s => s.id == id with
  | some s => .ok s
  | none => .error (.fault (.noScan id))

/-- Take over the predicate of an access path to a table. It has to be one that was not taken over
yet. -/
def embed (table : ScanId) (rest : List (Option Predicate)) (path : AccessPath) :
    Except PlanError (List (Option Predicate)) :=
  if path.scanId ≠ table then .error (.fault (.foreignPath path.scanId table))
  else
    match rest[path.predicateId]? with
    | none => .error (.fault (.unknownPredicate path.predicateId))
    | some none => .error (.fault (.embeddedTwice path.predicateId))
    | some (some _) => .ok (rest.set path.predicateId none)

/-- The product of a plan with one more table, and the predicates that are left. -/
def joinStep (scans : List Scan) (state : Plan × List (Option Predicate)) (step : JoinStep) :
    Except PlanError (Plan × List (Option Predicate)) := do
  let right ← scanOf scans step.scanId
  if step.paths.isEmpty then return (.product state.1 (.scan right), state.2)
  else
    let rest ← step.paths.foldlM (embed step.scanId) state.2
    return (.lookup state.1 right step.paths, rest)

/-- The plan of a complete order over some scans: the predicates that no product took over, above
the products. -/
def toPlan (p : JoinPrefix) (scans : List Scan) (predicates : List Predicate) :
    Except PlanError Plan :=
  if !p.complete then .error (.fault (.incompleteOrder p.pending.length))
  else if p.steps.length ≠ scans.length then
    .error (.fault (.otherCount p.steps.length scans.length))
  else
    match p.steps with
    | [] => .error (.fault .emptyOrder)
    | first :: steps =>
      if !first.paths.isEmpty then .error (.fault (.leadingTableHasPaths first.scanId))
      else do
        let leading ← scanOf scans first.scanId
        let (plan, rest) ←
          steps.foldlM (joinStep scans) (.scan leading, predicates.map some)
        return .select (rest.filterMap id) plan

end JoinPrefix

end SpatialStore
