import SpatialStore.Index.Basic
import SpatialStore.Table.Source

/-!
# Errors of planning and execution

A `PlanFault` is a condition that a plan or join order made by the optimizer never meets; it can
only arise from one that was put together in another way.
-/

namespace SpatialStore

/-- Identity of a scan within a query. -/
abbrev ScanId := Nat

/-- Text of a table id. -/
def ScanId.text (id : ScanId) : String := s!"#{id}"

/-- What is wrong with a join order or a plan. -/
inductive PlanFault where
  | notPending (table : ScanId)
  | noInput (table : ScanId)
  | nothingToJoin
  | noCompleteOrder
  | incompleteOrder (pending : Nat)
  | otherCount (joined scans : Nat)
  | emptyOrder
  | leadingTableHasPaths (table : ScanId)
  | noScan (table : ScanId)
  | foreignPath (path table : ScanId)
  | unknownPredicate (id : Nat)
  | embeddedTwice (id : Nat)
  | noPath (scan : String)
  deriving DecidableEq, Repr

/-- The message of a fault. -/
def PlanFault.message : PlanFault → String
  | .notPending table => "table " ++ table.text ++ " is not pending"
  | .noInput table => "no optimization info for table " ++ table.text
  | .nothingToJoin => "join search over no operators"
  | .noCompleteOrder => "join search found no complete order"
  | .incompleteOrder pending => s!"join order has {pending} pending tables"
  | .otherCount joined scans => s!"join order fixes {joined} tables for {scans} scans"
  | .emptyOrder => "join order fixes no table"
  | .leadingTableHasPaths table => "index scans attached to leading table " ++ table.text
  | .noScan table => "fixed table " ++ table.text ++ " has no scan"
  | .foreignPath path table =>
    "index scan on table " ++ path.text ++ " attached to table " ++ table.text
  | .unknownPredicate id => s!"unknown predicate {id}"
  | .embeddedTwice id => s!"predicate {id} embedded twice"
  | .noPath scan => "index product on " ++ scan ++ " without index scans"

/-- Why a plan cannot be made or executed. -/
inductive PlanError where
  | unknownField (field : String)
  | ambiguousField (field : String) (candidates : List String)
  | unknownTable (table : String)
  | duplicateScanId (id : ScanId)
  | fault (f : PlanFault)
  | index (e : IndexError)
  | storage (e : SourceError)
  deriving DecidableEq, Repr

/-- The message of an error. -/
def PlanError.message : PlanError → String
  | .unknownField field => "Unknown field: " ++ field
  | .ambiguousField field candidates =>
    "Ambiguous field " ++ field ++ ", candidates: " ++ ", ".intercalate candidates
  | .unknownTable table => "Unknown table: " ++ table
  | .duplicateScanId id => s!"Table id {id} used by more than one scan"
  | .fault f => "Internal planning fault: " ++ f.message
  | .index e => "Index error: " ++ e.message
  | .storage e => "Storage error: " ++ e.message

end SpatialStore
