import SpatialStore.Query.Layout

/-!
# Plans

A plan says how the rows of a query are produced: by scanning tables, selecting rows, projecting
columns and forming products. A lookup product goes through the rows of its left side and finds
the matching rows of the table on the right through an index; `AccessPath` describes such a use
of an index.
-/

namespace SpatialStore

/-- A way to the rows of a table through the index of a field: for every row of the tables joined
before, the lookup gives the value that is searched for. -/
structure AccessPath where
  /-- Position of the predicate among the conjuncts of its selection. -/
  predicateId : Nat
  predicate : Predicate
  scanId : ScanId
  field : String
  kind : IndexKind
  /-- Whether the index does not stand yet and is built for the query. -/
  adHoc : Bool
  /-- The side of the predicate that is evaluated on the rows joined before. -/
  lookup : Predicate
  /-- The tables that the lookup refers to, in ascending order. -/
  lookupScans : List ScanId

/-- The index query for a value of the lookup; `none` when no row can match the value. -/
def AccessPath.indexQuery? (p : AccessPath) (v : Value) : Option IndexQuery :=
  match p.kind with
  | .spatial => v.envelope?.map fun e => .window p.field e
  | .attribute => if v.isNull then none else some (.equals p.field v)

/-- A query plan. -/
inductive Plan where
  | scan (s : Scan)
  /-- The rows on which every predicate is true. -/
  | select (predicates : List Predicate) (input : Plan)
  /-- Some columns of every row. -/
  | project (fields : List FieldName) (input : Plan)
  /-- Every pair of rows. -/
  | product (left right : Plan)
  /-- The pairs of rows on which the predicates of all access paths are true, found through the
  first of them. -/
  | lookup (left : Plan) (right : Scan) (paths : List AccessPath)

namespace Plan

/-- The product of some scans, grouped to the left; no scans have none. -/
def productOf? : List Scan → Option Plan
  | [] => none
  | s :: ss => some (ss.foldl (fun p s => .product p (.scan s)) (.scan s))

/-- The scans of a plan that consists of products over scans only. -/
def productLeaves? : Plan → Option (List Scan)
  | .scan s => some [s]
  | .product l r =>
    match l.productLeaves?, r.productLeaves? with
    | some ss, some ts => some (ss ++ ts)
    | _, _ => none
  | _ => none

/-- Every scan of a plan, from left to right. -/
def scans : Plan → List Scan
  | .scan s => [s]
  | .select _ p | .project _ p => p.scans
  | .product l r => l.scans ++ r.scans
  | .lookup l r _ => l.scans ++ [r]

/-- The columns of the rows that a plan produces. -/
def layout : Plan → Except PlanError Layout
  | .scan s => return .ofScan s
  | .select _ p => p.layout
  | .project fields p => do
    let l ← p.layout
    return l.project (← l.resolveAll fields)
  | .product p q => do
    let l ← p.layout
    return l ++ (← q.layout)
  | .lookup p s _ => do
    let l ← p.layout
    return l ++ Layout.ofScan s

/-! ### Text -/

/-- One line of a plan's text. -/
def line (depth : Nat) (content : String) : String :=
  String.ofList (List.replicate (2 * depth) ' ') ++ content ++ "\n"

/-- A list of texts in brackets. -/
def bracketed (items : List String) : String := "[" ++ ", ".intercalate items ++ "]"

/-- The line of a scan. -/
def scanLine (depth : Nat) (s : Scan) : String :=
  line depth ("Scan " ++ s.table ++
    match s.label with
    | some a => " AS " ++ a
    | none => "")

/-- Text of an access path. -/
def pathText (p : AccessPath) : String :=
  (if p.adHoc then "ad hoc " else "") ++ p.kind.name ++ " ON " ++ p.predicate.text

/-- Text of a plan, every operator on a line of its own above its inputs. -/
def textFrom (depth : Nat) : Plan → String
  | .scan s => scanLine depth s
  | .select predicates p =>
    line depth ("Selection " ++ bracketed (predicates.map Expr.text)) ++ p.textFrom (depth + 1)
  | .project fields p =>
    line depth ("Projection " ++ bracketed (fields.map FieldName.text)) ++ p.textFrom (depth + 1)
  | .product l r =>
    line depth "ScalarProduct" ++ l.textFrom (depth + 1) ++ r.textFrom (depth + 1)
  | .lookup l r paths =>
    line depth ("IndexScalarProduct " ++ bracketed (paths.map pathText)) ++
      l.textFrom (depth + 1) ++ scanLine (depth + 1) r

/-- Text of a plan. -/
def text (p : Plan) : String := p.textFrom 0

end Plan

end SpatialStore
