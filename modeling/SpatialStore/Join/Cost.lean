import SpatialStore.Query.Plan

/-!
# Cost of a join

A join order costs the product of the rows that its tables contribute, plus the rows that go
through indexes built for the query. A table reached through an index contributes its rows
divided by the reduction, one without rows counts as one row.
-/

namespace SpatialStore

/-- The cost of joining some tables. -/
structure JoinCost where
  /-- The product of the contributed rows. -/
  proportional : Float
  /-- The rows put into indexes that are built for the query. -/
  constant : Float

namespace JoinCost

/-- The cost of joining nothing. -/
def initial : JoinCost := ⟨1, 0⟩

def total (c : JoinCost) : Float := c.proportional + c.constant

/-- Names that occur in a list, each once, in order of first occurrence. -/
def distinct (seen : List String) : List String → List String
  | [] => []
  | n :: ns => if n ∈ seen then distinct seen ns else n :: distinct (n :: seen) ns

/-- The cost after joining a table of some rows, reached through access paths or by a scan. Every
field with an index built for the query adds the rows once. -/
def join (reduction : Float) (c : JoinCost) (rowCount : Nat) (paths : List AccessPath) :
    JoinCost :=
  let rows := Float.ofNat (max rowCount 1)
  if paths.isEmpty then ⟨c.proportional * rows, c.constant⟩
  else
    let built := distinct [] ((paths.filter (·.adHoc)).map (·.field))
    ⟨c.proportional * rows / reduction, built.foldl (fun k _ => k + rows) c.constant⟩

end JoinCost

end SpatialStore
