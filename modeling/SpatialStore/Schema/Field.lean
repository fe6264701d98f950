import SpatialStore.Value.Text

/-!
# Fields and constraints

A field has a name, a type and constraints on its values. A constraint that says nothing about
the type of a value is satisfied by it. `Field.violation?` gives the first reason why a value
cannot be stored in a field.
-/

namespace SpatialStore

/-- A restriction on the values of a field. -/
inductive Constraint where
  /-- No null. -/
  | notNull
  /-- At most so many characters in a string. -/
  | length (max : Nat)
  /-- Geometries of one family only. -/
  | family (f : Geometry.Family)
  /-- Geometries up to a topological dimension. -/
  | dimension (max : Nat)
  deriving DecidableEq, Repr

namespace Constraint

/-- Whether a value satisfies the constraint. An empty geometry has no dimension and exceeds
none. -/
def admits : Constraint → Value → Bool
  | .notNull, v => !v.isNull
  | .length max, .string s => s.length ≤ max
  | .family f, .geometry g => g.family? == some f
  | .dimension max, .geometry g =>
    match g.dimension? with
    | none => true
    | some d => d ≤ max
  | _, _ => true

/-- Text of a constraint. -/
def text : Constraint → String
  | .notNull => "NOT NULL"
  | .length max => s!"LENGTH <= {max}"
  | .family f => "GEOMETRY TYPE " ++ f.name
  | .dimension max => s!"DIMENSION <= {max}"

end Constraint

/-- A named and typed column of a table. -/
structure Field where
  name : String
  type : DataType
  constraints : List Constraint
  deriving DecidableEq, Repr

namespace Field

/-- Whether the field holds geometries. -/
def isSpatial (f : Field) : Bool := f.type == .geometry

/-- Why a value cannot be stored in the field; `none` if it can. The type is looked at first,
then the constraints in order. -/
def violation? (f : Field) (v : Value) : Option String :=
  if v.fits f.type then
    (f.constraints.find? fun c => !c.admits v).map fun c => v.text ++ " violates " ++ c.text
  else
    some ("expected " ++ f.type.name ++ " but found " ++ v.typeName)

end Field

end SpatialStore
