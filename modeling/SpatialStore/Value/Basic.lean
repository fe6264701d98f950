import SpatialStore.Geometry.Bounds
import SpatialStore.Geometry.Dimension

/-!
# Values

A field of a row holds a value: a truth value, a 64-bit integer, a double, a string, a geometry,
or nothing at all (`null`).

Values are compared in two ways. `Value.compare?` orders truth values, numbers and strings; two
integers are compared exactly, while an integer is rounded to a double when it meets one.
`Value.queryEq` is equality in the sense of a query, in which a null equals nothing and geometries
are equal when they have the same structure.
-/

namespace SpatialStore

/-- The types a field can have. -/
inductive DataType where
  | boolean
  | int
  | double
  | string
  | geometry
  deriving DecidableEq, Repr

namespace DataType

/-- Name of a type. -/
def name : DataType → String
  | .boolean => "BOOLEAN"
  | .int => "INT"
  | .double => "DOUBLE"
  | .string => "STRING"
  | .geometry => "GEOMETRY"

/-- Whether values of the type are numbers. -/
def isNumeric : DataType → Bool
  | .int | .double => true
  | _ => false

end DataType

/-- A field value. -/
inductive Value where
  | null
  | bool (b : Bool)
  | int (i : Int64)
  | double (d : Float)
  | string (s : String)
  | geometry (g : Geometry)

/-- The values of a row, one for each field. -/
abbrev Row := List Value

namespace Value

instance : Inhabited Value := ⟨.null⟩

/-- Type of a value; a null has none. -/
def type? : Value → Option DataType
  | .null => none
  | .bool _ => some .boolean
  | .int _ => some .int
  | .double _ => some .double
  | .string _ => some .string
  | .geometry _ => some .geometry

/-- Name of the type of a value, as it stands in messages. -/
def typeName (v : Value) : String :=
  match v.type? with
  | some t => t.name
  | none => "NULL"

def isNull : Value → Bool
  | .null => true
  | _ => false

/-- Whether a value can be stored in a field of a type. A null fits every type, and an integer
fits a double field too. -/
def fits (v : Value) (t : DataType) : Bool :=
  match v.type?, t with
  | none, _ => true
  | some .int, .double => true
  | some actual, expected => actual == expected

/-- The number of a numeric value, an integer rounded to the nearest double. -/
def toDouble? : Value → Option Float
  | .int i => some (Double.ofInt i.toInt)
  | .double d => some d
  | _ => none

def toGeometry? : Value → Option Geometry
  | .geometry g => some g
  | _ => none

/-- Envelope of a geometry that is not empty. -/
def envelope? (v : Value) : Option Envelope :=
  v.toGeometry?.bind Geometry.envelope?

/-- Topological dimension of a geometry that is not empty. -/
def dimension? (v : Value) : Option Nat :=
  v.toGeometry?.bind Geometry.dimension?

/-- Order of two values, `none` when their types do not compare or a NaN takes part. -/
def compare? : Value → Value → Option Ordering
  | .bool a, .bool b => some (compare a b)
  | .int a, .int b => some (compare a.toInt b.toInt)
  | .string a, .string b => some (compare a b)
  | a, b =>
    match a.toDouble?, b.toDouble? with
    | some x, some y => Double.compare? x y
    | _, _ => none

/-- Equality in the sense of a query. -/
def queryEq : Value → Value → Bool
  | .null, _ | _, .null => false
  | .geometry g, .geometry h => g.same h
  | a, b => compare? a b == some .eq

/-- Structural equality: the same kind of value with the same content. -/
def same : Value → Value → Bool
  | .null, .null => true
  | .bool a, .bool b => a == b
  | .int a, .int b => a == b
  | .double a, .double b => a == b
  | .string a, .string b => a == b
  | .geometry g, .geometry h => g.same h
  | _, _ => false

end Value

/-- Rows are equal when they have the same length and equal values. -/
def Row.same (r s : Row) : Bool :=
  r.length == s.length && (r.zip s).all fun v => v.1.same v.2

end SpatialStore
