import SpatialStore.Editing.Error

/-!
# Which rows a schema admits

While a table is edited only the width of rows and the types of values are checked, by
`Schema.checkRow`. Constraints are looked at when the session is committed:
`Schema.firstViolation?` finds the first row, and in it the first field, with a value that the
field does not admit.
-/

namespace SpatialStore

/-- The value has to fit the type of the field. -/
def Field.checkType (f : Field) (v : Value) : Except EditError Unit :=
  if v.fits f.type then .ok () else .error (.typeMismatch f.name f.type v.typeName)

namespace Schema

/-- Every value has to fit the type of its field. -/
def checkTypes : List Field → Row → Except EditError Unit
  | f :: fs, v :: vs => do
    f.checkType v
    checkTypes fs vs
  | _, _ => .ok ()

/-- The row has to be as wide as the schema, and every value has to fit. -/
def checkRow (s : Schema) (row : Row) : Except EditError Unit :=
  if row.length = s.count then checkTypes s.fields row
  else .error (.rowWidthMismatch s.count row.length)

/-- The first of some fields with a value in the row that it does not admit, and the reason. -/
def rowViolation? : List Field → Row → Option (String × String)
  | f :: fs, v :: vs =>
    match f.violation? v with
    | some reason => some (f.name, reason)
    | none => rowViolation? fs vs
  | _, _ => none

/-- The first row with a violation, from position `i` on, with the field and the reason. -/
def violationFrom? (s : Schema) : Nat → List Row → Option (Nat × String × String)
  | _, [] => none
  | i, row :: rows =>
    match rowViolation? s.fields row with
    | some (field, reason) => some (i, field, reason)
    | none => violationFrom? s (i + 1) rows

/-- The first violation of a table. -/
def firstViolation? (s : Schema) (rows : List Row) : Option (Nat × String × String) :=
  s.violationFrom? 0 rows

end Schema

end SpatialStore
