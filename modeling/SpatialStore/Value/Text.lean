import SpatialStore.Geometry.Text
import SpatialStore.Text.Quoted
import SpatialStore.Value.Basic

/-!
# Texts of a value

`Value.text` is what messages and plans show: a geometry appears as its type with its envelope.
`Value.canonicalText` shows everything, and serves to put rows into an order that does not depend
on how they were found.
-/

namespace SpatialStore.Value

/-- Text of a value for the reader of a message. -/
def text : Value → String
  | .null => "NULL"
  | .bool b => if b then "true" else "false"
  | .int i => toString i.toInt
  | .double d => Double.text .plain d
  | .string s => "'" ++ s ++ "'"
  | .geometry g =>
    match g.envelope? with
    | none => g.typeName ++ "(EMPTY)"
    | some e =>
      g.typeName ++ "(" ++
        ", ".intercalate ([e.minX, e.minY, e.maxX, e.maxY].map (Double.text .plain)) ++ ")"

/-- Text of a value with its full content. -/
def canonicalText : Value → String
  | .null => "Null"
  | .bool b => "Bool(" ++ (if b then "true" else "false") ++ ")"
  | .int i => "Int(" ++ toString i.toInt ++ ")"
  | .double d => "Double(" ++ Double.text .scientific d ++ ")"
  | .string s => "String(" ++ Text.quoted s ++ ")"
  | .geometry g => "Geometry(" ++ g.text ++ ")"

/-- Text of a row with the full content of its values. -/
def rowText (row : Row) : String :=
  "[" ++ ", ".intercalate (row.map canonicalText) ++ "]"

end SpatialStore.Value
