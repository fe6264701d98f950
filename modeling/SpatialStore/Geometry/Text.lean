import SpatialStore.Decimal.Text
import SpatialStore.Geometry.Basic

/-!
# Text of a geometry

The well-known text of a geometry, with numbers in `DecimalStyle.scientific`. Rows are put into
canonical order by texts made of it.
-/

namespace SpatialStore

namespace Coord

/-- The two numbers, with a blank between them. -/
def text (c : Coord) : String :=
  Double.text .scientific c.x ++ " " ++ Double.text .scientific c.y

/-- A parenthesised list of coordinates, or the word for an empty one. -/
def listText (cs : List Coord) : String :=
  if cs.isEmpty then "EMPTY" else "(" ++ ",".intercalate (cs.map text) ++ ")"

end Coord

/-- The texts of the rings; a polygon with an empty exterior and no holes has none. -/
def Polygon.ringTexts (p : Polygon) : List String :=
  if p.exterior.isEmpty && p.holes.isEmpty then [] else p.rings.map Coord.listText

/-- A parenthesised list of rings, or the word for an empty polygon. -/
def Polygon.text (p : Polygon) : String :=
  let rings := p.ringTexts
  if rings.isEmpty then "EMPTY" else "(" ++ ",".intercalate rings ++ ")"

namespace Geometry

/-- A tag with its members in parentheses, or with the word for no members. -/
def tagged (tag : String) (members : List String) : String :=
  if members.isEmpty then tag ++ " EMPTY" else tag ++ "(" ++ ",".intercalate members ++ ")"

mutual

/-- Well-known text. -/
def text : Geometry → String
  | .point c => tagged "POINT" [c.text]
  | .line a b => tagged "LINE" [a.text, b.text]
  | .lineString cs => tagged "LINESTRING" (cs.map Coord.text)
  | .polygon p => tagged "POLYGON" p.ringTexts
  | .multiPoint cs => tagged "MULTIPOINT" (cs.map Coord.text)
  | .multiLineString ls => tagged "MULTILINESTRING" (ls.map Coord.listText)
  | .multiPolygon ps => tagged "MULTIPOLYGON" (ps.map Polygon.text)
  | .rect r => tagged "RECT" [r.low.text, r.high.text]
  | .triangle a b c => tagged "TRIANGLE" [a.text, b.text, c.text]
  | .collection gs => tagged "GEOMETRYCOLLECTION" (textOfAll gs)

/-- Well-known texts of a list of geometries. -/
def textOfAll : List Geometry → List String
  | [] => []
  | g :: gs => g.text :: textOfAll gs

end

end Geometry

end SpatialStore
