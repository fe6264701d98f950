/-!
# Geometries

Planar geometries over double coordinates: points, segments, line strings, polygons with holes,
their multi variants, axis-parallel rectangles, triangles and nested collections.

Equality of geometries is structural: the same shape with the same coordinates in the same
order, coordinates compared as numbers. A point at `-0` therefore equals one at `0`, and a
geometry with a NaN coordinate does not equal itself.
-/

namespace SpatialStore

/-- A position in the plane. -/
structure Coord where
  x : Float
  y : Float

/-- Coordinates are equal when both numbers are. -/
def Coord.same (a b : Coord) : Bool := a.x == b.x && a.y == b.y

/-- Lists of coordinates are equal when they have the same length and equal members. -/
def Coord.sameAll : List Coord → List Coord → Bool
  | [], [] => true
  | a :: as, b :: bs => a.same b && sameAll as bs
  | _, _ => false

/-- A closed ring repeats its first coordinate at the end; the empty ring is closed. -/
def Coord.closed (cs : List Coord) : Bool :=
  match cs.head?, cs.getLast? with
  | some first, some last => first.same last
  | _, _ => true

/-- The ring, with its first coordinate repeated at the end unless it is closed already. -/
def Coord.close (cs : List Coord) : List Coord :=
  if Coord.closed cs then cs else cs ++ cs.head?.toList

/-- An area inside an exterior ring and outside of the holes. -/
structure Polygon where
  exterior : List Coord
  holes : List (List Coord)

/-- The polygon over some rings, each closed. -/
def Polygon.ofRings (exterior : List Coord) (holes : List (List Coord)) : Polygon :=
  ⟨Coord.close exterior, holes.map Coord.close⟩

/-- The exterior and the holes, in this order. -/
def Polygon.rings (p : Polygon) : List (List Coord) := p.exterior :: p.holes

/-- Polygons are equal when their rings are, in order. -/
def Polygon.same (p q : Polygon) : Bool :=
  Coord.sameAll p.exterior q.exterior && p.holes.length == q.holes.length &&
    (p.holes.zip q.holes).all fun r => Coord.sameAll r.1 r.2

/-- An axis-parallel rectangle between a lower and an upper corner. -/
structure Rectangle where
  low : Coord
  high : Coord

namespace Rectangle

/-- The rectangle with two given opposite corners. On each axis the smaller number belongs to the
lower corner; if the first is not smaller, the second goes there. -/
def ofCorners (a b : Coord) : Rectangle :=
  let (x₁, x₂) := if a.x < b.x then (a.x, b.x) else (b.x, a.x)
  let (y₁, y₂) := if a.y < b.y then (a.y, b.y) else (b.y, a.y)
  ⟨⟨x₁, y₁⟩, ⟨x₂, y₂⟩⟩

/-- Rectangles are equal when their corners are. -/
def same (r s : Rectangle) : Bool := r.low.same s.low && r.high.same s.high

/-- The ring around a rectangle. -/
def ring (r : Rectangle) : List Coord :=
  [⟨r.high.x, r.low.y⟩, r.high, ⟨r.low.x, r.high.y⟩, r.low, ⟨r.high.x, r.low.y⟩]

end Rectangle

/-- A planar geometry. -/
inductive Geometry where
  | point (c : Coord)
  | line (start stop : Coord)
  | lineString (cs : List Coord)
  | polygon (p : Polygon)
  | multiPoint (cs : List Coord)
  | multiLineString (ls : List (List Coord))
  | multiPolygon (ps : List Polygon)
  | rect (r : Rectangle)
  | triangle (a b c : Coord)
  | collection (gs : List Geometry)

instance : Inhabited Geometry := ⟨.collection []⟩

namespace Geometry

mutual

/-- Structural equality. -/
def same : Geometry → Geometry → Bool
  | .point a, .point b => a.same b
  | .line a b, .line c d => a.same c && b.same d
  | .lineString a, .lineString b => Coord.sameAll a b
  | .polygon a, .polygon b => a.same b
  | .multiPoint a, .multiPoint b => Coord.sameAll a b
  | .multiLineString a, .multiLineString b =>
    a.length == b.length && (a.zip b).all fun l => Coord.sameAll l.1 l.2
  | .multiPolygon a, .multiPolygon b =>
    a.length == b.length && (a.zip b).all fun p => p.1.same p.2
  | .rect r, .rect s => r.same s
  | .triangle a b c, .triangle d e f => a.same d && b.same e && c.same f
  | .collection as, .collection bs => sameAll as bs
  | _, _ => false

/-- Structural equality of lists of geometries. -/
def sameAll : List Geometry → List Geometry → Bool
  | [], [] => true
  | a :: as, b :: bs => a.same b && sameAll as bs
  | _, _ => false

end

/-- The family a geometry field can be restricted to. Each family holds the single and the
multi variant of a shape. -/
inductive Family where
  | point
  | lineString
  | polygon
  deriving DecidableEq, Repr

/-- Name of a family. -/
def Family.name : Family → String
  | .point => "Point"
  | .lineString => "LineString"
  | .polygon => "Polygon"

/-- The family of a geometry; a collection belongs to none. -/
def family? : Geometry → Option Family
  | .point _ | .multiPoint _ => some .point
  | .line _ _ | .lineString _ | .multiLineString _ => some .lineString
  | .polygon _ | .multiPolygon _ | .rect _ | .triangle _ _ _ => some .polygon
  | .collection _ => none

/-- Name of the shape among the simple features. -/
def typeName : Geometry → String
  | .point _ => "Point"
  | .line _ _ | .lineString _ => "LineString"
  | .polygon _ | .rect _ | .triangle _ _ _ => "Polygon"
  | .multiPoint _ => "MultiPoint"
  | .multiLineString _ => "MultiLineString"
  | .multiPolygon _ => "MultiPolygon"
  | .collection _ => "GeometryCollection"

/-- The triangle with three given corners. Corners in clockwise order are reversed, where the turn
is computed in doubles. -/
def triangleOf (a b c : Coord) : Geometry :=
  if (b.x - a.x) * (c.y - a.y) - (b.y - a.y) * (c.x - a.x) < 0 then .triangle c b a
  else .triangle a b c

/-- The ring around a triangle. -/
def triangleRing (a b c : Coord) : List Coord := [a, b, c, a]

end Geometry

end SpatialStore
