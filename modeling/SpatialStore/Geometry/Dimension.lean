import SpatialStore.Geometry.Orientation

/-!
# Topological dimension

Points have dimension 0, lines 1 and areas 2. A line or area whose coordinates all coincide
counts as a point, a polygon with two different coordinates always as an area. Rectangles and
triangles are looked at more closely: a flat one is a line. An empty geometry has no dimension.
-/

namespace SpatialStore

/-- The larger of two dimensions; an empty part does not count. -/
def Dimension.join : Option Nat → Option Nat → Option Nat
  | some m, some n => some (max m n)
  | some m, none => some m
  | none, d => d

/-- Dimension `extended` for coordinates that are not all the same, 0 for a repeated one. -/
def Dimension.ofCoords (extended : Nat) : List Coord → Option Nat
  | [] => none
  | c :: cs => if (c :: cs).all (c.same ·) then some 0 else some extended

namespace Geometry

mutual

/-- The topological dimension, `none` for an empty geometry. -/
def dimension? : Geometry → Option Nat
  | .point _ => some 0
  | .line a b => some (if a.same b then 0 else 1)
  | .lineString cs => Dimension.ofCoords 1 cs
  | .polygon p => Dimension.ofCoords 2 p.exterior
  | .multiPoint cs => if cs.isEmpty then none else some 0
  | .multiLineString ls => ls.foldl (fun d l => Dimension.join d (Dimension.ofCoords 1 l)) none
  | .multiPolygon ps => if ps.isEmpty then none else some 2
  | .rect r =>
    if r.low.same r.high then some 0
    else if r.low.x == r.high.x || r.low.y == r.high.y then some 1
    else some 2
  | .triangle a b c =>
    if Coord.turn a b c == .straight then
      some (if a.same b && b.same c then 0 else 1)
    else some 2
  | .collection gs => dimensionFrom none gs

/-- The largest dimension among a list of geometries and the one found so far. -/
def dimensionFrom (found : Option Nat) : List Geometry → Option Nat
  | [] => found
  | g :: gs => dimensionFrom (Dimension.join found g.dimension?) gs

end

end Geometry

end SpatialStore
