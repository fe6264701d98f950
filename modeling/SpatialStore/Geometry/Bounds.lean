import SpatialStore.Geometry.Envelope

/-!
# Bounds of a geometry

`Geometry.bounds?` is the smallest rectangle around the coordinates of a geometry. Of a polygon
only the exterior counts. A collection merges the bounds of its members. A geometry without
coordinates has no bounds and so no envelope.
-/

namespace SpatialStore

/-- Least and greatest of `first` and the numbers after it, found in one pass: a number that is
no new maximum may be a new minimum. -/
def Double.range (first : Float) (rest : List Float) : Float × Float :=
  rest.foldl
    (fun r x => if r.2 < x then (r.1, x) else if x < r.1 then (x, r.2) else r)
    (first, first)

namespace Rectangle

/-- The smallest rectangle around some coordinates. -/
def around? : List Coord → Option Rectangle
  | [] => none
  | c :: cs =>
    let (x₁, x₂) := Double.range c.x (cs.map (·.x))
    let (y₁, y₂) := Double.range c.y (cs.map (·.y))
    some (ofCorners ⟨x₁, y₁⟩ ⟨x₂, y₂⟩)

/-- The smallest rectangle around two rectangles. -/
def merge (r s : Rectangle) : Rectangle :=
  ofCorners
    ⟨if r.low.x < s.low.x then r.low.x else s.low.x, if r.low.y < s.low.y then r.low.y else s.low.y⟩
    ⟨if s.high.x < r.high.x then r.high.x else s.high.x,
      if s.high.y < r.high.y then r.high.y else s.high.y⟩

/-- The bounds of two parts, each of which may be empty. -/
def merge? : Option Rectangle → Option Rectangle → Option Rectangle
  | some r, some s => some (r.merge s)
  | some r, none => some r
  | none, s => s

end Rectangle

namespace Geometry

mutual

/-- The smallest rectangle around a geometry. -/
def bounds? : Geometry → Option Rectangle
  | .point c => some (Rectangle.ofCorners c c)
  | .line a b => some (Rectangle.ofCorners a b)
  | .lineString cs => Rectangle.around? cs
  | .polygon p => Rectangle.around? p.exterior
  | .multiPoint cs => Rectangle.around? cs
  | .multiLineString ls => Rectangle.around? ls.flatten
  | .multiPolygon ps => Rectangle.around? (ps.flatMap (·.exterior))
  | .rect r => some r
  | .triangle a b c => Rectangle.around? [a, b, c]
  | .collection gs => boundsFrom none gs

/-- The bounds of a list of geometries, merged into those found so far. -/
def boundsFrom (found : Option Rectangle) : List Geometry → Option Rectangle
  | [] => found
  | g :: gs => boundsFrom (Rectangle.merge? found g.bounds?) gs

end

/-- The envelope of a geometry; an empty geometry has none. -/
def envelope? (g : Geometry) : Option Envelope :=
  g.bounds?.map Envelope.ofRectangle

end Geometry

end SpatialStore
