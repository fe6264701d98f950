import SpatialStore.Geometry.Bounds
import SpatialStore.Geometry.Ring

/-!
# Intersection of geometries

A geometry is made of parts: coordinates, segments, areas and boxes. Two geometries intersect when
a part of one meets a part of the other, borders included. A line string is the union of its
segments, so one with a single coordinate meets nothing.

The parts of a line string, of a multi line string or multi polygon and of a collection are
grouped, and a group is looked into only if its bounds meet those of the other side. The bounds of
an area are those of its exterior, so a hole that reaches beyond the exterior does not add to them.
-/

namespace SpatialStore

namespace Rectangle

/-- Whether two rectangles share a point. -/
def meets (r s : Rectangle) : Bool :=
  !(r.high.x < s.low.x) && !(r.high.y < s.low.y) && !(s.high.x < r.low.x) && !(s.high.y < r.low.y)

/-- Whether a coordinate is in the rectangle. -/
def holds (r : Rectangle) (c : Coord) : Bool :=
  r.low.x ≤ c.x && c.x ≤ r.high.x && r.low.y ≤ c.y && c.y ≤ r.high.y

/-- The bottom, right, top and left side. -/
def sides (r : Rectangle) : List (Segment Coord) :=
  let bottomRight : Coord := ⟨r.high.x, r.low.y⟩
  let topLeft : Coord := ⟨r.low.x, r.high.y⟩
  [⟨r.low, bottomRight⟩, ⟨bottomRight, r.high⟩, ⟨topLeft, r.high⟩, ⟨r.low, topLeft⟩]

/-- Whether the rectangle and a segment share a point: an end of the segment is in the rectangle,
or the segment meets a side. -/
def meetsSegment (r : Rectangle) (s : Segment Coord) : Bool :=
  r.holds s.start || r.holds s.stop || r.sides.any (·.meets s)

/-- Whether two bounds have no point in common. What has no bounds is apart from nothing. -/
def apart : Option Rectangle → Option Rectangle → Bool
  | some r, some s => !r.meets s
  | _, _ => false

end Rectangle

namespace Segment

/-- The bounds of a segment. -/
def bounds (s : Segment Coord) : Rectangle := Rectangle.ofCorners s.start s.stop

/-- Whether a path meets a segment. -/
def pathMeets (path : List Coord) (s : Segment Coord) : Bool :=
  !Rectangle.apart (Rectangle.around? path) s.bounds && (ofPath path).any (·.meets s)

end Segment

namespace Polygon

/-- The bounds of a polygon are those of its exterior. -/
def bounds? (p : Polygon) : Option Rectangle := Rectangle.around? p.exterior

/-- Whether the polygon and a segment share a point: the segment meets a ring, or one of its ends
is in the polygon. -/
def meetsSegment (p : Polygon) (s : Segment Coord) : Bool :=
  p.rings.any (Segment.pathMeets · s) || p.holds s.start || p.holds s.stop

/-- Whether the polygon and a path share a point. -/
def meetsPath (p : Polygon) (path : List Coord) : Bool :=
  !Rectangle.apart (Rectangle.around? path) p.bounds? && (Segment.ofPath path).any p.meetsSegment

/-- Whether two polygons share a point: the first meets a ring of the second, or the second meets
the exterior of the first. -/
def meets (p q : Polygon) : Bool :=
  !Rectangle.apart p.bounds? q.bounds? &&
    (q.rings.any p.meetsPath || q.meetsPath p.exterior)

end Polygon

/-- A building block of a geometry. -/
inductive Part where
  | coord (c : Coord)
  | segment (s : Segment Coord)
  | area (p : Polygon)
  | box (r : Rectangle)

namespace Part

/-- Whether two parts share a point. -/
def meets : Part → Part → Bool
  | .coord a, .coord b => a.same b
  | .coord c, .segment s | .segment s, .coord c => s.holds c
  | .coord c, .area p | .area p, .coord c => p.holds c
  | .coord c, .box r | .box r, .coord c => r.holds c
  | .segment s, .segment t => s.meets t
  | .segment s, .area p | .area p, .segment s => p.meetsSegment s
  | .segment s, .box r | .box r, .segment s => r.meetsSegment s
  | .area p, .area q => p.meets q
  | .area p, .box r | .box r, .area p => p.meets r.toPolygon
  | .box r, .box s => r.meets s

/-- The bounds of a part; an area may have none. -/
def bounds? : Part → Option Rectangle
  | .coord c => some (Rectangle.ofCorners c c)
  | .segment s => some s.bounds
  | .area p => p.bounds?
  | .box r => some r

end Part

/-- The parts of a geometry, in groups. -/
inductive Outline where
  | part (p : Part)
  /-- Members with the bounds around them, or without bounds when each is looked at anyway. -/
  | group (bounds : Option Rectangle) (members : List Outline)

namespace Outline

mutual

/-- Whether some part of an outline meets a given one. -/
def meetsPart (p : Part) : Outline → Bool
  | .part q => q.meets p
  | .group bounds members => !Rectangle.apart bounds p.bounds? && anyMeetsPart p members

/-- Whether some part of a list of outlines meets a given one. -/
def anyMeetsPart (p : Part) : List Outline → Bool
  | [] => false
  | o :: os => o.meetsPart p || anyMeetsPart p os

end

mutual

/-- Whether some part of an outline meets another outline, which has the given bounds. -/
def meets : Outline → Outline → Option Rectangle → Bool
  | .part p, other, _ => other.meetsPart p
  | .group bounds members, other, otherBounds =>
    !Rectangle.apart bounds otherBounds && anyMeets members other otherBounds

/-- Whether some part of a list of outlines meets another outline. -/
def anyMeets : List Outline → Outline → Option Rectangle → Bool
  | [], _, _ => false
  | o :: os, other, otherBounds => o.meets other otherBounds || anyMeets os other otherBounds

end

/-- The outline of a path. -/
def ofPath (path : List Coord) : Outline :=
  .group (Rectangle.around? path) ((Segment.ofPath path).map fun s => .part (.segment s))

end Outline

namespace Geometry

mutual

/-- The parts of a geometry, in groups. -/
def outline : Geometry → Outline
  | .point c => .part (.coord c)
  | .line a b => .part (.segment ⟨a, b⟩)
  | .lineString cs => .ofPath cs
  | .polygon p => .part (.area p)
  | .multiPoint cs => .group none (cs.map fun c => .part (.coord c))
  | .multiLineString ls => .group (bounds? (.multiLineString ls)) (ls.map Outline.ofPath)
  | .multiPolygon ps => .group (bounds? (.multiPolygon ps)) (ps.map fun p => .part (.area p))
  | .rect r => .part (.box r)
  | .triangle a b c => .part (.area ⟨triangleRing a b c, []⟩)
  | .collection gs => .group (bounds? (.collection gs)) (outlinesOf gs)

/-- The outlines of a list of geometries. -/
def outlinesOf : List Geometry → List Outline
  | [] => []
  | g :: gs => g.outline :: outlinesOf gs

end

/-- Whether two geometries share a point. -/
def intersects (g h : Geometry) : Bool := g.outline.meets h.outline h.bounds?

end Geometry

end SpatialStore
