import SpatialStore.Double.Order
import SpatialStore.Geometry.Orientation

/-!
# The segments of a geometry

`Geometry.segments` lists the segments of every line and ring, in order, and
`Geometry.distinctSegments` keeps each of them once, whatever its direction. Two segments are
taken for the same one when their ends agree as index keys do: the zeros coincide, and so do two
NaNs.
-/

namespace SpatialStore

namespace Coord

/-- Ranks of the two numbers of a coordinate. -/
def ranks (c : Coord) : Int × Int := (Double.rank c.x, Double.rank c.y)

end Coord

namespace Segment

/-- Ranks of the two ends, the lower end first. It is equal for two segments exactly when they
have the same ends, in either direction. -/
def key (s : Segment Coord) : (Int × Int) × (Int × Int) :=
  let a := s.start.ranks
  let b := s.stop.ranks
  if a.1 < b.1 ∨ (a.1 = b.1 ∧ a.2 ≤ b.2) then (a, b) else (b, a)

/-- The segments that are more than a point, each key once, without those whose key was seen. -/
def distinct (seen : List ((Int × Int) × (Int × Int))) :
    List (Segment Coord) → List (Segment Coord)
  | [] => []
  | s :: rest =>
    if s.start.same s.stop ∨ s.key ∈ seen then distinct seen rest
    else s :: distinct (s.key :: seen) rest

end Segment

namespace Geometry

mutual

/-- The segments of every line and ring, in order. -/
def segments : Geometry → List (Segment Coord)
  | .point _ | .multiPoint _ => []
  | .line a b => [⟨a, b⟩]
  | .lineString cs => Segment.ofPath cs
  | .polygon p => p.rings.flatMap Segment.ofPath
  | .multiLineString ls => ls.flatMap Segment.ofPath
  | .multiPolygon ps => ps.flatMap fun p => p.rings.flatMap Segment.ofPath
  | .rect r => Segment.ofPath r.ring
  | .triangle a b c => Segment.ofPath (triangleRing a b c)
  | .collection gs => segmentsOfAll gs

/-- The segments of a list of geometries. -/
def segmentsOfAll : List Geometry → List (Segment Coord)
  | [] => []
  | g :: gs => g.segments ++ segmentsOfAll gs

end

/-- The segments of a geometry, each once, as line strings of two coordinates. -/
def distinctSegments (g : Geometry) : Geometry :=
  .multiLineString ((Segment.distinct [] g.segments).map fun s => [s.start, s.stop])

end Geometry

end SpatialStore
