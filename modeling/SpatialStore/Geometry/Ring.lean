import SpatialStore.Geometry.Orientation

/-!
# Location relative to rings and polygons

A point on a segment of a ring is on its boundary. Any other point is inside exactly when the
ring winds around it a number of times other than zero. The interior of a polygon consists of the
points that are inside its exterior and outside of every hole; the borders of the holes belong to
its boundary. `Polygon.holds` says that a point is in a polygon, borders included.
-/

namespace SpatialStore

/-- Where a point lies relative to an area. -/
inductive Location where
  | inside
  | boundary
  | outside
  deriving DecidableEq, Repr

namespace Ring

variable {P : Type} [Plane P]

/-- What a segment adds to the winding number around `p`: one if it passes `p` upwards on the
right, minus one if it passes downwards, `none` if `p` is on it. A segment that goes upwards counts
its start and not its stop, one that goes downwards its stop and not its start, where the segment in
front of it stops. -/
def passage? (p : P) (s : Segment P) : Option Int :=
  let upwards := Plane.notAbove s.start p
  let reached := if upwards then Plane.notAbove p s.stop else Plane.notAbove s.stop p
  if reached then
    match Plane.turn s.start s.stop p with
    | .straight => if Plane.inBox p s.start s.stop then none else some 0
    | .left => some (if upwards && !Plane.notAbove s.stop p then 1 else 0)
    | .right => some (if upwards then 0 else -1)
  else some 0

/-- How often a ring winds around a point, `none` if the point is on the ring. -/
def winding? (p : P) (ring : List P) : Option Int :=
  ((Segment.ofPath ring).mapM (passage? p)).map fun ns => ns.foldl (· + ·) 0

/-- Location of a point relative to a ring. A ring of one coordinate is that coordinate. -/
def locate (p : P) (ring : List P) : Location :=
  match ring with
  | [] => .outside
  | [c] => if Plane.same p c then .boundary else .outside
  | _ =>
    match winding? p ring with
    | none => .boundary
    | some n => if n = 0 then .outside else .inside

/-- Location of a point relative to the area within an exterior and outside of some holes. -/
def locateArea (p : P) (exterior : List P) (holes : List (List P)) : Location :=
  match locate p exterior with
  | .inside =>
    match holes.map (locate p) |>.find? (· != .outside) with
    | none => .inside
    | some .boundary => .boundary
    | some _ => .outside
  | l => l

end Ring

namespace Polygon

/-- Location of a coordinate relative to a polygon. -/
def locate (p : Polygon) (c : Coord) : Location := Ring.locateArea c p.exterior p.holes

/-- Whether a coordinate is in the polygon: not outside of its exterior and not inside a hole. A
hole may reach beyond the exterior, and takes away what it covers of its border. -/
def holds (p : Polygon) (c : Coord) : Bool :=
  Ring.locate c p.exterior != .outside && p.holes.all fun h => Ring.locate c h != .inside

end Polygon

/-- The polygon around a rectangle. -/
def Rectangle.toPolygon (r : Rectangle) : Polygon := ⟨r.ring, []⟩

end SpatialStore
