import SpatialStore.Geometry.Arrangement
import SpatialStore.Geometry.Bounds
import SpatialStore.Geometry.Ring

/-!
# Covering, decided on an arrangement

`Geometry.covers a b` says that no point of `b` lies outside of `a` and that their interiors share
a point. Interior and boundary are those of the simple features: the boundary of a line consists
of its ends, where an end shared by an even number of lines belongs to the interior, and the
boundary of an area is made of its rings.

Where a point lies relative to `a` and to `b` is the same for all points of one cell of the
arrangement of their segments, so that both conditions need a look at one point per cell only.
-/

namespace SpatialStore

/-- A geometry taken apart into isolated points, lines and areas, all in exact coordinates. -/
structure ExactShape where
  points : List ExactCoord
  lines : List (List ExactCoord)
  /-- Exterior and holes of each area. -/
  areas : List (List ExactCoord × List (List ExactCoord))

namespace ExactShape

def empty : ExactShape := ⟨[], [], []⟩

def append (s t : ExactShape) : ExactShape :=
  ⟨s.points ++ t.points, s.lines ++ t.lines, s.areas ++ t.areas⟩

/-- Every segment of the lines and rings that is more than a point, and the isolated points as
segments without length. -/
def segments (s : ExactShape) : List (Segment ExactCoord) :=
  (s.lines.flatMap Segment.ofPath ++
    s.areas.flatMap fun a => (a.1 :: a.2).flatMap Segment.ofPath).filter
      (fun e => e.start ≠ e.stop) ++
    s.points.map fun p => ⟨p, p⟩

/-- The ends of the lines that are not closed. -/
def ends (s : ExactShape) : List ExactCoord :=
  s.lines.flatMap fun l =>
    match l.head?, l.getLast? with
    | some a, some b => if a = b then [] else [a, b]
    | _, _ => []

/-- Where a point lies relative to the shape. -/
def locate (s : ExactShape) (p : ExactCoord) : Location :=
  let areas := s.areas.map fun a => Ring.locateArea p a.1 a.2
  if p ∈ s.points ∨ .inside ∈ areas then .inside
  else if .boundary ∈ areas then .boundary
  else if s.lines.any fun l => (Segment.ofPath l).any (·.holds p) then
    if s.ends.count p % 2 = 1 then .boundary else .inside
  else .outside

end ExactShape

namespace Geometry

/-- The exact form of a polygon's rings. -/
def exactArea (p : Polygon) : List ExactCoord × List (List ExactCoord) :=
  (p.exterior.map Coord.exact, p.holes.map (·.map Coord.exact))

mutual

/-- The points, lines and areas of a geometry. -/
def exactShape : Geometry → ExactShape
  | .point c => ⟨[c.exact], [], []⟩
  | .line a b => ⟨[], [[a.exact, b.exact]], []⟩
  | .lineString cs => ⟨[], [cs.map Coord.exact], []⟩
  | .polygon p => ⟨[], [], [exactArea p]⟩
  | .multiPoint cs => ⟨cs.map Coord.exact, [], []⟩
  | .multiLineString ls => ⟨[], ls.map (·.map Coord.exact), []⟩
  | .multiPolygon ps => ⟨[], [], ps.map exactArea⟩
  | .rect r => ⟨[], [], [exactArea r.toPolygon]⟩
  | .triangle a b c => ⟨[], [], [exactArea ⟨triangleRing a b c, []⟩]⟩
  | .collection gs => exactShapeOfAll gs

/-- The points, lines and areas of a list of geometries. -/
def exactShapeOfAll : List Geometry → ExactShape
  | [] => .empty
  | g :: gs => g.exactShape.append (exactShapeOfAll gs)

end

/-- Whether the second geometry lies in the first and their interiors meet. What reaches beyond
the envelope of the first is outside, which is looked at before anything else. -/
def covers (g h : Geometry) : Bool :=
  let inBounds :=
    match g.envelope?, h.envelope? with
    | some e, some f => e.contains f
    | _, _ => false
  inBounds &&
    let a := g.exactShape
    let b := h.exactShape
    let segments := a.segments ++ b.segments
    let samples := Arrangement.vertices segments ++ Arrangement.edgePoints segments ++
      (if b.areas.isEmpty then [] else Arrangement.facePoints segments)
    let located := samples.map fun p => (a.locate p, b.locate p)
    located.all (fun l => l.2 == .outside || l.1 != .outside) &&
      located.any fun l => l.1 == .inside && l.2 == .inside

end Geometry

end SpatialStore
