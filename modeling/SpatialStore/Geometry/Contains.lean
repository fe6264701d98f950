import SpatialStore.Geometry.Dimension
import SpatialStore.Geometry.Relation

/-!
# Containment of geometries

`Geometry.contains a b` says that `a` contains `b`. For points, and between lines, it is decided
by direct tests, which also give an answer for empty and degenerate geometries; the remaining
pairs are decided by `Geometry.covers`.

A line contains the points between its ends but not the ends themselves, a polygon the points
strictly inside. A line string contains a segment when the segment can be walked along it:
`LineWalk.run` goes through the segments of the string twice and cuts off what each of them
covers at one end of what is left.
-/

namespace SpatialStore

namespace Segment

/-- Whether a point lies between the ends; a degenerate segment holds its one point. -/
def strictlyHolds (s : Segment Coord) (c : Coord) : Bool :=
  if s.degenerate then s.start.same c
  else !(c.same s.start) && !(c.same s.stop) && s.holds c

/-- Whether a segment lies on another; a degenerate one has to lie between the ends. -/
def containsSegment (s t : Segment Coord) : Bool :=
  if t.degenerate then s.strictlyHolds t.start else s.holds t.start && s.holds t.stop

/-- Whether a line string lies on a segment. -/
def containsPath (s : Segment Coord) (cs : List Coord) : Bool :=
  match cs with
  | [] => false
  | c :: _ => cs.all s.holds && (!(cs.all (c.same ·)) || s.strictlyHolds c)

end Segment

namespace Coord

/-- Whether a line string contains a coordinate. Its first and last coordinate belong to it only
when it is closed. -/
def pathContains (cs : List Coord) (p : Coord) : Bool :=
  match cs.head?, cs.getLast? with
  | some first, some last =>
    if p.same first || p.same last then first.same last
    else
      let segments := Segment.ofPath cs
      segments.any (·.strictlyHolds p) || (segments.drop 1).any fun s => p.same s.start
  | _, _ => false

/-- Whether a list is not empty and repeats one coordinate only. -/
def allAt (p : Coord) (cs : List Coord) : Bool :=
  !cs.isEmpty && cs.all (·.same p)

end Coord

/-- A walk along the segments of a line string, twice over, that shortens a segment from its
ends. -/
structure LineWalk where
  /-- What is left of the segment. -/
  left : Segment Coord
  /-- The step at which the first piece was cut off. -/
  firstCut : Option Nat

namespace LineWalk

/-- Outcome of a step. -/
inductive Step where
  | covered
  | goOn (w : LineWalk)

/-- One segment of the string, at step number `i`. If it meets one end of what is left, either it
reaches the other end as well, or the remainder starts where the segment ends. -/
def step (w : LineWalk) (i : Nat) (s : Segment Coord) : Step :=
  let cut (keepStart : Bool) : Step :=
    let other := if keepStart then w.left.start else w.left.stop
    if s.holds other then .covered
    else
      let inner :=
        if w.left.strictlyHolds s.start then some s.start
        else if w.left.strictlyHolds s.stop then some s.stop
        else none
      match inner with
      | none => .goOn w
      | some c =>
        .goOn ⟨if keepStart then ⟨w.left.start, c⟩ else ⟨c, w.left.stop⟩, w.firstCut <|> some i⟩
  if s.holds w.left.start then cut false
  else if s.holds w.left.stop then cut true
  else .goOn w

/-- Whether the walk ends before step `i` of the second round over `n` segments: it does when
nothing was cut off in the first round, or when the round is complete again. -/
def spent (w : LineWalk) (n i : Nat) : Bool :=
  n ≤ i &&
    match w.firstCut with
    | none => true
    | some c => n + c ≤ i

/-- The walk from step `i` on, along the remaining segments. -/
def run (n : Nat) : LineWalk → Nat → List (Segment Coord) → Bool
  | _, _, [] => false
  | w, i, s :: rest =>
    if w.spent n i then false
    else
      match w.step i s with
      | .covered => true
      | .goOn w => run n w (i + 1) rest

end LineWalk

namespace Coord

/-- Whether a line string contains a segment. -/
def pathContainsSegment (cs : List Coord) (s : Segment Coord) : Bool :=
  if s.degenerate then pathContains cs s.start
  else
    let segments := Segment.ofPath cs
    LineWalk.run segments.length ⟨s, none⟩ 0 (segments ++ segments)

end Coord

namespace Geometry

mutual

/-- Whether a geometry has no coordinates that count: of a polygon the exterior, of a multi
geometry or collection some member. -/
def isEmpty : Geometry → Bool
  | .point _ | .line _ _ | .rect _ | .triangle _ _ _ => false
  | .lineString cs | .multiPoint cs => cs.isEmpty
  | .polygon p => p.exterior.isEmpty
  | .multiLineString ls => ls.all (·.isEmpty)
  | .multiPolygon ps => ps.all (·.exterior.isEmpty)
  | .collection gs => allEmpty gs

/-- Whether every geometry of a list is empty. -/
def allEmpty : List Geometry → Bool
  | [] => true
  | g :: gs => g.isEmpty && allEmpty gs

end

mutual

/-- Whether a geometry contains a coordinate. -/
def containsCoord (p : Coord) : Geometry → Bool
  | .point c => c.same p
  | .line a b => Segment.strictlyHolds ⟨a, b⟩ p
  | .lineString cs => Coord.pathContains cs p
  | .polygon q => q.locate p == .inside
  | .multiPoint cs => cs.any (·.same p)
  | .multiLineString ls => ls.any (Coord.pathContains · p)
  | .multiPolygon qs => qs.any fun q => q.locate p == .inside
  | .rect r => r.low.x < p.x && p.x < r.high.x && r.low.y < p.y && p.y < r.high.y
  | .triangle a b c => Ring.locate p (triangleRing a b c) == .inside
  | .collection gs => anyContainsCoord p gs

/-- Whether some geometry of a list contains a coordinate. -/
def anyContainsCoord (p : Coord) : List Geometry → Bool
  | [] => false
  | g :: gs => containsCoord p g || anyContainsCoord p gs

end

/-- Whether a polygon is not empty and all coordinates of its rings are at one point. -/
def polygonLiesAt (p : Coord) (q : Polygon) : Bool :=
  p.allAt q.exterior && q.holes.all fun h => h.all (·.same p)

mutual

/-- Whether a geometry is not empty and all its coordinates are at one point. -/
def liesAt (p : Coord) : Geometry → Bool
  | .point c => c.same p
  | .line a b => a.same p && b.same p
  | .lineString cs | .multiPoint cs => p.allAt cs
  | .polygon q => polygonLiesAt p q
  | .multiLineString ls => !(ls.all (·.isEmpty)) && ls.all p.allAt
  | .multiPolygon qs => !(qs.all (·.exterior.isEmpty)) && qs.all (polygonLiesAt p)
  | .rect r => r.low.same p && r.high.same p
  | .triangle a b c => a.same p && b.same p && c.same p
  | .collection gs => !allEmpty gs && allLieAt p gs

/-- Whether every geometry of a list lies at one point. -/
def allLieAt (p : Coord) : List Geometry → Bool
  | [] => true
  | g :: gs => liesAt p g && allLieAt p gs

end

/-- Whether the first geometry contains the second. -/
def contains : Geometry → Geometry → Bool
  | g, .point p => containsCoord p g
  | .point p, h => liesAt p h
  | .line a b, .line c d => Segment.containsSegment ⟨a, b⟩ ⟨c, d⟩
  | .line a b, .lineString cs => Segment.containsPath ⟨a, b⟩ cs
  | .lineString cs, .line a b => Coord.pathContainsSegment cs ⟨a, b⟩
  | .lineString cs, .lineString ds => (Segment.ofPath ds).all (Coord.pathContainsSegment cs)
  | .rect r, .rect s =>
    r.low.x ≤ s.low.x && r.low.y ≤ s.low.y && s.high.x ≤ r.high.x && s.high.y ≤ r.high.y
  | .multiPolygon qs, .multiPoint cs => cs.all fun c => containsCoord c (.multiPolygon qs)
  | g, h => g.covers h

end Geometry

end SpatialStore
