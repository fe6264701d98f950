import SpatialStore.Geometry.Orientation

/-!
# Arrangement of segments

Finitely many segments cut the plane into vertices, edges and faces. `Arrangement.vertices`,
`Arrangement.edgePoints` and `Arrangement.facePoints` give at least one point of every cell that
touches a segment: the ends and crossings of the segments, the middle of every edge, and on both
sides of every edge a point of the face there. A property that is constant on the cells holds on
all of them when it holds at these points. A segment without length is a vertex, and cuts the
segments that go through it.

All points are computed exactly, in rational coordinates.
-/

namespace SpatialStore

namespace ExactCoord

/-- The point `p + t (q - p)`. -/
def along (p q : ExactCoord) (t : Rat) : ExactCoord :=
  ⟨p.x + t * (q.x - p.x), p.y + t * (q.y - p.y)⟩

/-- Scalar product of the vectors from `o` to `a` and from `o` to `b`. -/
def dot (o a b : ExactCoord) : Rat :=
  (a.x - o.x) * (b.x - o.x) + (a.y - o.y) * (b.y - o.y)

end ExactCoord

namespace Arrangement

open ExactCoord

/-- Where, in fractions of the way from `p` to `q`, the line through `p` and `q` meets a segment:
the crossing, or both ends of a segment on that line. -/
def parameters (p q : ExactCoord) (s : Segment ExactCoord) : List Rat :=
  let a := cross p q s.start
  let b := cross p q s.stop
  if a = 0 ∧ b = 0 then
    [dot p q s.start / dot p q q, dot p q s.stop / dot p q q]
  else if (a ≤ 0 ∧ 0 ≤ b) ∨ (b ≤ 0 ∧ 0 ≤ a) then
    let c := along s.start s.stop (a / (a - b))
    [dot p q c / dot p q q]
  else []

/-- The fractions of a segment at which it meets the others, in ascending order and without
repetition; its own ends are among them. -/
def cuts (segments : List (Segment ExactCoord)) (s : Segment ExactCoord) : List Rat :=
  let inside := (segments.flatMap (parameters s.start s.stop)).filter fun t => 0 ≤ t && t ≤ 1
  (((0 : Rat) :: 1 :: inside).mergeSort (· ≤ ·)).eraseReps

/-- The ends and crossings that lie on the segments. -/
def vertices (segments : List (Segment ExactCoord)) : List ExactCoord :=
  segments.flatMap fun s => (cuts segments s).map (along s.start s.stop)

/-- The stretches into which a segment is cut. -/
def edges (segments : List (Segment ExactCoord)) (s : Segment ExactCoord) :
    List (Segment ExactCoord) :=
  Segment.ofPath ((cuts segments s).map (along s.start s.stop))

/-- Middle of a segment. -/
def middle (s : Segment ExactCoord) : ExactCoord := along s.start s.stop (1 / 2)

/-- The middle of every edge. -/
def edgePoints (segments : List (Segment ExactCoord)) : List ExactCoord :=
  segments.flatMap fun s => (edges segments s).map middle

/-- A point on the way from `m` to `q` before the first segment that is met, and `q` itself when
none is. -/
def beside (segments : List (Segment ExactCoord)) (m q : ExactCoord) : ExactCoord :=
  let ahead := (segments.flatMap (parameters m q)).filter fun t => 0 < t
  along m q (ahead.foldl (fun t u => if u / 2 < t then u / 2 else t) 1)

/-- Points of the faces to the left and to the right of every edge. -/
def facePoints (segments : List (Segment ExactCoord)) : List ExactCoord :=
  segments.flatMap fun s => (edges segments s).flatMap fun e =>
    let m := middle e
    let dx := e.stop.x - e.start.x
    let dy := e.stop.y - e.start.y
    [beside segments m ⟨m.x - dy, m.y + dx⟩, beside segments m ⟨m.x + dy, m.y - dx⟩]

end Arrangement

end SpatialStore
