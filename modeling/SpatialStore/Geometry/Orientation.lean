import SpatialStore.Double.Exact
import SpatialStore.Double.Expansion
import SpatialStore.Geometry.Basic

/-!
# Orientation of three points

The turn from `a` over `b` to `c` has the sign of the determinant
`(b.x - a.x) (c.y - a.y) - (b.y - a.y) (c.x - a.x)`. For coordinates it is computed in doubles, with
as many of the rounding errors as it takes to be sure of the sign. So the sign is exact wherever
the products of the differences stay in the range of doubles. Products that vanish because they are
too small, or that are too large, make the points straight.

Segment tests need only turns and comparisons of coordinates, so they are stated once for every
type of points in the class `Plane`: for coordinates, and for points with rational coordinates,
where crossings of segments lie.
-/

namespace SpatialStore

/-- Sense of a turn. -/
inductive Turn where
  | left
  | right
  | straight
  deriving DecidableEq, Repr

/-- Points that have a position and an orientation in the plane. -/
class Plane (P : Type) where
  /-- Whether two points have the same position. -/
  same : P → P → Bool
  /-- The turn from the first over the second to the third point. -/
  turn : P → P → P → Turn
  /-- Whether the first point lies in the box with the other two as corners. -/
  inBox : P → P → P → Bool
  /-- Whether the first point lies below the second or level with it. -/
  notAbove : P → P → Bool

/-- A point with rational coordinates. -/
structure ExactCoord where
  x : Rat
  y : Rat
  deriving DecidableEq

namespace ExactCoord

/-- Twice the signed area of the triangle `a b c`. -/
def cross (a b c : ExactCoord) : Rat :=
  (b.x - a.x) * (c.y - a.y) - (b.y - a.y) * (c.x - a.x)

/-- The turn from `a` over `b` to `c`. -/
def turn (a b c : ExactCoord) : Turn :=
  let d := cross a b c
  if 0 < d then .left else if d < 0 then .right else .straight

instance : Plane ExactCoord where
  same a b := a = b
  turn := turn
  inBox p a b :=
    let between (v s t : Rat) : Bool := (s ≤ v && v ≤ t) || (t ≤ v && v ≤ s)
    between p.x a.x b.x && between p.y a.y b.y
  notAbove p q := p.y ≤ q.y

end ExactCoord

namespace Coord

/-- The exact position of a coordinate. -/
def exact (c : Coord) : ExactCoord := ⟨Double.toRat c.x, Double.toRat c.y⟩

/-- Whether the magnitude of a number reaches a bound on its error. -/
def exceeds (x bound : Float) : Bool := bound ≤ x || bound ≤ -x

/-- Half the distance from 1 to the next double. -/
def unitRoundoff : Float := 1.1102230246251565e-16

open Double in
/-- The determinant of the differences of `a` and `b` from `c`, with the errors of the products and
of the differences. `size` is the magnitude that its error bounds are relative to. -/
def refinedDeterminant (a b c : Coord) (size : Float) : Float :=
  let ε := unitRoundoff
  let dx₁ := difference a.x c.x
  let dy₁ := difference a.y c.y
  let dx₂ := difference b.x c.x
  let dy₂ := difference b.y c.y
  let cross (s t u v : Float) : Expansion := .ofDifference (product s t) (product u v)
  let rounded := cross dx₁.value dy₂.value dy₁.value dx₂.value
  let det := rounded.estimate
  let exact := dx₁.error == 0 && dy₁.error == 0 && dx₂.error == 0 && dy₂.error == 0
  if exceeds det ((2 + 12 * ε) * ε * size) || exact then det
  else
    let bound := (9 + 64 * ε) * ε * ε * size + (3 + 8 * ε) * ε * det.abs
    let corrected := det + ((dx₁.value * dy₂.error + dy₂.value * dx₁.error) -
      (dy₁.value * dx₂.error + dx₂.value * dy₁.error))
    if exceeds corrected bound then corrected
    else
      (((rounded.add (cross dx₁.error dy₂.value dy₁.error dx₂.value)).add
        (cross dx₁.value dy₂.error dy₁.value dx₂.error)).add
        (cross dx₁.error dy₂.error dy₁.error dx₂.error)).leading

/-- The determinant of the differences of `a` and `b` from `c`. The errors of rounding are looked at
only if they could change its sign. -/
def determinant (a b c : Coord) : Float :=
  let left := (a.x - c.x) * (b.y - c.y)
  let right := (a.y - c.y) * (b.x - c.x)
  let det := left - right
  let size := (left + right).abs
  if exceeds det (3.3306690621773722e-16 * size) then det else refinedDeterminant a b c size

/-- The turn from `a` over `b` to `c`. -/
def turn (a b c : Coord) : Turn :=
  let det := determinant a b c
  if 0 < det then .left else if det < 0 then .right else .straight

instance : Plane Coord where
  same := Coord.same
  turn := turn
  inBox p a b :=
    let between (v s t : Float) : Bool := (s ≤ v && v ≤ t) || (t ≤ v && v ≤ s)
    between p.x a.x b.x && between p.y a.y b.y
  notAbove p q := p.y ≤ q.y

end Coord

/-- A segment between two points, with a direction. -/
structure Segment (P : Type) where
  start : P
  stop : P
  deriving DecidableEq

namespace Segment

variable {P : Type} [Plane P]

/-- Whether the two ends coincide. -/
def degenerate (s : Segment P) : Bool := Plane.same s.start s.stop

/-- Whether a point lies on the segment, ends included. -/
def holds (s : Segment P) (p : P) : Bool :=
  Plane.turn s.start s.stop p == .straight && Plane.inBox p s.start s.stop

/-- Whether two segments share a point. Segments on different lines meet exactly when the ends of
each lie on different sides of the other, or on it; segments on one line meet when an end of one
lies on the other. -/
def meets (s t : Segment P) : Bool :=
  if s.degenerate then t.holds s.start
  else
    let a := Plane.turn s.start s.stop t.start
    let b := Plane.turn s.start s.stop t.stop
    if a != b then
      Plane.turn t.start t.stop s.start != Plane.turn t.start t.stop s.stop
    else if a == .straight then
      Plane.inBox t.start s.start s.stop || Plane.inBox t.stop s.start s.stop ||
        Plane.inBox s.stop t.start t.stop
    else false

/-- The segments between consecutive points of a path. -/
def ofPath {P : Type} : List P → List (Segment P)
  | a :: b :: rest => ⟨a, b⟩ :: ofPath (b :: rest)
  | _ => []

end Segment

end SpatialStore
