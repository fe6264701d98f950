import SpatialStore.Double.Order
import SpatialStore.Geometry.Basic

/-!
# Envelopes

An envelope is an axis-parallel box, borders included. Envelopes stand in for geometries in the
spatial index: the envelope of a geometry covers all its coordinates, and two geometries can
only meet if their envelopes do.
-/

namespace SpatialStore

/-- An axis-parallel box. -/
structure Envelope where
  minX : Float
  minY : Float
  maxX : Float
  maxY : Float

namespace Envelope

/-- The envelope with two given opposite corners, in any order. -/
def ofCorners (x₁ y₁ x₂ y₂ : Float) : Envelope :=
  ⟨Double.lesser x₁ x₂, Double.lesser y₁ y₂, Double.greater x₁ x₂, Double.greater y₁ y₂⟩

def width (e : Envelope) : Float := e.maxX - e.minX

def height (e : Envelope) : Float := e.maxY - e.minY

def area (e : Envelope) : Float := e.width * e.height

/-- Whether two envelopes share a point. -/
def intersects (a b : Envelope) : Bool :=
  a.minX ≤ b.maxX && b.minX ≤ a.maxX && a.minY ≤ b.maxY && b.minY ≤ a.maxY

/-- Whether the second envelope lies within the first. -/
def contains (a b : Envelope) : Bool :=
  a.minX ≤ b.minX && a.minY ≤ b.minY && a.maxX ≥ b.maxX && a.maxY ≥ b.maxY

/-- The smallest envelope that covers both. -/
def union (a b : Envelope) : Envelope :=
  ⟨Double.lesser a.minX b.minX, Double.lesser a.minY b.minY,
    Double.greater a.maxX b.maxX, Double.greater a.maxY b.maxY⟩

/-- The area that the first envelope gains when it grows to cover the second. -/
def enlargement (a b : Envelope) : Float := (a.union b).area - a.area

/-- The union of a list of envelopes, from left to right; the empty list has none. -/
def unionAll : List Envelope → Option Envelope
  | [] => none
  | e :: es => some (es.foldl union e)

/-- The rectangle spanned by the envelope's corners. -/
def toRectangle (e : Envelope) : Rectangle :=
  Rectangle.ofCorners ⟨e.minX, e.minY⟩ ⟨e.maxX, e.maxY⟩

/-- The envelope of a rectangle. -/
def ofRectangle (r : Rectangle) : Envelope :=
  ofCorners r.low.x r.low.y r.high.x r.high.y

end Envelope

end SpatialStore
