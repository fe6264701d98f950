/-!
# Sums and products with their rounding errors

The rounding error of a sum, a difference or a product of two doubles is a double itself, as long
as no intermediate result leaves the range of normal doubles. A `Rounded` keeps both. More terms
are kept as an `Expansion`: doubles in ascending order of magnitude that do not overlap, so that
the last one has the sign of their sum.
-/

namespace SpatialStore.Double

/-- A rounded result and what it differs from the exact one by. -/
structure Rounded where
  value : Float
  error : Float

/-- The sum of two doubles. -/
def sum (a b : Float) : Rounded :=
  let x := a + b
  let fromB := x - a
  let fromA := x - fromB
  ⟨x, (a - fromA) + (b - fromB)⟩

/-- The difference of two doubles. -/
def difference (a b : Float) : Rounded :=
  let x := a - b
  let fromB := a - x
  let fromA := x + fromB
  ⟨x, (a - fromA) + (fromB - b)⟩

/-- The upper and the lower half of the digits of a double. -/
def halves (a : Float) : Float × Float :=
  let scaled := 134217729 * a
  let upper := scaled - (scaled - a)
  (upper, a - upper)

/-- The product of two doubles. -/
def product (a b : Float) : Rounded :=
  let x := a * b
  let (a₁, a₀) := halves a
  let (b₁, b₀) := halves b
  ⟨x, a₀ * b₀ - (x - a₁ * b₁ - a₀ * b₁ - a₁ * b₀)⟩

/-- Doubles in ascending order of magnitude, which stand for their sum. -/
abbrev Expansion := List Float

namespace Expansion

/-- The difference of two numbers that are given with their errors. -/
def ofDifference (p q : Rounded) : Expansion :=
  let low := difference p.error q.error
  let middle := sum p.value low.value
  let next := difference middle.error q.value
  let high := sum middle.value next.value
  [low.error, next.error, high.error, high.value]

/-- The sum of the terms in doubles. -/
def estimate (e : Expansion) : Float := e.foldl (· + ·) 0

/-- Whether the first of two doubles goes in front of the second in an expansion. -/
def inFront (a b : Float) : Bool := decide (a < b) == decide (-a < b)

/-- The sum of two expansions: their terms are added up in ascending order of magnitude, and every
error that is not zero becomes a term. -/
def add (e f : Expansion) : Expansion :=
  match e.merge f inFront with
  | [] => []
  | first :: rest =>
    let (total, terms) := rest.foldl
      (fun (total, terms) x =>
        let s := sum total x
        (s.value, if s.error != 0 then terms ++ [s.error] else terms))
      (first, [])
    if total != 0 || terms.isEmpty then terms ++ [total] else terms

/-- The largest term, which has the sign of the sum. -/
def leading (e : Expansion) : Float := e.getLastD 0

end Expansion

end SpatialStore.Double
