/-!
# Comparing doubles

The store compares doubles in two ways. Predicates use the numeric comparison, under which NaN
is comparable with nothing. Keys of an index need a total preorder: `Double.rank` sends each
double to an integer, numbers in their numeric order with the two zeros together, and NaN above
all numbers.

The lesser and the greater of two doubles ignore a NaN when the other one is a number.
-/

namespace SpatialStore.Double

/-- The smaller of two doubles, the second if neither is smaller; NaN counts as absent. -/
def lesser (a b : Float) : Float :=
  if b.isNaN then a else if a < b then a else b

/-- The larger of two doubles, the second if neither is larger; NaN counts as absent. -/
def greater (a b : Float) : Float :=
  if b.isNaN then a else if b < a then a else b

/-- Numeric order, `none` when one of the two is NaN. -/
def compare? (a b : Float) : Option Ordering :=
  if a < b then some .lt
  else if a == b then some .eq
  else if b < a then some .gt
  else none

/-- Position of a double in the total preorder of keys. The bits of a double without its sign
grow with its magnitude, so they are its rank if it is positive and minus its rank if it is
negative. -/
def rank (x : Float) : Int :=
  if x.isNaN then Int.ofNat (Nat.pow 2 63)
  else
    let bits := x.toBits.toNat
    if bits < Nat.pow 2 63 then Int.ofNat bits else -Int.ofNat (bits - Nat.pow 2 63)

/-- Positive infinity. -/
def infinity : Float := Float.ofBits 0x7FF0000000000000

/-- The nearest double of an integer. -/
def ofInt (i : Int) : Float := Float.ofInt i

end SpatialStore.Double
