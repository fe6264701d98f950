import SpatialStore.Double.Exact

/-!
# Shortest decimal of a double

`Decimal.shortest?` finds the decimal with the fewest digits among those that round to a given
double and, of these, the one nearest to its exact value. A decimal that lies half way between
two candidates goes up.

The reals that round to `m · 2 ^ q` fill the interval between the midpoints to the two
neighbouring doubles, ends included exactly when `m` is even. For one digit, two digits and so
on the search looks at the two points of the decimal grid around the exact value. If any point
of a grid lies in the interval then one of these two does, so the first grid with a hit has the
fewest digits. Seventeen digits always suffice.
-/

namespace SpatialStore

/-- A decimal fraction `0.d₁d₂… · 10 ^ point`, its digits written without trailing zeros. -/
structure Decimal where
  /-- Whether a minus sign is written. -/
  negative : Bool
  /-- The digits `d₁d₂…`, as one natural number. -/
  digits : Nat
  /-- Position of the decimal point, counted from in front of the first digit. -/
  point : Int
  deriving DecidableEq, Repr

namespace Decimal

/-- Number of decimal digits, at least one. -/
def digitCount (n : Nat) : Nat :=
  (Nat.toDigits 10 n).length

/-- The number without its trailing zeros; `fuel` bounds how many are removed. -/
def stripZeros : Nat → Nat → Nat
  | 0, n => n
  | fuel + 1, n => if n ≠ 0 ∧ n % 10 = 0 then stripZeros fuel (n / 10) else n

/-- The reals that round to a double, as three quotients over one denominator: the lower end,
the exact value and the upper end. -/
structure Interval where
  lower : Nat
  value : Nat
  upper : Nat
  denominator : Nat
  /-- Whether the two ends round to the double as well. -/
  closed : Bool

/-- The rounding interval of `m · 2 ^ q`. Its lower end is nearer when `m` is the least
significand of its exponent, since the doubles below are spaced half as far. -/
def Interval.of (b : Binary) : Interval :=
  let m := b.mantissa
  let below := if m = Nat.pow 2 52 ∧ -1074 < b.exponent then 4 * m - 1 else 4 * m - 2
  let up := Nat.pow 2 (b.exponent - 2).toNat
  ⟨below * up, 4 * m * up, (4 * m + 2) * up, Nat.pow 2 (2 - b.exponent).toNat, m % 2 == 0⟩

/-- The interval divided by `10 ^ k`. -/
def Interval.scale (i : Interval) (k : Int) : Interval :=
  let up := Nat.pow 10 (-k).toNat
  ⟨i.lower * up, i.value * up, i.upper * up, i.denominator * Nat.pow 10 k.toNat, i.closed⟩

/-- Whether the integer `d` lies in the interval. -/
def Interval.contains (i : Interval) (d : Nat) : Bool :=
  let x := d * i.denominator
  if i.closed then i.lower ≤ x && x ≤ i.upper else i.lower < x && x < i.upper

/-- The integer of the interval that is nearest to its value, the upper one of two that are
equally near; `none` when neither neighbour of the value lies inside. -/
def Interval.nearest? (i : Interval) : Option Nat :=
  let down := i.value / i.denominator
  let up := down + 1
  match i.contains down, i.contains up with
  | true, true =>
    if 2 * (i.value - down * i.denominator) < i.denominator then some down else some up
  | true, false => some down
  | false, true => some up
  | false, false => none

/-- Position of the decimal point of the value, found on the grid `10 ^ (-400)`. -/
def Interval.point (i : Interval) : Int :=
  (digitCount (i.value * Nat.pow 10 400 / i.denominator) : Int) - 400

/-- Search from `n` digits on, for `fuel` digit counts. -/
def search (i : Interval) (point : Int) : Nat → Nat → Option (Nat × Int)
  | 0, _ => none
  | fuel + 1, n =>
    let k := point - n
    match (i.scale k).nearest? with
    | some d => some (d, k)
    | none => search i point fuel (n + 1)

/-- The shortest decimal of a finite double. -/
def ofBinary (b : Binary) : Decimal :=
  if b.mantissa = 0 then ⟨b.negative, 0, 1⟩
  else
    let i := Interval.of b
    match search i i.point 17 1 with
    | some (d, k) => ⟨b.negative, stripZeros 17 d, digitCount d + k⟩
    | none => ⟨b.negative, b.mantissa, 0⟩

/-- The shortest decimal of a double that is finite. -/
def shortest? (x : Float) : Option Decimal :=
  (Binary.ofFloat? x).map ofBinary

end Decimal

end SpatialStore
