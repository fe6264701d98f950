/-!
# Exact value of a double

A finite double is `± m · 2 ^ q` with a 53-bit integer `m`. `Binary.ofFloat?` reads sign, `m`
and `q` off the 64 bits, and `Double.toRat` is the rational number they denote. Geometry is
decided on these rationals, so that no test on coordinates depends on rounding.
-/

namespace SpatialStore

/-- Sign, integer significand and binary exponent of a finite double. -/
structure Binary where
  /-- The sign bit, set also for negative zero. -/
  negative : Bool
  /-- Below `2 ^ 53`; at least `2 ^ 52` unless the double is subnormal or zero. -/
  mantissa : Nat
  /-- Power of two that the significand is multiplied with. -/
  exponent : Int
  deriving DecidableEq, Repr

/-- The parts of a finite double; infinities and NaN have none. -/
def Binary.ofFloat? (x : Float) : Option Binary :=
  let bits := x.toBits.toNat
  let fraction : Nat := bits % Nat.pow 2 52
  let biased : Nat := bits / Nat.pow 2 52 % Nat.pow 2 11
  let negative := bits / Nat.pow 2 63 = 1
  if biased = 2047 then none
  else if biased = 0 then some ⟨negative, fraction, -1074⟩
  else some ⟨negative, Nat.pow 2 52 + fraction, Int.ofNat biased - 1075⟩

/-- The rational number `m · 2 ^ q`, with its sign. -/
def Binary.value (b : Binary) : Rat :=
  let magnitude : Rat :=
    if 0 ≤ b.exponent then mkRat (b.mantissa * Nat.pow 2 b.exponent.toNat) 1
    else mkRat b.mantissa (Nat.pow 2 (-b.exponent).toNat)
  if b.negative then -magnitude else magnitude

/-- The exact value of a finite double. -/
def Double.toRat? (x : Float) : Option Rat :=
  (Binary.ofFloat? x).map Binary.value

/-- The exact value of a finite double, and zero for the others. -/
def Double.toRat (x : Float) : Rat :=
  (Double.toRat? x).getD 0

end SpatialStore
