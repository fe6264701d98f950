import SpatialStore.Decimal.Shortest

/-!
# Text of a double

Doubles are written with the digits of `Decimal.shortest?`. A `DecimalStyle` says where the
digits go: `DecimalStyle.plain` always writes positionally, and `DecimalStyle.scientific` marks
whole numbers with `.0` and turns to an exponent for very small and very large magnitudes.
-/

namespace SpatialStore

/-- How a decimal is laid out. -/
structure DecimalStyle where
  /-- What follows the digits of a whole number. -/
  wholeMark : String
  /-- The positions of the decimal point, first and last, at which no exponent is written;
  `none` stands for all. -/
  positional : Option (Int × Int)
  deriving DecidableEq, Repr

/-- Digits and point only, as in `1`, `0.1` and `10000000000000000`. -/
def DecimalStyle.plain : DecimalStyle := ⟨"", none⟩

/-- As in `1.0`, `0.0001`, `1e16` and `1.5e-7`: an exponent stands below `0.0001` and from
`10 ^ 16` on. -/
def DecimalStyle.scientific : DecimalStyle := ⟨".0", some (-3, 16)⟩

namespace Decimal

/-- The digits with the point in its place. -/
def positional (wholeMark : String) (d : Decimal) : String :=
  let ds := Nat.repr d.digits
  let n : Int := ds.length
  if d.digits = 0 then "0" ++ wholeMark
  else if d.point ≤ 0 then "0." ++ String.ofList (List.replicate (-d.point).toNat '0') ++ ds
  else if n ≤ d.point then ds ++ String.ofList (List.replicate (d.point - n).toNat '0') ++ wholeMark
  else
    let cs := ds.toList
    String.ofList (cs.take d.point.toNat) ++ "." ++ String.ofList (cs.drop d.point.toNat)

/-- One digit in front of the point, and the power of ten after an `e`. -/
def exponential (d : Decimal) : String :=
  let power := toString (d.point - 1)
  match (Nat.repr d.digits).toList with
  | [] => "e" ++ power
  | [c] => String.singleton c ++ "e" ++ power
  | c :: rest => String.singleton c ++ "." ++ String.ofList rest ++ "e" ++ power

/-- The decimal in a given style. -/
def text (style : DecimalStyle) (d : Decimal) : String :=
  let body :=
    match style.positional with
    | some (first, last) =>
      if d.digits = 0 ∨ (first ≤ d.point ∧ d.point ≤ last) then d.positional style.wholeMark
      else d.exponential
    | none => d.positional style.wholeMark
  if d.negative then "-" ++ body else body

end Decimal

/-- Text of a double in a given style; `NaN`, `inf` and `-inf` are written in words. -/
def Double.text (style : DecimalStyle) (x : Float) : String :=
  match Decimal.shortest? x with
  | some d => d.text style
  | none => if x.isNaN then "NaN" else if x < 0 then "-inf" else "inf"

end SpatialStore
