import SpatialStore.Proofs.Double.Order

/-!
# Arithmetic on doubles

Sums of doubles that are at least zero are at least zero, and so are their products and quotients
with finite positive doubles (`zero_le_add`, `zero_le_mul`, `zero_le_div`). Since nothing compares
with NaN, this also says that none of them is NaN.

Integers become numbers, and counts other than zero finite positive ones (`isNaN_ofInt`,
`finitePositive_ofNat`). Those of at most 53 digits are converted without rounding, so different
ones have different doubles (`ofInt_inj`).

All of this is read off unpacked numbers. Packing keeps the sign of a number of any size
(`hasSign_pack`), but only of normal numbers also the significand and the exponent
(`unpack_pack_normal`).
-/

namespace SpatialStore.Double

open Float.Model UnpackedFloat

/-- Not below zero, and not NaN. -/
def Nonnegative : UnpackedFloat → Prop
  | .infinity s | .finite s .. => s = .positive
  | .zero _ => True
  | .notANumber => False

theorem zero_le_iff {x : Float} : 0 ≤ x ↔ Nonnegative x.toModel.unpack := by
  have hzero : (0 : Float).toModel.unpack = .zero .positive := rfl
  have h : 0 ≤ x ↔
      ((0 : Float).toModel.unpack.compare x.toModel.unpack).any (·.isLE) = true := by
    change decide (UnpackedFloat.le _ x.toModel.unpack = true) = true ↔ _
    rw [decide_eq_true_iff, UnpackedFloat.le]
  rw [h, hzero]
  cases x.toModel.unpack with
  | infinity s | finite s => cases s <;> simp [UnpackedFloat.compare, Nonnegative]
  | notANumber | zero => simp [UnpackedFloat.compare, Nonnegative]

/-- A number, perhaps infinite, with the sign. -/
private def HasSign (s : Sign) : UnpackedFloat → Prop
  | .infinity t | .zero t | .finite t .. => t = s
  | .notANumber => False

private theorem nonnegative_of_hasSign {x : UnpackedFloat} (hx : HasSign .positive x) :
    Nonnegative x := by
  cases x with
  | zero => trivial
  | infinity | finite | notANumber => exact hx

private theorem isNaN_of_hasSign {s : Sign} {x : UnpackedFloat} (hx : HasSign s x) :
    x.isNaN = false := by
  cases x with
  | notANumber => exact absurd hx id
  | infinity | zero | finite => rfl

/-- Above zero and finite. -/
def FinitePositive (x : Float) : Prop :=
  ∃ m e h, x.toModel.unpack = .finite .positive m e h

theorem FinitePositive.zero_le {x : Float} (hx : FinitePositive x) : 0 ≤ x := by
  obtain ⟨m, e, h, hx⟩ := hx
  rw [zero_le_iff, hx]
  rfl

/-! ### Packing -/

section Packing

variable {spec : Format} {s : Sign}

private theorem sign_packComponents {e m} :
    Sign.ofBitVec (unpackSign (packComponents spec s e m)) = s := by
  have h : unpackSign (packComponents spec s e m) = s.toBitVec := by
    ext i hi
    obtain rfl := Nat.lt_one_iff.mp hi
    simp [unpackSign, packComponents, BitVec.getLsbD_append, BitVec.getElem_append]
  rw [h]
  cases s <;> rfl

private theorem hasSign_packComponents {e m} (he : e ≠ -1#_) :
    HasSign s (UnpackedFloat.unpack spec (packComponents spec s e m)) := by
  rw [UnpackedFloat.unpack]
  simp only [unpackExponent_packComponents, unpackMantissa_packComponents, sign_packComponents]
  rw [if_neg he]
  split_ifs
  · rfl
  · rfl
  · rfl

end Packing

/-- An exponent that is not too large for its bits does not stand for infinities and NaN. -/
private theorem ofNat_ne_neg_one {n : Nat} (h : n + 1 < 2 ^ 11) :
    BitVec.ofNat 11 n ≠ -1#11 := by
  rw [ne_eq, ← BitVec.toNat_inj, BitVec.toNat_ofNat, Nat.mod_eq_of_lt (by omega)]
  change n ≠ 2047
  omega

/-- Packing a number keeps its sign, whatever its size. -/
private theorem hasSign_pack {s : Sign} {m : Nat} {e : Int} {h : 0 < m} :
    HasSign s (Float.Model.pack (.finite s m e h)).unpack := by
  change HasSign s (UnpackedFloat.unpack .binary64 (UnpackedFloat.pack .binary64 _))
  rw [UnpackedFloat.pack]
  dsimp only
  split_ifs with hlarge hnormal
  · cases s <;> rfl
  · exact hasSign_packComponents (ofNat_ne_neg_one (Nat.lt_of_not_le hlarge))
  · exact hasSign_packComponents (by decide)

theorem nonnegative_pack {x : UnpackedFloat} (hx : Nonnegative x) :
    Nonnegative (Float.Model.pack x).unpack := by
  cases x with
  | infinity s =>
    obtain rfl : s = .positive := hx
    exact rfl
  | notANumber => exact absurd hx id
  | zero s =>
    cases s <;> exact trivial
  | finite s m e h =>
    obtain rfl : s = .positive := hx
    exact nonnegative_of_hasSign hasSign_pack

theorem isNaN_pack {x : UnpackedFloat} (hx : x.isNaN = false) :
    (Float.Model.pack x).unpack.isNaN = false := by
  cases x with
  | notANumber => cases hx
  | infinity s | zero s => cases s <;> rfl
  | finite s m e h => exact isNaN_of_hasSign hasSign_pack

/-! ### Sums, products and quotients -/

section Operations

variable {spec : Format} {x y : UnpackedFloat}

private theorem nonnegative_roundWithAccuracy {m : Nat} {e : Int} {a : Accuracy} :
    Nonnegative (roundWithAccuracy spec .positive m e a) := by
  rw [roundWithAccuracy]
  dsimp only
  split_ifs
  · trivial
  · rfl

private theorem nonnegative_normalize {m e : Int} {s : Sign} (hm : 0 ≤ m) :
    Nonnegative (UnpackedFloat.normalize spec m e s) := by
  rw [UnpackedFloat.normalize]
  cases hc : compare m 0 with
  | lt => exact absurd (Int.compare_eq_lt.mp hc) (by omega)
  | eq => trivial
  | gt => exact nonnegative_roundWithAccuracy

private theorem nonnegative_add (hx : Nonnegative x) (hy : Nonnegative y) :
    Nonnegative (UnpackedFloat.add spec x y) := by
  cases x with
  | notANumber => exact absurd hx id
  | infinity s =>
    obtain rfl : s = .positive := hx
    cases y with
    | notANumber => exact absurd hy id
    | infinity t =>
      obtain rfl : t = .positive := hy
      rfl
    | zero | finite => rfl
  | zero s =>
    cases y with
    | notANumber => exact absurd hy id
    | zero t =>
      rw [UnpackedFloat.add]
      split_ifs <;> trivial
    | infinity | finite => exact hy
  | finite s m e h =>
    obtain rfl : s = .positive := hx
    cases y with
    | notANumber => exact absurd hy id
    | infinity => exact hy
    | zero => rfl
    | finite t n d h' =>
      obtain rfl : t = .positive := hy
      exact nonnegative_normalize (Int.add_nonneg (Int.natCast_nonneg _) (Int.natCast_nonneg _))

private theorem nonnegative_mul {m : Nat} {e : Int} {h} (hx : Nonnegative x) :
    Nonnegative (UnpackedFloat.mul spec x (.finite .positive m e h)) := by
  cases x with
  | notANumber => exact absurd hx id
  | infinity s =>
    obtain rfl : s = .positive := hx
    rfl
  | zero s => trivial
  | finite s =>
    obtain rfl : s = .positive := hx
    exact nonnegative_roundWithAccuracy

private theorem nonnegative_div {m : Nat} {e : Int} {h} (hx : Nonnegative x) :
    Nonnegative (UnpackedFloat.div spec x (.finite .positive m e h)) := by
  cases x with
  | notANumber => exact absurd hx id
  | infinity s =>
    obtain rfl : s = .positive := hx
    rfl
  | zero s => trivial
  | finite s =>
    obtain rfl : s = .positive := hx
    exact nonnegative_roundWithAccuracy

end Operations

section Floats

variable {x y : Float}

theorem zero_le_add (hx : 0 ≤ x) (hy : 0 ≤ y) : 0 ≤ x + y := by
  rw [zero_le_iff] at hx hy ⊢
  exact nonnegative_pack (nonnegative_add hx hy)

theorem zero_le_mul (hx : 0 ≤ x) (hy : FinitePositive y) : 0 ≤ x * y := by
  obtain ⟨m, e, h, hy⟩ := hy
  rw [zero_le_iff] at hx ⊢
  change Nonnegative (Float.Model.pack (UnpackedFloat.mul _ _ y.toModel.unpack)).unpack
  rw [hy]
  exact nonnegative_pack (nonnegative_mul hx)

theorem zero_le_div (hx : 0 ≤ x) (hy : FinitePositive y) : 0 ≤ x / y := by
  obtain ⟨m, e, h, hy⟩ := hy
  rw [zero_le_iff] at hx ⊢
  change Nonnegative (Float.Model.pack (UnpackedFloat.div _ _ y.toModel.unpack)).unpack
  rw [hy]
  exact nonnegative_pack (nonnegative_div hx)

theorem finitePositive_of_not_lt_one (hfinite : x.isFinite = true) (h : ¬x < 1) :
    FinitePositive x := by
  have hone : (1 : Float).toModel.unpack = .finite .positive (2 ^ 52) (-52) (by decide) := rfl
  have hlt : x < 1 ↔ x.toModel.unpack.compare (1 : Float).toModel.unpack = some .lt := by
    change decide (UnpackedFloat.lt x.toModel.unpack _ = true) = true ↔ _
    rw [decide_eq_true_iff, UnpackedFloat.lt, beq_iff_eq]
  rw [hlt, hone] at h
  change x.toModel.unpack.isFinite = true at hfinite
  unfold FinitePositive
  cases hx : x.toModel.unpack with
  | infinity s | notANumber =>
    rw [hx] at hfinite
    cases hfinite
  | zero s =>
    rw [hx] at h
    exact absurd rfl h
  | finite s m e hm =>
    rw [hx] at h
    cases s with
    | negative => exact absurd rfl h
    | positive => exact ⟨m, e, hm, rfl⟩

end Floats

/-! ### Rounding and packing normal numbers -/

/-- Finite and positive, with a full significand and an exponent between two bounds. -/
inductive PositiveNormal (low high : Int) : UnpackedFloat → Prop
  | mk {m : Nat} {e : Int} (h : 0 < m) : m.log2 = 52 → low ≤ e → e ≤ high →
      PositiveNormal low high (.finite .positive m e h)

private theorem shift_mantissa (m : ExtendedMantissa) (k : Nat) :
    (m >>> k).mantissa = m.mantissa / 2 ^ k := by
  induction k with
  | zero => exact (Nat.div_one _).symm
  | succ k ih =>
    change (m >>> k).mantissa / 2 = _
    rw [ih, Nat.div_div_eq_div_mul, Nat.pow_succ]

private theorem log2_shiftRight {m k : Nat} (h : k ≤ m.log2) :
    (m / 2 ^ k).log2 = m.log2 - k := by
  by_cases hm : m = 0
  · subst hm
    rw [Nat.zero_div, Nat.log2_zero, Nat.zero_sub]
  obtain ⟨hlow, hhigh⟩ := (Nat.log2_eq_iff hm).mp rfl
  have hsum : m.log2 - k + k = m.log2 := Nat.sub_add_cancel h
  have hle : 2 ^ (m.log2 - k) ≤ m / 2 ^ k := by
    rwa [Nat.le_div_iff_mul_le (Nat.two_pow_pos k), ← Nat.pow_add, hsum]
  have hlt : m / 2 ^ k < 2 ^ (m.log2 - k + 1) := by
    rwa [Nat.div_lt_iff_lt_mul (Nat.two_pow_pos k), ← Nat.pow_add, Nat.add_right_comm, hsum]
  have hne : m / 2 ^ k ≠ 0 := Nat.ne_of_gt (Nat.lt_of_lt_of_le (Nat.two_pow_pos _) hle)
  exact (Nat.log2_eq_iff hne).mpr ⟨hle, hlt⟩

theorem log2_shiftLeft {m : Nat} (hm : m ≠ 0) (k : Nat) :
    (m <<< k).log2 = m.log2 + k := by
  obtain ⟨hlow, hhigh⟩ := (Nat.log2_eq_iff hm).mp rfl
  have hne : m * 2 ^ k ≠ 0 := Nat.mul_ne_zero hm (Nat.ne_of_gt (Nat.two_pow_pos k))
  rw [Nat.shiftLeft_eq, Nat.log2_eq_iff hne]
  constructor
  · rw [Nat.pow_add]
    exact Nat.mul_le_mul_right _ hlow
  · rw [Nat.add_right_comm, Nat.pow_add]
    exact Nat.mul_lt_mul_of_pos_right hhigh (Nat.two_pow_pos k)

/-- Shifting leaves the first 53 bits of a significand that has at least as many, unless the
exponent is too small. -/
private theorem shiftToTargetExponent_eq {m : Nat} {e : Int} (hm : 52 ≤ m.log2)
    (he : -1074 ≤ e) :
    shiftToTargetExponent .binary64 m e .exact =
      ((⟨m, false, false⟩ : ExtendedMantissa) >>> (m.log2 - 52), e + (m.log2 - 52 : Nat)) := by
  have hshift :
      (Format.binary64.targetExponent (totalExponent m e) - e).toNat = m.log2 - 52 := by
    simp only [Format.targetExponent, totalExponent, Format.mantissaBits, Format.minExponent]
    omega
  rw [shiftToTargetExponent, shiftToExponent, hshift]
  rfl

/-- The first 53 bits of a significand, rounded by the others. -/
def leading (m : Nat) : Nat :=
  ((⟨m, false, false⟩ : ExtendedMantissa) >>> (m.log2 - 52)).roundedMantissa

private theorem roundedMantissa_eq (m : ExtendedMantissa) :
    m.roundedMantissa = m.mantissa ∨ m.roundedMantissa = m.mantissa + 1 := by
  rcases m with ⟨m, _ | _, _ | _⟩
  · exact .inl rfl
  · exact .inl rfl
  · rcases Nat.mod_two_eq_zero_or_one m with h | h
    · exact .inl (congrArg (m + ·) h)
    · exact .inr (congrArg (m + ·) h)
  · exact .inr rfl

theorem leading_eq (m : Nat) :
    leading m = m / 2 ^ (m.log2 - 52) ∨ leading m = m / 2 ^ (m.log2 - 52) + 1 := by
  have h := roundedMantissa_eq ((⟨m, false, false⟩ : ExtendedMantissa) >>> (m.log2 - 52))
  rwa [shift_mantissa] at h

theorem leading_bounds {m : Nat} (hm : 52 ≤ m.log2) : 2 ^ 52 ≤ leading m ∧ leading m ≤ 2 ^ 53 := by
  have hlog : (m / 2 ^ (m.log2 - 52)).log2 = 52 := by
    rw [log2_shiftRight (Nat.sub_le _ _)]
    omega
  have hne : m / 2 ^ (m.log2 - 52) ≠ 0 := by
    intro hzero
    rw [hzero] at hlog
    cases hlog
  have hbounds := (Nat.log2_eq_iff hne).mp hlog
  have heq := leading_eq m
  omega

/-- Rounding a significand of at least 53 bits. Rounding up may need one bit more, and then the
significand is shifted again. -/
theorem roundWithAccuracy_eq {s : Sign} {m : Nat} {e : Int} (hm : 52 ≤ m.log2) (he : -1074 ≤ e) :
    ∃ l i, ∃ h : 0 < l,
      roundWithAccuracy .binary64 s m e .exact = .finite s l i h ∧ l.log2 = 52 ∧
        (l = leading m ∧ i = e + (m.log2 - 52 : Nat) ∨
          leading m = 2 ^ 53 ∧ l = 2 ^ 52 ∧ i = e + (m.log2 - 51 : Nat)) := by
  obtain ⟨hlow, hhigh⟩ := leading_bounds hm
  have hround : ((⟨m, false, false⟩ : ExtendedMantissa) >>> (m.log2 - 52)).roundedMantissa =
      leading m := rfl
  have hlog : (leading m).log2 = 52 ∨ (leading m).log2 = 53 := by
    rw [Nat.log2_eq_iff (by omega), Nat.log2_eq_iff (by omega)]
    omega
  have hagain := shiftToTargetExponent_eq (m := leading m) (e := e + (m.log2 - 52 : Nat))
    (by omega) (by omega)
  simp only [roundWithAccuracy, shiftToTargetExponent_eq hm he, hround, hagain, shift_mantissa]
  rcases Nat.lt_or_eq_of_le hhigh with hlt | heq
  · have hfull : (leading m).log2 = 52 := (Nat.log2_eq_iff (by omega)).mpr ⟨hlow, hlt⟩
    simp only [hfull, Nat.sub_self, Nat.pow_zero, Nat.div_one]
    exact ⟨_, _, by omega, dif_neg (by omega), hfull, .inl ⟨rfl, by omega⟩⟩
  · have hmore : (leading m).log2 = 53 := by
      rw [heq]
      decide
    have hhalf : leading m / 2 ^ (53 - 52) = 2 ^ 52 := by omega
    simp only [hmore, hhalf]
    exact ⟨_, _, by decide, dif_neg (by decide), by decide, .inr ⟨heq, rfl, by omega⟩⟩

/-- Packing keeps normal numbers. -/
theorem unpack_pack_normal {s : Sign} {m : Nat} {e : Int} (h : 0 < m) (hm : m.log2 = 52)
    (hlow : -1074 ≤ e) (hhigh : e ≤ 971) :
    (Float.Model.pack (.finite s m e h)).unpack = .finite s m e h := by
  change UnpackedFloat.unpack .binary64 (UnpackedFloat.pack .binary64 _) = _
  obtain ⟨n, rfl⟩ : ∃ n : Nat, e = n - 1075 := ⟨(e + 1075).toNat, by omega⟩
  have hbiased : ((n : Int) - 1075 + Format.binary64.exponentBias +
      Format.binary64.mantissaBitsWithoutImplicit).toNat = n := by
    change ((n : Int) - 1075 + 1023 + 52).toNat = n
    omega
  have hexp : BitVec.ofNat 11 n ≠ 0#11 := by
    rw [ne_eq, ← BitVec.toNat_inj, BitVec.toNat_ofNat, Nat.mod_eq_of_lt (by omega)]
    change n ≠ 0
    omega
  have hsmall : ¬2 ^ Format.binary64.exponentBits ≤ n + 1 := by
    change ¬2 ^ 11 ≤ n + 1
    omega
  have hfull : m.log2 + 1 = Format.binary64.mantissaBits := by
    change m.log2 + 1 = 53
    omega
  rw [UnpackedFloat.pack]
  dsimp only
  rw [hbiased, if_neg hsmall, if_pos hfull, UnpackedFloat.unpack]
  simp only [unpackExponent_packComponents, unpackMantissa_packComponents, sign_packComponents]
  rw [if_neg (ofNat_ne_neg_one (by omega)), if_neg hexp]
  have hsignificand : (1#1 ++ BitVec.ofNat 52 m).toNat = m := by
    have hbound := (Nat.log2_eq_iff (Nat.ne_of_gt h)).mp hm
    rw [BitVec.toNat_append, Nat.shiftLeft_eq, BitVec.toNat_ofNat]
    have hlt : m % 2 ^ 52 < 2 ^ 52 := Nat.mod_lt _ (Nat.two_pow_pos 52)
    have hor := Nat.two_pow_add_eq_or_of_lt hlt 1
    change 2 ^ 52 * 1 ||| m % 2 ^ 52 = m
    omega
  rw [UnpackedFloat.finite.injEq]
  refine ⟨rfl, hsignificand, ?_⟩
  rw [BitVec.toNat_ofNat, Nat.mod_eq_of_lt (by omega)]
  change (n : Int) - (1023 + 52) = n - 1075
  omega

/-- Shifting a multiple drops zeros only. -/
private theorem shift_multiple (m k : Nat) :
    (⟨m * 2 ^ k, false, false⟩ : ExtendedMantissa) >>> k = ⟨m, false, false⟩ := by
  induction k generalizing m with
  | zero =>
    rw [Nat.pow_zero, Nat.mul_one]
    rfl
  | succ k ih =>
    have hpow : m * 2 ^ (k + 1) = m * 2 * 2 ^ k := by
      rw [Nat.pow_succ, Nat.mul_comm (2 ^ k), Nat.mul_assoc]
    change ((⟨m * 2 ^ (k + 1), false, false⟩ : ExtendedMantissa) >>> k).shiftRightOne = _
    rw [hpow, ih, ExtendedMantissa.shiftRightOne]
    simp

private theorem shiftToTargetExponent_multiple {m : Nat} {e : Int} (hm : m.log2 = 52)
    (he : -1074 ≤ e) (k : Nat) :
    shiftToTargetExponent .binary64 (m * 2 ^ k) e .exact = (⟨m, false, false⟩, e + k) := by
  have hne : m ≠ 0 := by
    rintro rfl
    cases hm
  have hlog : (m * 2 ^ k).log2 = 52 + k := by
    rw [← Nat.shiftLeft_eq, log2_shiftLeft hne, hm]
  have hshift : 52 + k - 52 = k := by omega
  rw [shiftToTargetExponent_eq (by omega) he, hlog, hshift, shift_multiple]

/-- Rounding a significand whose bits behind the first 53 are zeros. -/
theorem roundWithAccuracy_multiple {s : Sign} {m : Nat} {e : Int} (h : 0 < m)
    (hm : m.log2 = 52) (he : -1074 ≤ e) (k : Nat) :
    roundWithAccuracy .binary64 s (m * 2 ^ k) e .exact = .finite s m (e + k) h := by
  have hagain := shiftToTargetExponent_multiple hm (e := e + k) (by omega) 0
  rw [Nat.pow_zero, Nat.mul_one, Int.natCast_zero, Int.add_zero] at hagain
  have hrounded : (⟨m, false, false⟩ : ExtendedMantissa).roundedMantissa = m := rfl
  simp only [roundWithAccuracy, shiftToTargetExponent_multiple hm he k, hrounded, hagain,
    dif_neg (Nat.ne_of_gt h)]

/-! ### Integers -/

/-- The digits of a count make a full significand once they are shifted. -/
theorem log2_significand {n : Nat} (hpos : 0 < n) (hlt : n < 2 ^ 53) :
    (n <<< (52 - n.log2)).log2 = 52 := by
  have hlog : n.log2 < 53 := (Nat.log2_lt (Nat.ne_of_gt hpos)).mpr hlt
  rw [log2_shiftLeft (Nat.ne_of_gt hpos)]
  omega

private theorem unpackedOfNat_eq {n : Nat} (hpos : 0 < n) (hlt : n < 2 ^ 53)
    (h : 0 < n <<< (52 - n.log2)) :
    UnpackedFloat.ofNat .binary64 n =
      .finite .positive (n <<< (52 - n.log2)) (n.log2 - 52) h := by
  have hlog : n.log2 < 53 := (Nat.log2_lt (Nat.ne_of_gt hpos)).mpr hlt
  rw [UnpackedFloat.ofNat, UnpackedFloat.ofInt, UnpackedFloat.normalize,
    Int.compare_eq_gt.mpr (Int.natCast_pos.mpr hpos)]
  change UnpackedFloat.round .binary64 .positive n 0 = _
  have hshift : (0 - Format.binary64.targetExponent (totalExponent n 0)).toNat = 52 - n.log2 := by
    simp only [Format.targetExponent, totalExponent, Format.mantissaBits, Format.minExponent]
    omega
  have hround := roundWithAccuracy_multiple (s := .positive) (e := n.log2 - 52) h
    (log2_significand hpos hlt) (by omega) 0
  rw [Nat.pow_zero, Nat.mul_one] at hround
  have hexp : (0 : Int) - (52 - n.log2 : Nat) = n.log2 - 52 := by omega
  rw [UnpackedFloat.round]
  dsimp only [decreaseExponent]
  rw [hshift, hexp, hround]
  simp

/-- A count of at most 53 digits is converted without rounding. -/
theorem ofNat_eq_pack {n : Nat} (hpos : 0 < n) (hlt : n < 2 ^ 53)
    (h : 0 < n <<< (52 - n.log2)) :
    Float.ofNat n =
      ⟨Float.Model.pack (.finite .positive (n <<< (52 - n.log2)) (n.log2 - 52) h)⟩ := by
  change Float.ofScientific n false 0 = _
  have hlog : n.log2 < 53 := (Nat.log2_lt (Nat.ne_of_gt hpos)).mpr hlt
  have hm := log2_significand hpos hlt
  -- a product with one
  rw [Float.ofScientific, dif_pos ⟨hlt, Nat.zero_le _⟩]
  have hn : n.toUInt64.toNat = n := by
    rw [Nat.toUInt64_eq, UInt64.toNat_ofNat']
    omega
  have hcount : n.toUInt64.toFloat.toModel.unpack =
      .finite .positive (n <<< (52 - n.log2)) (n.log2 - 52) h := by
    change (pack (UnpackedFloat.ofNat .binary64 n.toUInt64.toNat)).unpack = _
    rw [hn, unpackedOfNat_eq hpos hlt h]
    exact unpack_pack_normal h hm (by omega) (by omega)
  have hsize : 0 < Float.exactlyRepresentablePowersOfTen.size := by decide
  have hone : Float.exactlyRepresentablePowersOfTen[0].toModel.unpack =
      .finite .positive (2 ^ 52) (-52) (by decide) := by
    have hbits : Float.exactlyRepresentablePowersOfTen[0] = .ofBits 0x3FF0000000000000 := rfl
    rw [hbits]
    rfl
  have hproduct := roundWithAccuracy_multiple (s := .positive) (e := n.log2 - 52 + -52) h hm
    (by omega) 52
  change (⟨pack (UnpackedFloat.mul .binary64 n.toUInt64.toFloat.toModel.unpack
    Float.exactlyRepresentablePowersOfTen[0].toModel.unpack)⟩ : Float) = _
  rw [hcount, hone]
  change (⟨pack (roundWithAccuracy .binary64 .positive (n <<< (52 - n.log2) * 2 ^ 52)
    (n.log2 - 52 + -52) .exact)⟩ : Float) = _
  have hexp : (n.log2 : Int) - 52 + -52 + (52 : Nat) = n.log2 - 52 := by omega
  rw [hproduct, hexp]

theorem unpack_ofNat {n : Nat} (hpos : 0 < n) (hlt : n < 2 ^ 53) (h : 0 < n <<< (52 - n.log2)) :
    (Float.ofNat n).toModel.unpack =
      .finite .positive (n <<< (52 - n.log2)) (n.log2 - 52) h := by
  have hlog : n.log2 < 53 := (Nat.log2_lt (Nat.ne_of_gt hpos)).mpr hlt
  rw [ofNat_eq_pack hpos hlt h]
  exact unpack_pack_normal h (log2_significand hpos hlt) (by omega) (by omega)

theorem significand_pos {n : Nat} (hpos : 0 < n) : 0 < n <<< (52 - n.log2) := by
  rw [Nat.shiftLeft_eq]
  exact Nat.mul_pos hpos (Nat.two_pow_pos _)

/-- A count is the rounded value of its digits, which are shifted beyond the first 53 bits. -/
theorem unpack_ofNat_eq_round {n : Nat} (hpos : 0 < n) (hlt : n < 2 ^ 64) :
    (Float.ofNat n).toModel.unpack =
      roundWithAccuracy .binary64 .positive (n <<< 53) (-53) .exact := by
  have hne : n ≠ 0 := Nat.ne_of_gt hpos
  by_cases hsmall : n < 2 ^ 53
  · have hlog : n.log2 < 53 := (Nat.log2_lt hne).mpr hsmall
    have hmultiple : n <<< 53 = n <<< (52 - n.log2) * 2 ^ (n.log2 + 1) := by
      have hsum : 52 - n.log2 + (n.log2 + 1) = 53 := by omega
      rw [Nat.shiftLeft_eq, Nat.shiftLeft_eq, Nat.mul_assoc, ← Nat.pow_add, hsum]
    have hexp : (n.log2 : Int) - 52 = -53 + (n.log2 + 1 : Nat) := by omega
    rw [unpack_ofNat hpos hsmall (significand_pos hpos), hmultiple,
      roundWithAccuracy_multiple (significand_pos hpos) (log2_significand hpos hsmall) (by omega)]
    simp only [hexp]
  · have hlog : n.log2 < 64 := (Nat.log2_lt hne).mpr hlt
    have hfull := log2_shiftLeft hne 53
    have hbound : ¬(0 : Int) < -((2 ^ 11 : Int) + n.log2) := by omega
    -- a product with a power of ten that is one
    have hproduct : UnpackedFloat.ofScientific .binary64 n 0 =
        roundWithAccuracy .binary64 .positive (n <<< 53) (-53) .exact := by
      rw [UnpackedFloat.ofScientific, dif_neg hne, if_neg (by decide), if_neg hbound,
        if_pos (by decide), UnpackedFloat.mul, Int.toNat_zero, Nat.pow_zero, Nat.mul_one]
      rfl
    rw [← hproduct]
    change (Float.ofScientific n false 0).toModel.unpack = _
    rw [Float.ofScientific, dif_neg fun h => hsmall h.1]
    change (Float.Model.pack (UnpackedFloat.ofScientific .binary64 n 0)).unpack = _
    rw [hproduct]
    obtain ⟨l, i, h, hround, hl, hcases⟩ := roundWithAccuracy_eq (s := .positive) (m := n <<< 53)
      (e := -53) (by omega) (by omega)
    rw [hround]
    exact unpack_pack_normal h hl (by omega) (by omega)

/-- A count other than zero is a normal number, not below one. -/
theorem positiveNormal_ofNat {n : Nat} (hpos : 0 < n) (hlt : n < 2 ^ 64) :
    PositiveNormal (-52) 12 (Float.ofNat n).toModel.unpack := by
  have hlog : n.log2 < 64 := (Nat.log2_lt (Nat.ne_of_gt hpos)).mpr hlt
  have hfull := log2_shiftLeft (Nat.ne_of_gt hpos) 53
  obtain ⟨l, i, h, hround, hl, hcases⟩ := roundWithAccuracy_eq (s := .positive) (m := n <<< 53)
    (e := -53) (by omega) (by omega)
  rw [unpack_ofNat_eq_round hpos hlt, hround]
  exact .mk h hl (by omega) (by omega)

/-- A count is finite, and positive unless it is zero. -/
theorem finitePositive_ofNat {n : Nat} (hpos : 0 < n) (hlt : n < 2 ^ 64) :
    FinitePositive (Float.ofNat n) := by
  have hnormal := positiveNormal_ofNat hpos hlt
  unfold FinitePositive
  generalize (Float.ofNat n).toModel.unpack = x at hnormal ⊢
  obtain ⟨h, -, -, -⟩ := hnormal
  exact ⟨_, _, h, rfl⟩

private theorem FinitePositive.isNaN_eq {x : Float} (hx : FinitePositive x) : x.isNaN = false := by
  obtain ⟨m, e, h, hx⟩ := hx
  change x.toModel.unpack.isNaN = false
  rw [hx]
  rfl

private theorem isNaN_neg {x : Float} (hx : x.isNaN = false) : x.neg.isNaN = false := by
  change x.toModel.unpack.isNaN = false at hx
  change (Float.Model.pack x.toModel.unpack.neg).unpack.isNaN = false
  refine isNaN_pack ?_
  generalize x.toModel.unpack = u at hx
  cases u with
  | notANumber => cases hx
  | infinity | zero | finite => rfl

/-- The double of an integer is a number. -/
theorem isNaN_ofInt {i : Int} (hi : i.natAbs < 2 ^ 64) : (ofInt i).isNaN = false := by
  cases i with
  | ofNat n =>
    rcases Nat.eq_zero_or_pos n with rfl | hpos
    · rfl
    · exact (finitePositive_ofNat hpos hi).isNaN_eq
  | negSucc n => exact isNaN_neg (finitePositive_ofNat n.succ_pos hi).isNaN_eq

theorem natAbs_toInt_lt (i : Int64) : i.toInt.natAbs < 2 ^ 64 := by
  have hlow := i.le_toInt
  have hhigh := i.toInt_lt
  omega

theorem isNaN_ofInt64 (i : Int64) : (ofInt i.toInt).isNaN = false :=
  isNaN_ofInt (natAbs_toInt_lt i)

/-- The sign and the digits of an integer, with a full significand. -/
private inductive Represents : Int → UnpackedFloat → Prop
  | zero : Represents 0 (.zero .positive)
  | positive {n : Nat} (h : 0 < n <<< (52 - n.log2)) :
      Represents n (.finite .positive (n <<< (52 - n.log2)) (n.log2 - 52) h)
  | negative {n : Nat} (h : 0 < n <<< (52 - n.log2)) :
      Represents (-n) (.finite .negative (n <<< (52 - n.log2)) (n.log2 - 52) h)

private theorem represents_ofInt {i : Int} (hi : i.natAbs < 2 ^ 53) :
    Represents i (ofInt i).toModel.unpack := by
  cases i with
  | ofNat n =>
    rcases Nat.eq_zero_or_pos n with rfl | hpos
    · exact .zero
    · have hunpack : (ofInt n).toModel.unpack = _ := unpack_ofNat hpos hi (significand_pos hpos)
      change Represents n (ofInt n).toModel.unpack
      rw [hunpack]
      exact .positive _
  | negSucc n =>
    have hpos := significand_pos n.succ_pos
    have hunpack : (ofInt (.negSucc n)).toModel.unpack =
        .finite .negative _ (n.succ.log2 - 52) hpos := by
      change (Float.Model.pack (Float.ofNat n.succ).toModel.unpack.neg).unpack = _
      rw [unpack_ofNat n.succ_pos hi hpos]
      have hlog : n.succ.log2 < 53 := (Nat.log2_lt n.succ_ne_zero).mpr hi
      exact unpack_pack_normal hpos (log2_significand n.succ_pos hi) (by omega) (by omega)
    rw [hunpack]
    exact .negative hpos

private theorem eq_of_compare {m n : Nat} (h : ((compare ((m.log2 : Int) - 52) (n.log2 - 52)).then
    (compare (m <<< (52 - m.log2)) (n <<< (52 - n.log2)))) = .eq) : m = n := by
  obtain ⟨hexp, hsignificand⟩ := Ordering.then_eq_eq.mp h
  have hlog : m.log2 = n.log2 := by
    have := Int.compare_eq_eq.mp hexp
    omega
  rw [Nat.compare_eq_eq, Nat.shiftLeft_eq, Nat.shiftLeft_eq, hlog] at hsignificand
  exact Nat.eq_of_mul_eq_mul_right (Nat.two_pow_pos _) hsignificand

private theorem Represents.inj {i j : Int} {x y : UnpackedFloat} (hx : Represents i x)
    (hy : Represents j y) (h : x.compare y = some .eq) : i = j := by
  cases hx with
  | zero =>
    cases hy with
    | zero => rfl
    | positive | negative => cases h
  | positive =>
    cases hy with
    | positive => exact congrArg Int.ofNat (eq_of_compare (Option.some.inj h))
    | zero | negative => cases h
  | negative =>
    cases hy with
    | negative =>
      exact congrArg (fun n : Nat => -(n : Int))
        (eq_of_compare (Ordering.swap_eq_eq.mp (Option.some.inj h)))
    | zero | positive => cases h

/-- Integers of at most 53 digits are told apart by their doubles. -/
theorem ofInt_inj {i j : Int} (hi : i.natAbs < 2 ^ 53) (hj : j.natAbs < 2 ^ 53)
    (h : (ofInt i == ofInt j) = true) : i = j := by
  refine (represents_ofInt hi).inj (represents_ofInt hj) ?_
  change UnpackedFloat.beq _ _ = true at h
  rwa [UnpackedFloat.beq, beq_iff_eq] at h

end SpatialStore.Double
