import Mathlib
import SpatialStore.Double.Order

/-!
# Ranks order doubles

`Double.rank` reads an integer off the bits of a double. Here it is shown that the numeric
comparisons are the comparisons of ranks: for doubles that are not NaN, `x < y`, `x ≤ y` and
`x == y` hold exactly when they hold of the ranks (`lt_iff_rank`, `le_iff_rank`,
`beq_iff_rank`), and with a NaN they never hold. So facts about comparisons of doubles reduce to
facts about integers.

The bridge is `Unpacks`: a number unpacks to an infinity, a zero or a finite number with exponent
and significand, and in each case the bits without the sign bit are its magnitude. Magnitudes
compare like exponent and significand do, one after the other.

`Extreme` is what `lesser` and `greater` compute over a list: an element with no number beyond it.
-/

namespace SpatialStore.Double

open Float.Model UnpackedFloat

/-! ### Magnitudes -/

/-- An unpacked number with its sign and its magnitude, which is what the bits without the sign
count up to. -/
inductive Unpacks : UnpackedFloat → Sign → Nat → Prop
  | infinity (s : Sign) : Unpacks (.infinity s) s (2047 * 2 ^ 52)
  | zero (s : Sign) : Unpacks (.zero s) s 0
  | subnormal (s : Sign) (f : Nat) (h : 0 < f) : f < 2 ^ 52 →
      Unpacks (.finite s f (-1074) h) s f
  | normal (s : Sign) (e f : Nat) (h : 0 < 2 ^ 52 + f) : 0 < e → e < 2047 → f < 2 ^ 52 →
      Unpacks (.finite s (2 ^ 52 + f) (e - 1075) h) s (e * 2 ^ 52 + f)

/-- Comparing exponents first and significands second is comparing `M` and `N`, if these grow with
the exponents and, for equal exponents, with the significands. -/
private theorem then_compare_eq {x y : Int} {m n M N : Nat} (hlt : x < y → M < N)
    (hgt : y < x → N < M) (heq : x = y → (m < n ↔ M < N) ∧ (m = n ↔ M = N)) :
    (compare x y).then (compare m n) = compare M N := by
  rcases Int.lt_trichotomy x y with h | h | h
  · rw [Int.compare_eq_lt.mpr h, Nat.compare_eq_lt.mpr (hlt h)]
    rfl
  · obtain ⟨hm, hm'⟩ := heq h
    rw [Int.compare_eq_eq.mpr h, Ordering.eq_then]
    rcases Nat.lt_trichotomy m n with h | h | h
    · rw [Nat.compare_eq_lt.mpr h, Nat.compare_eq_lt.mpr (hm.mp h)]
    · rw [Nat.compare_eq_eq.mpr h, Nat.compare_eq_eq.mpr (hm'.mp h)]
    · rw [Nat.compare_eq_gt.mpr h, Nat.compare_eq_gt.mpr (by omega)]
  · rw [Int.compare_eq_gt.mpr h, Nat.compare_eq_gt.mpr (hgt h)]
    rfl

/-- Finite magnitudes compare like exponent and significand. -/
private theorem Unpacks.then_compare_eq {s t s' t' : Sign} {m n M N : Nat} {x y : Int} {hm hn}
    (ha : Unpacks (.finite s m x hm) s' M) (hb : Unpacks (.finite t n y hn) t' N) :
    (compare x y).then (compare m n) = compare M N := by
  apply Double.then_compare_eq <;> cases ha <;> cases hb <;> omega

/-- The magnitude of a finite number lies between those of zero and infinity. -/
private theorem Unpacks.finite_bounds {s t : Sign} {m M : Nat} {x : Int} {hm}
    (h : Unpacks (.finite s m x hm) t M) : s = t ∧ 0 < M ∧ M < 2047 * 2 ^ 52 := by
  cases h <;> exact ⟨rfl, by omega⟩

/-- A negative sign turns a comparison round. -/
private theorem compare_apply (s : Sign) (M N : Nat) :
    compare (s.apply M) (s.apply N) =
      match s with
      | .positive => compare M N
      | .negative => (compare M N).swap := by
  rcases Nat.lt_trichotomy M N with h | h | h
  · rw [Nat.compare_eq_lt.mpr h]
    cases s
    · exact Int.compare_eq_gt.mpr (by simp only [Sign.apply]; omega)
    · exact Int.compare_eq_lt.mpr (by simp only [Sign.apply]; omega)
  · rw [h, Nat.compare_eq_eq.mpr rfl, Int.compare_eq_eq.mpr rfl]
    cases s <;> rfl
  · rw [Nat.compare_eq_gt.mpr h]
    cases s
    · exact Int.compare_eq_lt.mpr (by simp only [Sign.apply]; omega)
    · exact Int.compare_eq_gt.mpr (by simp only [Sign.apply]; omega)

/-- Unpacked numbers compare like their magnitudes, taken with their signs. -/
theorem Unpacks.compare_eq {a b : UnpackedFloat} {s t : Sign} {M N : Nat}
    (ha : Unpacks a s M) (hb : Unpacks b t N) :
    a.compare b = some (compare (s.apply M) (t.apply N)) := by
  have lt {x y : Int} (h : x < y) : some Ordering.lt = some (compare x y) := by
    rw [Int.compare_eq_lt.mpr h]
  have gt {x y : Int} (h : y < x) : some Ordering.gt = some (compare x y) := by
    rw [Int.compare_eq_gt.mpr h]
  -- unless both are finite, the two kinds and signs decide
  cases a with
  | notANumber => cases ha
  | infinity s =>
    cases ha
    cases b with
    | notANumber => cases hb
    | infinity t | zero t => cases hb; cases s <;> cases t <;> rfl
    | finite t n y hn =>
      obtain ⟨rfl, -, hN⟩ := hb.finite_bounds
      cases s <;> cases t <;> simp only [UnpackedFloat.compare, Sign.apply] <;>
        first | exact lt (by omega) | exact gt (by omega)
  | zero s =>
    cases ha
    cases b with
    | notANumber => cases hb
    | infinity t | zero t => cases hb; cases s <;> cases t <;> rfl
    | finite t n y hn =>
      obtain ⟨rfl, hN, -⟩ := hb.finite_bounds
      cases s <;> cases t <;> simp only [UnpackedFloat.compare, Sign.apply] <;>
        first | exact lt (by omega) | exact gt (by omega)
  | finite s m x hm =>
    obtain ⟨rfl, hM, hM'⟩ := ha.finite_bounds
    cases b with
    | notANumber => cases hb
    | infinity t | zero t =>
      cases hb
      cases s <;> cases t <;> simp only [UnpackedFloat.compare, Sign.apply] <;>
        first | exact lt (by omega) | exact gt (by omega)
    | finite t n y hn =>
      have h := ha.then_compare_eq hb
      obtain ⟨rfl, hN, -⟩ := hb.finite_bounds
      cases s <;> cases t
      · rw [compare_apply, UnpackedFloat.compare, h]
      · exact lt (by simp only [Sign.apply]; omega)
      · exact gt (by simp only [Sign.apply]; omega)
      · rw [compare_apply, UnpackedFloat.compare, h]

/-! ### Bits -/

section Parts

variable (b : BitVec 64)

private theorem toNat_exponent :
    (@unpackExponent .binary64 b).toNat = b.toNat / 2 ^ 52 % 2 ^ 11 := by
  simp [unpackExponent, BitVec.extractLsb, Nat.shiftRight_eq_div_pow]

private theorem toNat_mantissa : (@unpackMantissa .binary64 b).toNat = b.toNat % 2 ^ 52 := by
  simp [unpackMantissa, BitVec.extractLsb]

private theorem ofBitVec_sign : Sign.ofBitVec (@unpackSign .binary64 b) =
    if b.toNat < 2 ^ 63 then .positive else .negative := by
  have hS : (@unpackSign .binary64 b).toNat = b.toNat / 2 ^ 63 % 2 := by
    simp [unpackSign, BitVec.extractLsb, Nat.shiftRight_eq_div_pow]
  have hlt : b.toNat < 2 ^ 64 := b.isLt
  have h : @unpackSign .binary64 b = 0#1 ↔ b.toNat < 2 ^ 63 := by
    rw [← BitVec.toNat_inj, hS, BitVec.toNat_ofNat]
    omega
  simp only [Sign.ofBitVec, h]

/-- The significand of a normal number has a leading bit that is not written down. -/
private theorem toNat_significand : (1#1 ++ @unpackMantissa .binary64 b).toNat =
    2 ^ 52 + (@unpackMantissa .binary64 b).toNat := by
  have hlow : (@unpackMantissa .binary64 b).toNat < 2 ^ 52 := by
    rw [toNat_mantissa]
    omega
  rw [BitVec.toNat_append, Nat.shiftLeft_eq]
  exact (Nat.two_pow_add_eq_or_of_lt hlow 1).symm

end Parts

/-- Bits that do not stand for NaN unpack to a number with the magnitude they count up to. -/
theorem unpacks_bits (b : BitVec 64) (hb : UnpackedFloat.unpack .binary64 b ≠ .notANumber) :
    Unpacks (UnpackedFloat.unpack .binary64 b)
      (if b.toNat < 2 ^ 63 then .positive else .negative) (b.toNat % 2 ^ 63) := by
  have hE := toNat_exponent b
  have hF := toNat_mantissa b
  -- what the unpacking asks of the exponent and the mantissa
  have hE₁ : @unpackExponent .binary64 b = -1#_ ↔
      b.toNat / 2 ^ 52 % 2 ^ 11 = 2047 := by
    rw [← BitVec.toNat_inj, hE]
    rfl
  have hE₀ : @unpackExponent .binary64 b = 0#_ ↔ b.toNat / 2 ^ 52 % 2 ^ 11 = 0 := by
    rw [← BitVec.toNat_inj, hE]
    rfl
  have hF₀ : @unpackMantissa .binary64 b = 0#_ ↔ b.toNat % 2 ^ 52 = 0 := by
    rw [← BitVec.toNat_inj, hF]
    rfl
  rw [UnpackedFloat.unpack] at hb ⊢
  simp only [ofBitVec_sign] at hb ⊢
  generalize (if b.toNat < 2 ^ 63 then Sign.positive else Sign.negative) = s at hb ⊢
  by_cases h₁ : @unpackExponent .binary64 b = -1#_
  · -- all bits of the exponent are set: an infinity, as it is no NaN
    by_cases h₂ : @unpackMantissa .binary64 b = 0#_
    · rw [if_pos h₁, if_pos h₂]
      have hm : b.toNat % 2 ^ 63 = 2047 * 2 ^ 52 := by
        have := hE₁.mp h₁
        have := hF₀.mp h₂
        omega
      rw [hm]
      exact .infinity s
    · exact absurd (by rw [if_pos h₁, if_neg h₂]) hb
  · rw [if_neg h₁]
    have hne : b.toNat / 2 ^ 52 % 2 ^ 11 ≠ 2047 := mt hE₁.mpr h₁
    by_cases h₀ : @unpackExponent .binary64 b = 0#_
    · -- no bit of the exponent is set: a zero or a subnormal number
      rw [if_pos h₀]
      have hzero := hE₀.mp h₀
      have hm : b.toNat % 2 ^ 63 = (@unpackMantissa .binary64 b).toNat := by
        rw [hF]
        omega
      rw [hm]
      by_cases h₂ : @unpackMantissa .binary64 b = 0#_
      · rw [dif_pos h₂, h₂]
        exact .zero s
      · rw [dif_neg h₂]
        have hexp : ((@unpackExponent .binary64 b).toNat : Int) -
            (Format.binary64.exponentBias + Format.binary64.mantissaBitsWithoutImplicit) + 1 =
              -1074 := by
          rw [hE, hzero]
          rfl
        simp only [hexp]
        exact .subnormal s _ _ (by rw [hF]; omega)
    · -- a normal number
      rw [if_neg h₀]
      have hpos : b.toNat / 2 ^ 52 % 2 ^ 11 ≠ 0 := mt hE₀.mpr h₀
      have hm : b.toNat % 2 ^ 63 =
          (@unpackExponent .binary64 b).toNat * 2 ^ 52 +
            (@unpackMantissa .binary64 b).toNat := by
        rw [hE, hF]
        omega
      rw [hm]
      have hexp : ((@unpackExponent .binary64 b).toNat : Int) -
          (Format.binary64.exponentBias + Format.binary64.mantissaBitsWithoutImplicit) =
            (@unpackExponent .binary64 b).toNat - 1075 := rfl
      have hone : (1#1 ++ @unpackMantissa .binary64 b).toNat =
          2 ^ 52 + (@unpackMantissa .binary64 b).toNat := toNat_significand b
      have hEpos : 0 < (@unpackExponent .binary64 b).toNat := by
        rw [hE]
        omega
      have hElt : (@unpackExponent .binary64 b).toNat < 2047 := by
        rw [hE]
        omega
      have hFlt : (@unpackMantissa .binary64 b).toNat < 2 ^ 52 := by
        rw [hF]
        omega
      simp only [hexp, hone]
      exact .normal s _ _ _ hEpos hElt hFlt

/-- The rank of a number is its magnitude with its sign. -/
private theorem rank_eq_apply {x : Float} (h : x.isNaN = false) :
    rank x = (if x.toBits.toNat < 2 ^ 63 then Sign.positive else .negative).apply
      (x.toBits.toNat % 2 ^ 63 : Nat) := by
  have hb : x.toBits.toNat < 2 ^ 64 := x.toBits.toNat_lt
  rw [rank, if_neg (Bool.eq_false_iff.mp h)]
  change (if x.toBits.toNat < 2 ^ 63 then (x.toBits.toNat : Int)
    else -((x.toBits.toNat - 2 ^ 63 : Nat) : Int)) = _
  by_cases hlt : x.toBits.toNat < 2 ^ 63
  · rw [if_pos hlt, if_pos hlt, Nat.mod_eq_of_lt hlt]
    rfl
  · have hm : x.toBits.toNat % 2 ^ 63 = x.toBits.toNat - 2 ^ 63 := by omega
    rw [if_neg hlt, if_neg hlt, hm]
    rfl

/-! ### Comparisons -/

private theorem isNaN_iff_unpack {x : Float} :
    x.isNaN = true ↔ x.toModel.unpack = .notANumber := by
  change x.toModel.unpack.isNaN = true ↔ _
  cases x.toModel.unpack <;> simp [UnpackedFloat.isNaN]

/-- Two numbers compare like their ranks. -/
private theorem compare_unpack {x y : Float} (hx : x.isNaN = false) (hy : y.isNaN = false) :
    x.toModel.unpack.compare y.toModel.unpack = some (compare (rank x) (rank y)) := by
  have unpacks {z : Float} (hz : z.isNaN = false) :=
    unpacks_bits z.toModel.toBits.toBitVec fun h => by
      rw [isNaN_iff_unpack.mpr h] at hz
      exact Bool.noConfusion hz
  rw [rank_eq_apply hx, rank_eq_apply hy]
  exact (unpacks hx).compare_eq (unpacks hy)

/-- A NaN compares with nothing. -/
private theorem compare_unpack_nan {x y : Float} (h : x.isNaN = true ∨ y.isNaN = true) :
    x.toModel.unpack.compare y.toModel.unpack = none := by
  rcases h with h | h
  · rw [isNaN_iff_unpack.mp h]
    rfl
  · rw [isNaN_iff_unpack.mp h]
    cases x.toModel.unpack with
    | infinity s => cases s <;> rfl
    | notANumber | zero => rfl
    | finite s => cases s <;> rfl

/-- `x < y` holds of numbers in the order of their ranks. -/
theorem lt_iff_rank {x y : Float} :
    x < y ↔ x.isNaN = false ∧ y.isNaN = false ∧ rank x < rank y := by
  have h : x < y ↔ x.toModel.unpack.compare y.toModel.unpack = some .lt := by
    change decide (x.toModel.unpack.lt y.toModel.unpack = true) = true ↔ _
    rw [decide_eq_true_iff, UnpackedFloat.lt, beq_iff_eq]
  rw [h]
  cases hx : x.isNaN
  · cases hy : y.isNaN
    · simp [compare_unpack hx hy, Int.compare_eq_lt]
    · simp [compare_unpack_nan (.inr hy)]
  · simp [compare_unpack_nan (.inl hx)]

theorem le_iff_compare {x y : Float} :
    x ≤ y ↔ (x.toModel.unpack.compare y.toModel.unpack).any (·.isLE) = true := by
  change decide (x.toModel.unpack.le y.toModel.unpack = true) = true ↔ _
  rw [decide_eq_true_iff, UnpackedFloat.le]

/-- `x ≤ y` holds of numbers in the order of their ranks. -/
theorem le_iff_rank {x y : Float} :
    x ≤ y ↔ x.isNaN = false ∧ y.isNaN = false ∧ rank x ≤ rank y := by
  rw [le_iff_compare]
  cases hx : x.isNaN
  · cases hy : y.isNaN
    · simp [compare_unpack hx hy, Int.isLE_compare]
    · simp [compare_unpack_nan (.inr hy)]
  · simp [compare_unpack_nan (.inl hx)]

/-- `x == y` holds of numbers of the same rank. -/
theorem beq_iff_rank {x y : Float} :
    (x == y) = true ↔ x.isNaN = false ∧ y.isNaN = false ∧ rank x = rank y := by
  have h : (x == y) = true ↔ x.toModel.unpack.compare y.toModel.unpack = some .eq := by
    change x.toModel.unpack.beq y.toModel.unpack = true ↔ _
    rw [UnpackedFloat.beq, beq_iff_eq]
  rw [h]
  cases hx : x.isNaN
  · cases hy : y.isNaN
    · simp [compare_unpack hx hy]
    · simp [compare_unpack_nan (.inr hy)]
  · simp [compare_unpack_nan (.inl hx)]

/-- Numbers compare like their ranks. -/
theorem compare?_eq_compare {x y : Float} (hx : x.isNaN = false) (hy : y.isNaN = false) :
    compare? x y = some (compare (rank x) (rank y)) := by
  rw [compare?]
  simp only [lt_iff_rank, beq_iff_rank, hx, hy, true_and]
  split_ifs with hlt heq hgt
  · rw [Int.compare_eq_lt.mpr hlt]
  · rw [Int.compare_eq_eq.mpr heq]
  · rw [Int.compare_eq_gt.mpr hgt]
  · omega

theorem compare?_eq_none {x y : Float} (h : ¬(x.isNaN = false ∧ y.isNaN = false)) :
    compare? x y = none := by
  rw [compare?]
  split_ifs with hlt hbeq hgt
  · rw [lt_iff_rank] at hlt
    exact absurd ⟨hlt.1, hlt.2.1⟩ h
  · rw [beq_iff_rank] at hbeq
    exact absurd ⟨hbeq.1, hbeq.2.1⟩ h
  · rw [lt_iff_rank] at hgt
    exact absurd ⟨hgt.2.1, hgt.1⟩ h
  · rfl

/-- Doubles compare exactly if both are numbers. -/
theorem compare?_eq_some_iff {x y : Float} {o : Ordering} :
    compare? x y = some o ↔
      x.isNaN = false ∧ y.isNaN = false ∧ compare (rank x) (rank y) = o := by
  by_cases h : x.isNaN = false ∧ y.isNaN = false
  · rw [compare?_eq_compare h.1 h.2, Option.some.injEq]
    exact ⟨fun ho => ⟨h.1, h.2, ho⟩, fun ho => ho.2.2⟩
  · rw [compare?_eq_none h]
    exact ⟨nofun, fun ho => absurd ⟨ho.1, ho.2.1⟩ h⟩

theorem compare?_eq_iff {x y : Float} : compare? x y = some .eq ↔ (x == y) = true := by
  rw [compare?_eq_some_iff, beq_iff_rank, Int.compare_eq_eq]

/-- NaN has a rank of its own. -/
theorem isNaN_of_rank_eq {x y : Float} (h : rank x = rank y) (hx : x.isNaN = true) :
    y.isNaN = true := by
  by_contra hy
  rw [rank, if_pos hx, rank, if_neg hy] at h
  change (2 ^ 63 : Int) = if y.toBits.toNat < 2 ^ 63 then (y.toBits.toNat : Int)
    else -((y.toBits.toNat - 2 ^ 63 : Nat) : Int) at h
  split_ifs at h
  · omega
  · omega

/-- Ranks are the same for equal numbers and for NaN. -/
theorem rank_eq_iff {x y : Float} :
    rank x = rank y ↔ (x == y) = true ∨ x.isNaN = true ∧ y.isNaN = true := by
  constructor
  · intro h
    by_cases hx : x.isNaN = true
    · exact .inr ⟨hx, isNaN_of_rank_eq h hx⟩
    · have hy : ¬y.isNaN = true := fun hy => hx (isNaN_of_rank_eq h.symm hy)
      rw [beq_iff_rank]
      exact .inl ⟨Bool.eq_false_iff.mpr hx, Bool.eq_false_iff.mpr hy, h⟩
  · rintro (h | ⟨hx, hy⟩)
    · rw [beq_iff_rank] at h
      exact h.2.2
    · rw [rank, if_pos hx, rank, if_pos hy]

/-- Only numbers are in order. -/
theorem isNaN_of_le {x y : Float} (h : x ≤ y) : x.isNaN = false ∧ y.isNaN = false := by
  rw [le_iff_rank] at h
  exact ⟨h.1, h.2.1⟩

theorem le_trans {x y z : Float} (h : x ≤ y) (h' : y ≤ z) : x ≤ z := by
  rw [le_iff_rank] at h h' ⊢
  exact ⟨h.1, h'.2.1, by omega⟩

theorem beq_of_le_of_le {x y : Float} (h : x ≤ y) (h' : y ≤ x) : (x == y) = true := by
  rw [le_iff_rank] at h h'
  rw [beq_iff_rank]
  exact ⟨h.1, h.2.1, by omega⟩

theorem le_refl {x : Float} (h : x.isNaN = false) : x ≤ x := by
  rw [le_iff_rank]
  exact ⟨h, h, by omega⟩

theorem le_of_lt {x y : Float} (h : x < y) : x ≤ y := by
  rw [lt_iff_rank] at h
  rw [le_iff_rank]
  exact ⟨h.1, h.2.1, by omega⟩

theorem lt_of_le_of_lt {x y z : Float} (h : x ≤ y) (h' : y < z) : x < z := by
  rw [le_iff_rank] at h
  rw [lt_iff_rank] at h' ⊢
  exact ⟨h.1, h'.2.1, by omega⟩

theorem lt_of_lt_of_le {x y z : Float} (h : x < y) (h' : y ≤ z) : x < z := by
  rw [le_iff_rank] at h'
  rw [lt_iff_rank] at h ⊢
  exact ⟨h.1, h'.2.1, by omega⟩

theorem not_lt_of_le {x y : Float} (h : x ≤ y) : ¬y < x := fun hlt => by
  rw [le_iff_rank] at h
  rw [lt_iff_rank] at hlt
  omega

theorem le_of_not_lt {x y : Float} (hx : x.isNaN = false) (hy : y.isNaN = false)
    (h : ¬x < y) : y ≤ x := by
  rw [lt_iff_rank] at h
  have hr : ¬rank x < rank y := fun hr => h ⟨hx, hy, hr⟩
  rw [le_iff_rank]
  exact ⟨hy, hx, by omega⟩

/-! ### Least and greatest elements -/

/-- What makes `pick` choose the better of two doubles in the sense of `r`, where a number is
better than a NaN. -/
structure Picks (r : Float → Float → Prop) (pick : Float → Float → Float) : Prop where
  refl {a : Float} : a.isNaN = false → r a a
  trans {a b c : Float} : r a b → r b c → r a c
  number {a b : Float} : r a b → a.isNaN = false ∧ b.isNaN = false
  choice (a b : Float) : pick a b = a ∨ pick a b = b
  left {a : Float} (b : Float) : a.isNaN = false → r (pick a b) a
  right (a : Float) {b : Float} : b.isNaN = false → r (pick a b) b

theorem lesser_picks : Picks (· ≤ ·) lesser where
  refl := le_refl
  trans := le_trans
  number := isNaN_of_le
  choice a b := by
    rw [lesser]
    split_ifs <;> simp
  left {a} b ha := by
    rw [lesser]
    split_ifs with hb hlt
    · exact le_refl ha
    · exact le_refl ha
    · exact le_of_not_lt ha (Bool.eq_false_iff.mpr hb) hlt
  right a {b} hb := by
    rw [lesser, if_neg (Bool.eq_false_iff.mp hb)]
    split_ifs with hlt
    · exact le_of_lt hlt
    · exact le_refl hb

theorem greater_picks : Picks (· ≥ ·) greater where
  refl := le_refl
  trans h h' := le_trans h' h
  number h := (isNaN_of_le h).symm
  choice a b := by
    rw [greater]
    split_ifs <;> simp
  left {a} b ha := by
    rw [greater]
    split_ifs with hb hlt
    · exact le_refl ha
    · exact le_refl ha
    · exact le_of_not_lt (Bool.eq_false_iff.mpr hb) ha hlt
  right a {b} hb := by
    rw [greater, if_neg (Bool.eq_false_iff.mp hb)]
    split_ifs with hlt
    · exact le_of_lt hlt
    · exact le_refl hb

/-- One of some doubles that is at least as good as every number among them. -/
structure Extreme (r : Float → Float → Prop) (u : Float) (xs : List Float) : Prop where
  mem : u ∈ xs
  bound : ∀ x ∈ xs, x.isNaN = false → r u x

section Extreme

variable {r : Float → Float → Prop} {pick : Float → Float → Float} {u v : Float}
  {xs ys : List Float}

theorem Extreme.singleton (hr : Picks r pick) (u : Float) : Extreme r u [u] := by
  refine ⟨List.mem_singleton.mpr rfl, fun x hx hnum => ?_⟩
  obtain rfl := List.mem_singleton.mp hx
  exact hr.refl hnum

theorem Extreme.append (hr : Picks r pick) (hu : Extreme r u xs) (hv : Extreme r v ys) :
    Extreme r (pick u v) (xs ++ ys) := by
  constructor
  · rcases hr.choice u v with h | h
    · rw [h]
      exact List.mem_append_left ys hu.mem
    · rw [h]
      exact List.mem_append_right xs hv.mem
  · intro x hx hnum
    rcases List.mem_append.mp hx with hx | hx
    · have hux := hu.bound x hx hnum
      exact hr.trans (hr.left v (hr.number hux).1) hux
    · have hvx := hv.bound x hx hnum
      exact hr.trans (hr.right u (hr.number hvx).1) hvx

/-- Only membership counts. -/
theorem Extreme.of_mem_iff (hu : Extreme r u xs) (h : ∀ x, x ∈ xs ↔ x ∈ ys) : Extreme r u ys :=
  ⟨(h u).mp hu.mem, fun x hx => hu.bound x ((h x).mpr hx)⟩

/-- The best of the best of several lists is the best of all. -/
theorem Extreme.flatMap {α : Type} {as : List α} {best : α → Float} {all : α → List Float}
    (hr : Picks r pick) (hu : Extreme r u (as.map best))
    (h : ∀ a ∈ as, Extreme r (best a) (all a)) : Extreme r u (as.flatMap all) := by
  constructor
  · obtain ⟨a, ha, rfl⟩ := List.mem_map.mp hu.mem
    exact List.mem_flatMap.mpr ⟨a, ha, (h a ha).mem⟩
  · intro x hx hnum
    obtain ⟨a, ha, hx⟩ := List.mem_flatMap.mp hx
    have hax := (h a ha).bound x hx hnum
    exact hr.trans (hu.bound _ (List.mem_map_of_mem ha) (hr.number hax).1) hax

end Extreme

end SpatialStore.Double
