import SpatialStore.Proofs.Double.Arithmetic

/-!
# Rounding keeps the order

An integer of more than 53 digits is rounded when it is made a double, and its neighbours may get
the same double. But a smaller integer never gets a larger one (`ofInt_le_ofInt`).

A significand is rounded by two of the bits that are cut off: the first one, and whether any of the
others is set. With these two bits it has a `weight`, which neither shifting nor rounding puts out
of order. Significands of different lengths stay apart anyway: the shorter one may at most reach
the smallest of the longer ones.
-/

namespace SpatialStore.Double

open Float.Model UnpackedFloat

/-! ### Significands -/

/-- The size of a significand, as far as it is still known when bits were cut off. -/
private def weight (m : ExtendedMantissa) : Nat :=
  4 * m.mantissa + 2 * m.roundBit.toNat + m.stickyBit.toNat

private theorem weight_shiftRightOne (m : ExtendedMantissa) :
    weight m.shiftRightOne = 2 * m.mantissa + (m.roundBit || m.stickyBit).toNat := by
  rcases Nat.mod_two_eq_zero_or_one m.mantissa with h | h
  · simp only [weight, ExtendedMantissa.shiftRightOne, h]
    change 4 * (m.mantissa / 2) + 2 * 0 + _ = _
    omega
  · simp only [weight, ExtendedMantissa.shiftRightOne, h]
    change 4 * (m.mantissa / 2) + 2 * 1 + _ = _
    omega

section Weight

variable {m n : ExtendedMantissa}

private theorem weight_shiftRightOne_le (h : weight m ≤ weight n) :
    weight m.shiftRightOne ≤ weight n.shiftRightOne := by
  rw [weight_shiftRightOne, weight_shiftRightOne]
  obtain ⟨m, r, s⟩ := m
  obtain ⟨n, t, u⟩ := n
  -- the bits that were cut off count for less than one that was not
  cases r <;> cases s <;> cases t <;> cases u <;> simp [weight] at h ⊢ <;> omega

private theorem weight_shiftRight_le (h : weight m ≤ weight n) (k : Nat) :
    weight (m >>> k) ≤ weight (n >>> k) := by
  induction k with
  | zero => exact h
  | succ k ih => exact weight_shiftRightOne_le ih

private theorem roundedMantissa_le (h : weight m ≤ weight n) :
    m.roundedMantissa ≤ n.roundedMantissa := by
  obtain ⟨m, r, s⟩ := m
  obtain ⟨n, t, u⟩ := n
  cases r <;> cases s <;> cases t <;> cases u <;> simp [weight] at h <;>
    simp only [ExtendedMantissa.roundedMantissa, ExtendedMantissa.accuracy,
      Accuracy.roundToNearestEven] <;> omega

end Weight

variable {m n : Nat} {e : Int}

/-- Significands of the same length are rounded in their order. -/
private theorem leading_le (hlog : m.log2 = n.log2) (h : m ≤ n) : leading m ≤ leading n := by
  rw [leading, leading, hlog]
  refine roundedMantissa_le (weight_shiftRight_le ?_ _)
  simp only [weight]
  omega

/-- Rounded numbers are in the order of the numbers. -/
private theorem compare_roundWithAccuracy (hm : 52 ≤ m.log2) (he : -1074 ≤ e) (h : m ≤ n) :
    ((roundWithAccuracy .binary64 .positive m e .exact).compare
      (roundWithAccuracy .binary64 .positive n e .exact)).any (·.isLE) = true := by
  have hlog : m.log2 ≤ n.log2 := by
    rw [Nat.log2_eq_log_two, Nat.log2_eq_log_two]
    exact Nat.log_mono_right h
  obtain ⟨k, i, hk, hmround, hklog, hkcases⟩ :=
    roundWithAccuracy_eq (s := .positive) (m := m) (e := e) hm he
  obtain ⟨l, j, hl, hnround, hllog, hlcases⟩ :=
    roundWithAccuracy_eq (s := .positive) (m := n) (e := e) (by omega) he
  have hmbounds := leading_bounds hm
  have hnbounds := leading_bounds (m := n) (by omega)
  have hsame : m.log2 = n.log2 → leading m ≤ leading n := fun hlog => leading_le hlog h
  have hlbounds := (Nat.log2_eq_iff (Nat.ne_of_gt hl)).mp hllog
  have horder : i < j ∨ i = j ∧ k ≤ l := by omega
  rw [hmround, hnround, UnpackedFloat.compare, Option.any_some]
  rcases horder with hlt | ⟨rfl, hle⟩
  · rw [Int.compare_eq_lt.mpr hlt]
    rfl
  · rw [Int.compare_eq_eq.mpr rfl, Ordering.eq_then]
    exact Nat.isLE_compare.mpr hle

/-! ### Integers -/

theorem ofNat_le_ofNat (h : m ≤ n) (hn : n < 2 ^ 64) : Float.ofNat m ≤ Float.ofNat n := by
  rcases Nat.eq_zero_or_pos n with rfl | hnpos
  · obtain rfl := Nat.le_zero.mp h
    exact le_refl rfl
  rcases Nat.eq_zero_or_pos m with rfl | hmpos
  · exact (finitePositive_ofNat hnpos hn).zero_le
  have hlog := log2_shiftLeft (Nat.ne_of_gt hmpos) 53
  rw [le_iff_compare, unpack_ofNat_eq_round hmpos (Nat.lt_of_le_of_lt h hn),
    unpack_ofNat_eq_round hnpos hn]
  refine compare_roundWithAccuracy (by omega) (by omega) ?_
  rw [Nat.shiftLeft_eq, Nat.shiftLeft_eq]
  exact Nat.mul_le_mul_right _ h

/-- The double of a negative integer. -/
private theorem unpack_neg_ofNat (hpos : 0 < n) (hn : n < 2 ^ 64) :
    (Float.ofNat n).neg.toModel.unpack = (Float.ofNat n).toModel.unpack.neg := by
  have hnormal := positiveNormal_ofNat hpos hn
  change (Float.Model.pack (Float.ofNat n).toModel.unpack.neg).unpack = _
  generalize (Float.ofNat n).toModel.unpack = x at hnormal ⊢
  obtain ⟨h, hlog, hlow, hhigh⟩ := hnormal
  exact unpack_pack_normal h hlog (by omega) (by omega)

private theorem neg_ofNat_le_zero (hpos : 0 < n) (hn : n < 2 ^ 64) : (Float.ofNat n).neg ≤ 0 := by
  obtain ⟨l, i, h, hunpack⟩ := finitePositive_ofNat hpos hn
  rw [le_iff_compare, unpack_neg_ofNat hpos hn, hunpack]
  rfl

/-- Signs turn the order round. -/
private theorem neg_ofNat_le_neg_ofNat (hpos : 0 < m) (h : m ≤ n) (hn : n < 2 ^ 64) :
    (Float.ofNat n).neg ≤ (Float.ofNat m).neg := by
  have hm : m < 2 ^ 64 := Nat.lt_of_le_of_lt h hn
  have hnpos : 0 < n := Nat.lt_of_lt_of_le hpos h
  have hle := le_iff_compare.mp (ofNat_le_ofNat h hn)
  rw [le_iff_compare, unpack_neg_ofNat hnpos hn, unpack_neg_ofNat hpos hm]
  obtain ⟨k, i, hk, hmunpack⟩ := finitePositive_ofNat hpos hm
  obtain ⟨l, j, hl, hnunpack⟩ := finitePositive_ofNat hnpos hn
  rw [hmunpack, hnunpack] at hle ⊢
  have hswap : ((compare j i).then (compare l k)).swap = (compare i j).then (compare k l) := by
    rw [Ordering.swap_then, Int.compare_swap, Nat.compare_swap]
  change (some ((compare j i).then (compare l k)).swap).any (·.isLE) = true
  rw [hswap]
  exact hle

/-- A smaller integer does not get a larger double. -/
theorem ofInt_le_ofInt {i j : Int} (hi : i.natAbs < 2 ^ 64) (hj : j.natAbs < 2 ^ 64)
    (h : i ≤ j) : ofInt i ≤ ofInt j := by
  cases i with
  | ofNat m =>
    cases j with
    | ofNat n => exact ofNat_le_ofNat (Int.ofNat_le.mp h) hj
    | negSucc n => exact absurd (Int.le_trans (Int.natCast_nonneg m) h) (by omega)
  | negSucc m =>
    have hneg : (Float.ofNat m.succ).neg ≤ 0 := neg_ofNat_le_zero m.succ_pos hi
    cases j with
    | ofNat n =>
      have hzero : 0 ≤ Float.ofNat n := ofNat_le_ofNat n.zero_le hj
      exact le_trans hneg hzero
    | negSucc n => exact neg_ofNat_le_neg_ofNat n.succ_pos (by omega) hi

end SpatialStore.Double
