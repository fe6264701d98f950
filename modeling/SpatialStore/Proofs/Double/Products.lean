import SpatialStore.Proofs.Double.Arithmetic

/-!
# Products of counts

A double of at least one does not get smaller when it is multiplied by another one (`le_mul`): the
exact product is not smaller, and rounding it cannot go below a double. So products of counts grow
with every factor, also when they are rounded and when they end at infinity.

Counts up to `2 ^ 53` are doubles, and a product of them that is not larger is exact
(`ofNat_mul`). Adding zero changes nothing (`ofNat_add_zero`, `add_zero_le_add_zero`).
-/

namespace SpatialStore.Double

open Float.Model UnpackedFloat

/-! ### Exact products -/

/-- A count of at most `2 ^ 53` is a full significand with an exponent. -/
private theorem exists_ofNat_eq_pack {n : Nat} (hpos : 0 < n) (hle : n ≤ 2 ^ 53) :
    ∃ m k : Nat, ∃ h : 0 < m, m.log2 = 52 ∧ n * 2 ^ 52 = m * 2 ^ k ∧ k ≤ 53 ∧
      Float.ofNat n = ⟨Float.Model.pack (.finite .positive m (k - 52) h)⟩ := by
  rcases Nat.lt_or_eq_of_le hle with hlt | rfl
  · have hlog : n.log2 < 53 := (Nat.log2_lt (Nat.ne_of_gt hpos)).mpr hlt
    refine ⟨_, n.log2, significand_pos hpos, log2_significand hpos hlt, ?_, by omega,
      ofNat_eq_pack hpos hlt (significand_pos hpos)⟩
    have hsum : 52 - n.log2 + n.log2 = 52 := by omega
    rw [Nat.shiftLeft_eq, Nat.mul_assoc, ← Nat.pow_add, hsum]
  · exact ⟨2 ^ 52, 53, by decide, by decide, Nat.mul_comm _ _, by decide, rfl⟩

/-- Counts are multiplied exactly as long as the product is at most `2 ^ 53`. -/
theorem ofNat_mul {a b : Nat} (ha : 0 < a) (hb : 0 < b) (hle : a * b ≤ 2 ^ 53) :
    Float.ofNat a * Float.ofNat b = Float.ofNat (a * b) := by
  have hale : a ≤ 2 ^ 53 := Nat.le_trans (Nat.le_mul_of_pos_right a hb) hle
  have hble : b ≤ 2 ^ 53 := Nat.le_trans (Nat.le_mul_of_pos_left b ha) hle
  obtain ⟨m, j, hm, hmlog, hmvalue, hj, hmeq⟩ := exists_ofNat_eq_pack ha hale
  obtain ⟨n, k, hn, hnlog, hnvalue, hk, hneq⟩ := exists_ofNat_eq_pack hb hble
  obtain ⟨l, i, hl, hllog, hlvalue, hi, hleq⟩ := exists_ofNat_eq_pack (Nat.mul_pos ha hb) hle
  obtain ⟨hmlow, -⟩ := (Nat.log2_eq_iff (Nat.ne_of_gt hm)).mp hmlog
  obtain ⟨hnlow, -⟩ := (Nat.log2_eq_iff (Nat.ne_of_gt hn)).mp hnlog
  obtain ⟨-, hlhigh⟩ := (Nat.log2_eq_iff (Nat.ne_of_gt hl)).mp hllog
  have hvalue : m * n * 2 ^ (j + k) = l * 2 ^ (i + 52) := by
    calc m * n * 2 ^ (j + k) = (m * 2 ^ j) * (n * 2 ^ k) := by ring
      _ = a * b * 2 ^ 52 * 2 ^ 52 := by rw [← hmvalue, ← hnvalue]; ring
      _ = l * 2 ^ (i + 52) := by rw [hlvalue]; ring
  -- the product of the significands has at least 105 bits, so it is a shift of the one of `a * b`
  have hexp : j + k ≤ i := by
    by_contra hlt
    have hsplit : 2 ^ (j + k) = 2 ^ (j + k - (i + 1)) * 2 ^ (i + 1) := by
      rw [← Nat.pow_add, Nat.sub_add_cancel (by omega)]
    have hlow : 2 ^ 52 * 2 ^ 52 ≤ m * n := Nat.mul_le_mul hmlow hnlow
    have hone : 0 < 2 ^ (j + k - (i + 1)) := Nat.two_pow_pos _
    have hbig : 2 ^ 52 * 2 ^ 52 * 2 ^ (i + 1) ≤ m * n * 2 ^ (j + k) := by
      rw [hsplit]
      exact Nat.mul_le_mul hlow (Nat.le_mul_of_pos_left _ hone)
    have hsmall : l * 2 ^ (i + 52) < 2 ^ 53 * 2 ^ (i + 52) :=
      Nat.mul_lt_mul_of_pos_right hlhigh (Nat.two_pow_pos _)
    have hsame : 2 ^ 53 * 2 ^ (i + 52) = 2 ^ 52 * 2 ^ 52 * 2 ^ (i + 1) := by ring
    omega
  have hproduct : m * n = l * 2 ^ (i - (j + k) + 52) := by
    refine Nat.eq_of_mul_eq_mul_right (Nat.two_pow_pos (j + k)) ?_
    rw [hvalue, Nat.mul_assoc, ← Nat.pow_add]
    congr 2
    omega
  have hround := roundWithAccuracy_multiple (s := .positive) (e := (j : Int) - 52 + (k - 52)) hl
    hllog (by omega) (i - (j + k) + 52)
  have hlast : (j : Int) - 52 + (k - 52) + (i - (j + k) + 52 : Nat) = i - 52 := by omega
  rw [hmeq, hneq, hleq]
  change (⟨Float.Model.pack (UnpackedFloat.mul .binary64 (Float.Model.pack _).unpack
    (Float.Model.pack _).unpack)⟩ : Float) = _
  rw [unpack_pack_normal hm hmlog (by omega) (by omega),
    unpack_pack_normal hn hnlog (by omega) (by omega)]
  change (⟨Float.Model.pack (roundWithAccuracy .binary64 .positive (m * n) _ .exact)⟩ : Float) = _
  simp only [hproduct, hround, hlast]

theorem ofNat_add_zero {n : Nat} (hpos : 0 < n) (hle : n ≤ 2 ^ 53) :
    Float.ofNat n + 0 = Float.ofNat n := by
  obtain ⟨m, k, hm, hlog, -, hk, heq⟩ := exists_ofNat_eq_pack hpos hle
  rw [heq]
  change (⟨Float.Model.pack (UnpackedFloat.add .binary64 (Float.Model.pack _).unpack
    (0 : Float).toModel.unpack)⟩ : Float) = _
  rw [unpack_pack_normal hm hlog (by omega) (by omega)]
  rfl

/-! ### Products grow -/

/-- Infinite, or finite with an exponent from which on numbers are at least one. -/
private inductive AtLeastOne : UnpackedFloat → Prop
  | infinity : AtLeastOne (.infinity .positive)
  | normal {m : Nat} {e : Int} (h : 0 < m) : m.log2 = 52 → -52 ≤ e → e ≤ 971 →
      AtLeastOne (.finite .positive m e h)

private theorem unpack_one :
    (1 : Float).toModel.unpack = .finite .positive (2 ^ 52) (-52) (by decide) := rfl

private theorem atLeastOne_of_one_le {x : Float} (hx : 1 ≤ x) : AtLeastOne x.toModel.unpack := by
  rw [le_iff_compare, unpack_one] at hx
  have hunpacks := unpacks_bits x.toModel.toBits.toBitVec
  change x.toModel.unpack ≠ .notANumber → Unpacks x.toModel.unpack _ _ at hunpacks
  generalize x.toModel.unpack = u at hx hunpacks ⊢
  have hnumber : u ≠ .notANumber := by
    rintro rfl
    cases hx
  generalize (if x.toModel.toBits.toBitVec.toNat < 2 ^ 63 then Sign.positive else .negative) = s,
    x.toModel.toBits.toBitVec.toNat % 2 ^ 63 = M at hunpacks
  cases hunpacks hnumber with
  | infinity s =>
    cases s with
    | positive => exact .infinity
    | negative => cases hx
  | zero s => cases s <;> cases hx
  | subnormal s f h hf =>
    cases s with
    | positive => cases hx
    | negative => cases hx
  | normal s e f h he hhigh hf =>
    cases s with
    | negative => cases hx
    | positive =>
      have hlog : (2 ^ 52 + f).log2 = 52 :=
        (Nat.log2_eq_iff (Nat.ne_of_gt h)).mpr ⟨by omega, by omega⟩
      refine .normal h hlog ?_ (by omega)
      by_contra hlow
      have hgt : compare (-52 : Int) ((e : Int) - 1075) = .gt := Int.compare_eq_gt.mpr (by omega)
      simp only [UnpackedFloat.compare, hgt] at hx
      cases hx

/-- A finite number above all that can be packed. -/
private theorem unpack_pack_large {s : Sign} {m : Nat} {e : Int} (h : 0 < m) (he : 971 < e) :
    (Float.Model.pack (.finite s m e h)).unpack = .infinity s := by
  change UnpackedFloat.unpack .binary64 (UnpackedFloat.pack .binary64 _) = _
  have hlarge : 2 ^ Format.binary64.exponentBits ≤
      (e + Format.binary64.exponentBias +
        Format.binary64.mantissaBitsWithoutImplicit).toNat + 1 := by
    change 2 ^ 11 ≤ (e + 1023 + 52).toNat + 1
    omega
  rw [UnpackedFloat.pack]
  dsimp only
  rw [if_pos hlarge]
  cases s <;> rfl

/-- Rounding the product of two full significands does not go below the first factor if the second
one is at least one. -/
private theorem roundWithAccuracy_mul {m n : Nat} {e d : Int} (hm : 0 < m) (hn : 0 < n)
    (hmlog : m.log2 = 52) (hnlog : n.log2 = 52) (he : -52 ≤ e) (hd : -52 ≤ d) :
    ∃ l i, ∃ h : 0 < l,
      roundWithAccuracy .binary64 .positive (m * n) (e + d) .exact = .finite .positive l i h ∧
      l.log2 = 52 ∧ (e < i ∨ e = i ∧ m ≤ l) := by
  obtain ⟨hmlow, hmhigh⟩ := (Nat.log2_eq_iff (Nat.ne_of_gt hm)).mp hmlog
  obtain ⟨hnlow, hnhigh⟩ := (Nat.log2_eq_iff (Nat.ne_of_gt hn)).mp hnlog
  have hlow : 2 ^ 52 * 2 ^ 52 ≤ m * n := Nat.mul_le_mul hmlow hnlow
  have hhigh : m * n < 2 ^ 53 * 2 ^ 53 := Nat.mul_lt_mul'' hmhigh hnhigh
  have hlog : (m * n).log2 = 104 ∨ (m * n).log2 = 105 := by
    rw [Nat.log2_eq_iff (Nat.ne_of_gt (Nat.mul_pos hm hn)),
      Nat.log2_eq_iff (Nat.ne_of_gt (Nat.mul_pos hm hn))]
    omega
  have hquotient : m ≤ m * n / 2 ^ 52 := by
    rw [Nat.le_div_iff_mul_le (Nat.two_pow_pos 52)]
    exact Nat.mul_le_mul_left m hnlow
  have hleading := leading_eq (m * n)
  obtain ⟨l, i, h, hround, hl, hcases⟩ := roundWithAccuracy_eq (s := .positive) (m := m * n)
    (e := e + d) (by omega) (by omega)
  refine ⟨l, i, h, hround, hl, ?_⟩
  -- the exponent stays only if neither the product nor rounding it needs one bit more
  rcases hlog with hlog | hlog
  · have hsame : 104 - 52 = 52 := rfl
    rw [hlog, hsame] at hleading hcases
    omega
  · exact .inl (by omega)

/-- Multiplying by a number of at least one. -/
theorem le_mul {x y : Float} (hx : 1 ≤ x) (hy : 1 ≤ y) : x ≤ x * y := by
  have hu := atLeastOne_of_one_le hx
  have hv := atLeastOne_of_one_le hy
  rw [le_iff_compare]
  change (x.toModel.unpack.compare (Float.Model.pack
    (UnpackedFloat.mul .binary64 x.toModel.unpack y.toModel.unpack)).unpack).any _ = true
  generalize x.toModel.unpack = u at hu ⊢
  generalize y.toModel.unpack = v at hv ⊢
  cases hu with
  | infinity =>
    cases hv with
    | infinity => rfl
    | @normal n d hn =>
      have hmul : UnpackedFloat.mul .binary64 (.infinity .positive) (.finite .positive n d hn) =
          .infinity .positive := rfl
      rw [hmul]
      rfl
  | @normal m e hm hmlog hmlow hmhigh =>
    cases hv with
    | infinity =>
      have hmul : UnpackedFloat.mul .binary64 (.finite .positive m e hm) (.infinity .positive) =
          .infinity .positive := rfl
      rw [hmul]
      rfl
    | normal hn hnlog hnlow hnhigh =>
      obtain ⟨l, i, hl, hround, hllog, hle⟩ :=
        roundWithAccuracy_mul hm hn hmlog hnlog hmlow hnlow
      change (UnpackedFloat.compare _ (Float.Model.pack
        (roundWithAccuracy .binary64 .positive _ _ .exact)).unpack).any _ = true
      rw [hround]
      by_cases hi : i ≤ 971
      · rw [unpack_pack_normal hl hllog (by omega) hi]
        simp only [UnpackedFloat.compare, Option.any_some]
        rcases hle with hlt | ⟨rfl, hle⟩
        · rw [Int.compare_eq_lt.mpr hlt]
          rfl
        · rw [Int.compare_eq_eq.mpr rfl, Ordering.eq_then]
          exact Nat.isLE_compare.mpr hle
      · rw [unpack_pack_large hl (by omega)]
        rfl

theorem one_le_mul {x y : Float} (hx : 1 ≤ x) (hy : 1 ≤ y) : 1 ≤ x * y :=
  le_trans hx (le_mul hx hy)

theorem one_le_ofNat {n : Nat} (hpos : 0 < n) (hlt : n < 2 ^ 64) : 1 ≤ Float.ofNat n := by
  have hnormal := positiveNormal_ofNat hpos hlt
  rw [le_iff_compare, unpack_one]
  generalize (Float.ofNat n).toModel.unpack = u at hnormal ⊢
  obtain ⟨h, hlog, hlow, hhigh⟩ := hnormal
  obtain ⟨hle, -⟩ := (Nat.log2_eq_iff (Nat.ne_of_gt h)).mp hlog
  simp only [UnpackedFloat.compare, Option.any_some]
  rcases Int.lt_or_eq_of_le hlow with hlt | rfl
  · rw [Int.compare_eq_lt.mpr hlt]
    rfl
  · rw [Int.compare_eq_eq.mpr rfl, Ordering.eq_then]
    exact Nat.isLE_compare.mpr hle

private theorem unpack_add_zero {x : Float} (hx : 1 ≤ x) :
    (x + 0).toModel.unpack = x.toModel.unpack := by
  have hu := atLeastOne_of_one_le hx
  change (Float.Model.pack (UnpackedFloat.add .binary64 x.toModel.unpack
    (0 : Float).toModel.unpack)).unpack = _
  generalize x.toModel.unpack = u at hu ⊢
  cases hu with
  | infinity => rfl
  | normal h hlog hlow hhigh => exact unpack_pack_normal h hlog (by omega) hhigh

/-- Adding zero keeps numbers of at least one in their order. -/
theorem add_zero_le_add_zero {x y : Float} (hx : 1 ≤ x) (h : x ≤ y) : x + 0 ≤ y + 0 := by
  rw [le_iff_compare, unpack_add_zero hx, unpack_add_zero (le_trans hx h)]
  exact le_iff_compare.mp h

end SpatialStore.Double
