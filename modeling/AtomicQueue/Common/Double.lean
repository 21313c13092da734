import Mathlib.Algebra.Order.Field.Power
import Mathlib.Tactic.NormNum
import Mathlib.Tactic.Ring
import Mathlib.Tactic.Linarith
import Mathlib.Tactic.FieldSimp
/-!
# Sums in `double`

Integer sums are sometimes computed in `double`, whose numbers are here those
of the model that Lean has of its own `binary64`. A product is rounded to 53
bits, to the nearest number and of two to the even one. Where the exact one
has no more bits than these it is the result, and a whole number is converted
to itself.
-/

namespace Double

open Float.Model UnpackedFloat

/-- A whole number, converted. -/
def ofNat (n : ℕ) : UnpackedFloat := .ofNat .binary64 n

/-- `.5` -/
def half : UnpackedFloat := .round .binary64 .positive 1 (-1)

def mul (x y : UnpackedFloat) : UnpackedFloat := .mul .binary64 x y

/-- The conversion to a whole number, which drops the rest. It is undefined
for numbers that the type of the result does not have. -/
def trunc (x : UnpackedFloat) : ℤ := x.toInt 0 0

/-- **`x` is the number `q`**, with a mantissa of all its bits. -/
def Is (x : UnpackedFloat) (q : ℚ) : Prop :=
  ∃ m e h, x = .finite .positive m e h ∧ m.log2 = 52 ∧ (m : ℚ) * 2 ^ e = q

/-- **`q` has at most 53 bits.** -/
def Fits (q : ℚ) : Prop := ∃ (c : ℕ) (k : ℤ), c ≠ 0 ∧ c < 2 ^ 53 ∧ q = c * 2 ^ k

variable {x y : UnpackedFloat} {q r : ℚ} {a m n s : ℕ} {e k : ℤ}

/-! ## Rounding -/

/-- Bits that are `0` are dropped without a trace. -/
theorem shiftRight_mul (a s : ℕ) :
    (⟨a * 2 ^ s, false, false⟩ : ExtendedMantissa) >>> s = ⟨a, false, false⟩ := by
  change Nat.repeat ExtendedMantissa.shiftRightOne s _ = _
  induction s generalizing a with
  | zero => rw [pow_zero, mul_one]; rfl
  | succ s ih =>
    have hdouble : a * 2 ^ (s + 1) = a * 2 * 2 ^ s := by ring
    rw [Nat.repeat, hdouble, ih]
    simp [ExtendedMantissa.shiftRightOne]

theorem log2_mul_two_pow (ha : a ≠ 0) : (a * 2 ^ s).log2 = a.log2 + s := by
  refine (Nat.log2_eq_iff (by positivity)).mpr ⟨?_, ?_⟩
  · rw [pow_add]
    exact Nat.mul_le_mul_right _ (Nat.log2_self_le ha)
  · rw [Nat.add_right_comm, pow_add]
    exact Nat.mul_lt_mul_of_pos_right Nat.lt_log2_self (by positivity)

theorem ne_zero_of_log2 (ha : a.log2 = 52) : a ≠ 0 := by
  rintro rfl
  simp at ha

/-- The exponent of the last of 53 bits. -/
theorem targetExponent_binary64 : Format.binary64.targetExponent k = max (k - 53) (-1074) := rfl

/-- The exponent with which 53 bits remain. -/
theorem targetExponent_eq (ha : a.log2 = 52) (he : -1074 ≤ e) :
    Format.binary64.targetExponent (totalExponent (a * 2 ^ s) e) = e + s := by
  rw [targetExponent_binary64, totalExponent, log2_mul_two_pow (ne_zero_of_log2 ha), ha]
  omega

/-- A shift to it drops only bits that are `0`. -/
theorem shiftToTargetExponent_eq (ha : a.log2 = 52) (he : -1074 ≤ e) :
    shiftToTargetExponent .binary64 (a * 2 ^ s) e .exact = (⟨a, false, false⟩, e + s) := by
  have hshift : (e + s - e).toNat = s := by omega
  rw [shiftToTargetExponent, targetExponent_eq ha he, shiftToExponent, hshift]
  exact Prod.ext (shiftRight_mul a s) rfl

/-- **What has a mantissa of 53 bits is not rounded.** -/
theorem roundWithAccuracy_eq (ha : a.log2 = 52) (he : -1074 ≤ e) :
    roundWithAccuracy .binary64 .positive (a * 2 ^ s) e .exact =
      .finite .positive a (e + s) (Nat.pos_of_ne_zero (ne_zero_of_log2 ha)) := by
  have hnext : shiftToTargetExponent .binary64 a (e + s) .exact = (⟨a, false, false⟩, e + s) := by
    have h := shiftToTargetExponent_eq (s := 0) ha (e := e + s) (by omega)
    simpa using h
  have hrounded : (⟨a, false, false⟩ : ExtendedMantissa).roundedMantissa = a := rfl
  rw [roundWithAccuracy, shiftToTargetExponent_eq ha he]
  dsimp only
  rw [hrounded, hnext]
  exact dif_neg (ne_zero_of_log2 ha)

/-! ## Exact results -/

theorem pow_mantissa_lt (hm : m.log2 = 52) : (m : ℚ) < 2 ^ (53 : ℤ) := by
  have h := Nat.lt_log2_self (n := m)
  rw [hm] at h
  exact_mod_cast h

/-- A mantissa with all its bits, and the exponent to it. -/
theorem Fits.exists_mantissa (h : Fits q) :
    ∃ (a : ℕ) (k : ℤ), a.log2 = 52 ∧ q = a * 2 ^ k := by
  obtain ⟨c, k, hc, hlt, rfl⟩ := h
  have hlog : c.log2 ≤ 52 := Nat.lt_succ_iff.mp ((Nat.log2_lt hc).mpr hlt)
  refine ⟨c * 2 ^ (52 - c.log2), k - (52 - c.log2 : ℕ), ?_, ?_⟩
  · rw [log2_mul_two_pow hc]
    omega
  · rw [zpow_sub₀ two_ne_zero, zpow_natCast]
    push_cast
    field_simp

/-- A number that is not small does not have a small exponent. -/
theorem le_exponent (hm : m.log2 = 52) (hq : 1 / 2 ≤ (m : ℚ) * 2 ^ e) : -53 ≤ e := by
  by_contra hlt
  have hle : (2 : ℚ) ^ e ≤ 2 ^ (-54 : ℤ) := zpow_le_zpow_right₀ (by norm_num) (by omega)
  have hprod : (m : ℚ) * 2 ^ e < 2 ^ (53 : ℤ) * 2 ^ (-54 : ℤ) :=
    lt_of_le_of_lt (mul_le_mul_of_nonneg_left hle (Nat.cast_nonneg m))
      (mul_lt_mul_of_pos_right (pow_mantissa_lt hm) (by positivity))
  rw [← zpow_add₀ two_ne_zero] at hprod
  exact absurd (hprod.trans_le (by norm_num)) (not_lt.mpr hq)

/-- A whole number of more bits than a mantissa is one, shifted. -/
theorem exists_shift (ha : a.log2 = 52) (hn : 2 ^ 53 ≤ n) (h : (n : ℚ) * 2 ^ e = a * 2 ^ k) :
    ∃ s : ℕ, n = a * 2 ^ s ∧ e + s = k := by
  have hn_eq : (n : ℚ) = a * 2 ^ (k - e) := by
    rw [zpow_sub₀ two_ne_zero, ← mul_div_assoc, ← h]
    exact (mul_div_cancel_right₀ _ (by positivity)).symm
  have hle : e ≤ k := by
    by_contra hlt
    have hone : (2 : ℚ) ^ (k - e) ≤ 1 := zpow_le_one_of_nonpos₀ (by norm_num) (by omega)
    have hlarge : (2 : ℚ) ^ (53 : ℤ) ≤ n := by exact_mod_cast hn
    have hsmall : (n : ℚ) ≤ a := by
      rw [hn_eq]
      exact mul_le_of_le_one_right (Nat.cast_nonneg a) hone
    exact absurd (pow_mantissa_lt ha) (not_lt.mpr (hlarge.trans hsmall))
  obtain ⟨s, hs⟩ := Int.eq_ofNat_of_zero_le (sub_nonneg.mpr hle)
  refine ⟨s, ?_, by omega⟩
  rw [hs, zpow_natCast] at hn_eq
  exact_mod_cast hn_eq

/-- **A product of no more bits than a number has is exact.** -/
theorem Is.mul (hx : Is x q) (hy : Is y r) (hq : 1 / 2 ≤ q) (hr : 1 / 2 ≤ r)
    (h : Fits (q * r)) : Is (mul x y) (q * r) := by
  obtain ⟨m, e, hm, rfl, hlog, rfl⟩ := hx
  obtain ⟨n, f, hn, rfl, hlog', rfl⟩ := hy
  obtain ⟨a, k, ha, heq⟩ := h.exists_mantissa
  have he := le_exponent hlog hq
  have hf := le_exponent hlog' hr
  have hlarge : 2 ^ 53 ≤ m * n := by
    have hm_le := Nat.log2_self_le hm.ne'
    have hn_le := Nat.log2_self_le hn.ne'
    rw [hlog] at hm_le
    rw [hlog'] at hn_le
    exact le_trans (by norm_num) (Nat.mul_le_mul hm_le hn_le)
  have hprod : ((m * n : ℕ) : ℚ) * 2 ^ (e + f) = a * 2 ^ k := by
    rw [← heq, zpow_add₀ two_ne_zero, Nat.cast_mul]
    ring
  obtain ⟨s, hs, rfl⟩ := exists_shift ha hlarge hprod
  refine ⟨a, e + f + s, Nat.pos_of_ne_zero (ne_zero_of_log2 ha), ?_, ha, heq.symm⟩
  change roundWithAccuracy .binary64 .positive (m * n) (e + f) .exact = _
  rw [hs]
  exact roundWithAccuracy_eq ha (by omega)

/-! ## Conversions -/

/-- A number of at most 53 bits is as it is. -/
theorem is_round (hn : n ≠ 0) (hlt : n < 2 ^ 53) (he : -1022 ≤ e) :
    Is (.round .binary64 .positive n e) (n * 2 ^ e) := by
  have hlog : n.log2 ≤ 52 := Nat.lt_succ_iff.mp ((Nat.log2_lt hn).mpr hlt)
  obtain ⟨s, hs⟩ := Nat.exists_eq_add_of_le hlog
  have ha : (n * 2 ^ s).log2 = 52 := (log2_mul_two_pow hn).trans hs.symm
  have htarget : Format.binary64.targetExponent (totalExponent n e) = e - s := by
    rw [targetExponent_binary64, totalExponent]
    omega
  have hdecrease : decreaseExponent n e (e - s) = (n * 2 ^ s, e - s) := by
    have hshift : (e - (e - s)).toNat = s := by omega
    rw [decreaseExponent, hshift, Nat.shiftLeft_eq]
  refine ⟨n * 2 ^ s, e - s, Nat.pos_of_ne_zero (ne_zero_of_log2 ha), ?_, ha, ?_⟩
  · rw [UnpackedFloat.round, htarget, hdecrease]
    have hround := roundWithAccuracy_eq (s := 0) (e := e - s) ha (by omega)
    rwa [pow_zero, mul_one, Nat.cast_zero, add_zero] at hround
  · rw [zpow_sub₀ two_ne_zero, zpow_natCast]
    push_cast
    field_simp

/-- **A whole number of at most 53 bits is converted exactly.** -/
theorem is_ofNat (hn : n ≠ 0) (hlt : n < 2 ^ 53) : Is (ofNat n) n := by
  have hround := is_round (e := 0) hn hlt (by norm_num)
  have hpos : compare (n : ℤ) 0 = .gt := Int.compare_eq_gt.mpr (by omega)
  rw [zpow_zero, mul_one] at hround
  rwa [ofNat, UnpackedFloat.ofNat, UnpackedFloat.ofInt, UnpackedFloat.normalize, hpos]

/-- `.5` is exact. -/
theorem is_half : Is half (1 / 2) := by
  have hround := is_round (n := 1) (e := -1) one_ne_zero (by norm_num) (by norm_num)
  norm_num at hround ⊢
  exact hround

/-- The conversion shifts the mantissa by the exponent. -/
theorem trunc_finite {hm : 0 < m} : trunc (.finite .positive m e hm) =
    ((⟨m * 2 ^ e.toNat, false, false⟩ : ExtendedMantissa) >>> (-e).toNat).mantissa := by
  have hshift : (0 - (e - e.toNat)).toNat = (-e).toNat := by omega
  change ((ExtendedMantissa.ofMantissaAndAccuracy (m <<< (e - 0).toNat) .exact >>>
    (0 - (e - (e - 0).toNat)).toNat).mantissa : ℤ) = _
  rw [sub_zero, hshift, Nat.shiftLeft_eq]
  rfl

/-- **A whole number is converted back to itself.** -/
theorem Is.trunc_eq (h : Is x n) : trunc x = n := by
  obtain ⟨m, e, hm, rfl, -, heq⟩ := h
  rw [trunc_finite]
  rcases le_total 0 e with hle | hle
  · obtain ⟨s, rfl⟩ := Int.eq_ofNat_of_zero_le hle
    rw [zpow_natCast] at heq
    have hn : m * 2 ^ s = n := by exact_mod_cast heq
    rw [Int.toNat_natCast, hn, Int.toNat_neg_natCast]
    rfl
  · obtain ⟨s, hs⟩ := Int.eq_ofNat_of_zero_le (neg_nonneg.mpr hle)
    obtain rfl : e = -s := by omega
    have hn : m = n * 2 ^ s := by
      rw [zpow_neg, zpow_natCast] at heq
      have hmul := (mul_inv_eq_iff_eq_mul₀ (by positivity)).mp heq
      exact_mod_cast hmul
    rw [hs, hn, Int.toNat_natCast, Int.toNat_neg_natCast, pow_zero, mul_one, shiftRight_mul]

theorem half_le (hn : n ≠ 0) : (1 / 2 : ℚ) ≤ n := by
  have hone : (1 : ℚ) ≤ n := by exact_mod_cast Nat.one_le_iff_ne_zero.mpr hn
  linarith

/-- Half of a whole number has as many bits. -/
theorem fits_half (hn : n ≠ 0) (hlt : n < 2 ^ 53) : Fits (n * (1 / 2)) :=
  ⟨n, -1, hn, hlt, by norm_num⟩

/-- A whole number of at most 53 bits fits. -/
theorem fits_natCast (hn : n ≠ 0) (hlt : n < 2 ^ 53) : Fits n := ⟨n, 0, hn, hlt, by norm_num⟩

end Double
