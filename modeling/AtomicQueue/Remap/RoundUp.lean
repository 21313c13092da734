import AtomicQueue.Model.Remap
import Mathlib.Data.Nat.Size
import Mathlib.Tactic.Ring
/-!
# The round-up to a power of two

The chain of shift-ors spreads every set bit to all positions below it
(`Smeared`), so that a number of bit length `L` becomes `2 ^ L - 1`, and
the increment makes it `2 ^ L`, or `0` where that is one past the word.
-/

namespace AtomicQueue

variable {w n u k : ℕ} {a x y : BitVec w}

/-- `y` has every bit of `x`, spread over the `n` positions down from it. -/
def Smeared (x y : BitVec w) (n : ℕ) : Prop :=
  ∀ j, y.getLsbD j = true ↔ ∃ d < n, x.getLsbD (j + d) = true

theorem smeared_self (x : BitVec w) : Smeared x x 1 := fun j => by simp

/-- One shift-or by no more than the spread reached adds itself to it. -/
theorem Smeared.shift (h : Smeared x y n) (hu : u ≤ n) : Smeared x (y ||| y >>> u) (n + u) := by
  intro j
  rw [BitVec.getLsbD_or, Bool.or_eq_true, BitVec.getLsbD_ushiftRight, h j, h (u + j)]
  constructor
  · rintro (⟨d, hd, hx⟩ | ⟨d, hd, hx⟩)
    · exact ⟨d, by omega, hx⟩
    · exact ⟨u + d, by omega, by rwa [show j + (u + d) = u + j + d by omega]⟩
  · rintro ⟨d, hd, hx⟩
    rcases Nat.lt_or_ge d n with hlt | hge
    · exact Or.inl ⟨d, hlt, hx⟩
    · refine Or.inr ⟨d - u, by omega, ?_⟩
      rwa [show u + j + (d - u) = j + d by omega]

/-- A smear over the whole word is the number with all bits set up to the
highest one of `x`. -/
theorem Smeared.toNat_eq (h : Smeared x y n) (hn : w ≤ n) : y.toNat = 2 ^ x.toNat.size - 1 := by
  refine Nat.eq_of_testBit_eq fun j => ?_
  rw [Nat.testBit_two_pow_sub_one, BitVec.testBit_toNat, Bool.eq_iff_iff, h j, decide_eq_true_eq,
    Nat.lt_size]
  constructor
  · rintro ⟨d, -, hx⟩
    rw [← BitVec.testBit_toNat] at hx
    have hpow : 2 ^ j ≤ 2 ^ (j + d) := Nat.pow_le_pow_right (by omega) (Nat.le_add_right j d)
    exact hpow.trans (Nat.ge_two_pow_of_testBit hx)
  · intro hle
    obtain ⟨i, hi, hbit⟩ := Nat.exists_ge_and_testBit_of_ge_two_pow hle
    rw [BitVec.testBit_toNat] at hbit
    have hiw : i < w := BitVec.lt_of_getLsbD hbit
    exact ⟨i - j, by omega, by rwa [show j + (i - j) = i by omega]⟩

/-- The shifts of the code smear a bit over the whole word. -/
theorem smeared_orEqual32 (x : Word) : Smeared x (orEqual x [1, 2, 4, 8, 16]) 32 :=
  (((((smeared_self x).shift (by omega : 1 ≤ 1)).shift (by omega : 2 ≤ 1 + 1)).shift
    (by omega : 4 ≤ 1 + 1 + 2)).shift (by omega : 8 ≤ 1 + 1 + 2 + 4)).shift
    (by omega : 16 ≤ 1 + 1 + 2 + 4 + 8)

/-- One shift more spreads the bits of the word twice as wide. -/
theorem smeared_orEqual64 (x : BitVec 64) : Smeared x (orEqual x [1, 2, 4, 8, 16, 32]) 64 :=
  ((((((smeared_self x).shift (by omega : 1 ≤ 1)).shift (by omega : 2 ≤ 1 + 1)).shift
    (by omega : 4 ≤ 1 + 1 + 2)).shift (by omega : 8 ≤ 1 + 1 + 2 + 4)).shift
    (by omega : 16 ≤ 1 + 1 + 2 + 4 + 8)).shift (by omega : 32 ≤ 1 + 1 + 2 + 4 + 8 + 16)

/-- A decrement smeared over the whole word and incremented. -/
theorem Smeared.toNat_increment (h : Smeared (decrement a) y n) (hn : w ≤ n) :
    (increment y).toNat = 2 ^ (a - 1).toNat.size % 2 ^ w := by
  have hpos : 1 ≤ 2 ^ (a - 1).toNat.size := Nat.one_le_two_pow
  rw [increment, BitVec.toNat_add, h.toNat_eq hn, decrement]
  change (2 ^ (a - 1).toNat.size - 1 + 1 % 2 ^ w) % 2 ^ w = _
  rw [Nat.add_mod_mod, Nat.sub_add_cancel hpos]

/-! ## The bounds of a round-up -/

/-- **A power of two, modulo the word**: that of the bit length of one less. -/
def Rounds (f : BitVec w → BitVec w) : Prop := ∀ a, (f a).toNat = 2 ^ (a - 1).toNat.size % 2 ^ w

/-- The code of 32 bits rounds up, -/
theorem rounds_roundUpToPowerOf2 : Rounds roundUpToPowerOf2 := fun a =>
  (smeared_orEqual32 (decrement a)).toNat_increment le_rfl

/-- and so does that of 64. -/
theorem rounds_roundUpToPowerOf2U64 : Rounds roundUpToPowerOf2U64 := fun a =>
  (smeared_orEqual64 (decrement a)).toNat_increment le_rfl

theorem toNat_sub_one (hpos : 1 ≤ a.toNat) : (a - 1).toNat = a.toNat - 1 := by
  have hlt := a.isLt
  have hw : 1 < 2 ^ w := by omega
  have hone : (1 : BitVec w).toNat = 1 := Nat.mod_eq_of_lt hw
  rw [BitVec.toNat_sub_of_le (BitVec.le_def.mpr (hone.symm ▸ hpos)), hone]

/-- A number is at most a power of two if the one before has no more bits. -/
theorem size_sub_one_le_iff (hpos : 1 ≤ a.toNat) : (a - 1).toNat.size ≤ k ↔ a.toNat ≤ 2 ^ k := by
  have hpow := Nat.two_pow_pos k
  rw [Nat.size_le, toNat_sub_one hpos]
  omega

/-- One less than `0` has all bits set. -/
theorem size_zero_sub_one (hw : 0 < w) : (0 - 1 : BitVec w).toNat.size = w := by
  change (0#w - 1#w).toNat.size = w
  rw [BitVec.zero_sub, BitVec.neg_one_eq_allOnes, BitVec.toNat_allOnes]
  have hlt := Nat.pow_lt_pow_right (show 1 < 2 by omega) (show w - 1 < w by omega)
  have hlow : w - 1 < (2 ^ w - 1).size := by
    rw [Nat.lt_size]
    omega
  have hhigh : (2 ^ w - 1).size ≤ w := Nat.size_le.mpr (Nat.sub_one_lt (Nat.two_pow_pos w).ne')
  omega

namespace Rounds

variable {f : BitVec w → BitVec w} (hf : Rounds f)

include hf

/-- The power is in the word, -/
theorem toNat_eq (hpos : 1 ≤ a.toNat) (hk : k < w) (hle : a.toNat ≤ 2 ^ k) :
    (f a).toNat = 2 ^ (a - 1).toNat.size := by
  have hsize := (size_sub_one_le_iff hpos).mpr hle
  rw [hf, Nat.mod_eq_of_lt (Nat.pow_lt_pow_right (by omega) (by omega))]

/-- no greater than any that is enough, -/
theorem le_pow (hpos : 1 ≤ a.toNat) (hk : k < w) (hle : a.toNat ≤ 2 ^ k) : (f a).toNat ≤ 2 ^ k := by
  rw [hf.toNat_eq hpos hk hle]
  exact Nat.pow_le_pow_right (by omega) ((size_sub_one_le_iff hpos).mpr hle)

/-- and enough, -/
theorem le (hpos : 1 ≤ a.toNat) (hk : k < w) (hle : a.toNat ≤ 2 ^ k) : a.toNat ≤ (f a).toNat := by
  rw [hf.toNat_eq hpos hk hle]
  exact (size_sub_one_le_iff hpos).mp le_rfl

/-- and beyond the greatest power in the word there is none. -/
theorem eq_zero (hlt : 2 ^ (w - 1) < a.toNat) : (f a).toNat = 0 := by
  have hpos : 1 ≤ a.toNat := (Nat.two_pow_pos _).trans hlt
  have hsize : (a - 1).toNat.size = w := by
    refine le_antisymm (Nat.size_le.mpr (a - 1).isLt) ?_
    have hnot := mt (size_sub_one_le_iff hpos).mp (Nat.not_le_of_lt hlt)
    omega
  rw [hf, hsize, Nat.mod_self]

end Rounds

/-- A size rounded up is `0` or a power of two. -/
theorem exists_pow_of_roundUp (a : Word) (h : roundUpToPowerOf2 a ≠ 0) :
    ∃ m, (roundUpToPowerOf2 a).toNat = 2 ^ m := by
  refine ⟨(a - 1).toNat.size, ?_⟩
  have hsize : (a - 1).toNat.size ≤ 32 := Nat.size_le.mpr (a - 1).isLt
  rw [rounds_roundUpToPowerOf2]
  rcases Nat.lt_or_ge (a - 1).toNat.size 32 with hlt | hge
  · exact Nat.mod_eq_of_lt (Nat.pow_lt_pow_right (by omega) hlt)
  · refine absurd (BitVec.eq_of_toNat_eq ?_) h
    rw [rounds_roundUpToPowerOf2, Nat.le_antisymm hsize hge]
    rfl

/-- The size `2 ^ 31` is that of more than half of it. -/
theorem roundUpToPowerOf2_lt_iff {a : Word} (hpos : 1 ≤ a.toNat) (hle : a.toNat ≤ 2 ^ 31) :
    (roundUpToPowerOf2 a).toNat < 2 ^ 31 ↔ a.toNat ≤ 2 ^ 30 := by
  rw [rounds_roundUpToPowerOf2.toNat_eq hpos (by omega) hle, Nat.pow_lt_pow_iff_right (by omega),
    Nat.lt_succ_iff, size_sub_one_le_iff hpos]

/-! ## The round-up over the whole word -/

/-- **A round-up to a power of two**: the least that is enough while there
is one in the word, which it leaves as it is, and `0` elsewhere. -/
structure RoundsUp (f : BitVec w → BitVec w) : Prop where
  isLeast : ∀ a, 1 ≤ a.toNat → a.toNat ≤ 2 ^ (w - 1) →
    IsLeast {n | (∃ m, n = 2 ^ m) ∧ a.toNat ≤ n} (f a).toNat
  monotone : ∀ a a', 1 ≤ a.toNat → a.toNat ≤ a'.toNat → a'.toNat ≤ 2 ^ (w - 1) →
    (f a).toNat ≤ (f a').toNat
  idempotent : ∀ a, 1 ≤ a.toNat → a.toNat ≤ 2 ^ (w - 1) → f (f a) = f a
  zero : ∀ a, a.toNat = 0 ∨ 2 ^ (w - 1) < a.toNat → f a = 0

/-- **The result is the least power of two that is not less**, where there is
one. -/
theorem Rounds.isLeast {f : BitVec w → BitVec w} (hf : Rounds f) (hw : 0 < w) (hpos : 1 ≤ a.toNat)
    (hle : a.toNat ≤ 2 ^ (w - 1)) : IsLeast {n | (∃ m, n = 2 ^ m) ∧ a.toNat ≤ n} (f a).toNat := by
  have hk : w - 1 < w := by omega
  refine ⟨⟨⟨_, hf.toNat_eq hpos hk hle⟩, hf.le hpos hk hle⟩, ?_⟩
  rintro n ⟨⟨m, rfl⟩, hm⟩
  rw [hf.toNat_eq hpos hk hle]
  exact Nat.pow_le_pow_right (by omega) ((size_sub_one_le_iff hpos).mpr hm)

theorem Rounds.roundsUp {f : BitVec w → BitVec w} (hf : Rounds f) (hw : 0 < w) : RoundsUp f where
  isLeast a := hf.isLeast hw
  monotone a a' hpos hle hle' := by
    have hpow := hf.isLeast hw (hpos.trans hle) hle'
    exact (hf.isLeast hw hpos (hle.trans hle')).2 ⟨hpow.1.1, hle.trans hpow.1.2⟩
  idempotent a hpos hle := by
    have hk : w - 1 < w := by omega
    have hmem := hf.isLeast hw hpos hle
    have hpos' : 1 ≤ (f a).toNat := hpos.trans hmem.1.2
    have hle' : (f a).toNat ≤ 2 ^ (w - 1) := hf.le_pow hpos hk hle
    refine BitVec.eq_of_toNat_eq (le_antisymm ?_ (hf.le hpos' hk hle'))
    exact (hf.isLeast hw hpos' hle').2 ⟨hmem.1.1, le_rfl⟩
  zero a ha := by
    refine BitVec.eq_of_toNat_eq ?_
    change (f a).toNat = 0 % 2 ^ w
    rw [Nat.zero_mod]
    rcases ha with hzero | hlt
    · obtain rfl : a = 0 := BitVec.eq_of_toNat_eq hzero
      -- the decrement wraps, and so does the increment
      rw [hf, size_zero_sub_one hw, Nat.mod_self]
    · exact hf.eq_zero hlt

/-- **`round_up_to_power_of_2` over the whole word**, for both widths. -/
theorem roundUpToPowerOf2_roundsUp :
    RoundsUp roundUpToPowerOf2 ∧ RoundsUp roundUpToPowerOf2U64 :=
  ⟨rounds_roundUpToPowerOf2.roundsUp (by omega), rounds_roundUpToPowerOf2U64.roundsUp (by omega)⟩

end AtomicQueue
