import AtomicQueue.Model.Remap
import Mathlib.Data.Nat.Bitwise
import Mathlib.Tactic.IntervalCases
/-!
# What the index maps compute

Every map, on a ring of `2 ^ m` slots with `2 * b ≤ m`, moves bit
`swapBit b j` of the counter to bit `j` of the slot and drops the bits
from `m` up (`getLsbD_remap`). So a counter's slot depends on the counter
modulo the size only, two counters share a slot just when they are equal
modulo the size, and applying the map twice is the reduction.
-/

namespace AtomicQueue

open IndexBits

variable {b m j : ℕ} {index index' size : Word} {r : Remapper}

/-- The bit that lands at position `j`. -/
def swapBit (b j : ℕ) : ℕ := if j < b then j + b else if j < 2 * b then j - b else j

/-- Swapped twice, a bit is where it was. -/
theorem swapBit_swapBit : swapBit b (swapBit b j) = j := by
  unfold swapBit
  split_ifs <;> omega

/-- No bit is swapped in or out of the index. -/
theorem swapBit_lt_iff (h : 2 * b ≤ m) : swapBit b j < m ↔ j < m := by
  unfold swapBit
  split_ifs <;> omega

/-- The low mask has the low bits, -/
theorem getLsbD_maskElemIdx (hb : b < 32) : (maskElemIdx b).getLsbD j = decide (j < b) := by
  unfold maskElemIdx
  simp only [BitVec.getLsbD_not, BitVec.getLsbD_shiftLeft]
  by_cases h : j < b
  · simp [h, show j < 32 by omega]
  · by_cases h32 : j < 32
    · simp [h, h32, show j - b < 32 by omega]
    · simp [h, h32]

/-- and the high mask those above both groups. -/
theorem getLsbD_maskHi (hb : 2 * b < 32) :
    (maskHi b).getLsbD j = (decide (2 * b ≤ j) && decide (j < 32)) := by
  unfold maskHi
  simp only [BitVec.getLsbD_not, BitVec.getLsbD_shiftLeft]
  by_cases h32 : j < 32
  · by_cases h : j < 2 * b
    · simp [h, h32, show ¬ 2 * b ≤ j by omega]
    · simp [h, h32, show 2 * b ≤ j by omega, show j - 2 * b < 32 by omega]
  · simp [h32]

/-- The mask of a power-of-two size. -/
theorem getLsbD_size_sub_one (hm : size.toNat = 2 ^ m) : (size - 1).getLsbD j = decide (j < m) := by
  have hlt : 2 ^ m < 2 ^ 32 := hm ▸ size.isLt
  have hpos : 1 ≤ 2 ^ m := Nat.one_le_two_pow
  have hsub : (size - 1).toNat = 2 ^ m - 1 := by
    rw [BitVec.toNat_sub, hm]
    change (2 ^ 32 - 1 + 2 ^ m) % 2 ^ 32 = 2 ^ m - 1
    omega
  rw [← BitVec.testBit_toNat, hsub, Nat.testBit_two_pow_sub_one]

/-! ## The formulas

`size` is either the ring's, with `m` index bits, or `0`, which the maps
without a size pass for "no reduction" and which keeps all `32`. -/

/-- The size's mask keeps the bits below `m`. -/
def MaskBits (size : Word) (m : ℕ) : Prop := ∀ j, (size - 1).getLsbD j = decide (j < m)

/-- A power of two less one is a mask of its bits. -/
theorem maskBits_two_pow (hm : size.toNat = 2 ^ m) : MaskBits size m := fun _ =>
  getLsbD_size_sub_one hm

theorem maskBits_zero : MaskBits 0 32 := fun j => by
  have : (0 - 1 : Word) = BitVec.allOnes 32 := by decide
  rw [this, BitVec.getLsbD_allOnes]

/-- The bit at position `j` of the swapped and reduced index. -/
def swapped (b m : ℕ) (index : Word) (j : ℕ) : Bool :=
  decide (j < m) && index.getLsbD (swapBit b j)

/-- The low group comes from the middle, -/
theorem swapped_low (hbm : 2 * b ≤ m) (h : j < b) :
    swapped b m index j = index.getLsbD (j + b) := by
  simp [swapped, swapBit, h, show j < m by omega]

/-- the middle from the low, -/
theorem swapped_mid (hbm : 2 * b ≤ m) (h1 : ¬ j < b) (h2 : j < 2 * b) :
    swapped b m index j = index.getLsbD (j - b) := by
  simp [swapped, swapBit, h1, h2, show j < m by omega]

/-- and the rest stays. -/
theorem swapped_high (h : 2 * b ≤ j) :
    swapped b m index j = (decide (j < m) && index.getLsbD j) := by
  simp [swapped, swapBit, show ¬ j < b by omega, show ¬ j < 2 * b by omega]

theorem getLsbD_of_le (h : 32 ≤ j) : index.getLsbD j = false := BitVec.getLsbD_of_ge index j h

/-- The xor swap. -/
theorem RemapXor.getLsbD_remap (hb : 2 * b < 32) (hM : MaskBits size m) (hbm : 2 * b ≤ m) :
    (RemapXor.remap index size b).getLsbD j = swapped b m index j := by
  simp only [RemapXor.remap, RemapXor.remapFull, BitVec.getLsbD_xor, BitVec.getLsbD_and,
    BitVec.getLsbD_ushiftRight, BitVec.getLsbD_shiftLeft,
    getLsbD_maskElemIdx (show b < 32 by omega), hM _]
  by_cases h1 : j < b
  · rw [swapped_low hbm h1]
    simp [h1, show j < m by omega, show j + b < m by omega, Nat.add_comm b j]
  · by_cases h2 : j < 2 * b
    · rw [swapped_mid hbm h1 h2]
      have hadd : b + (j - b) = j := by omega
      simp only [h1, hadd, show j - b < b by omega, show j < 32 by omega, show j < m by omega,
        show j - b < m by omega, decide_true, decide_false, Bool.and_true, Bool.and_false,
        Bool.not_false, Bool.true_and, Bool.xor_false]
      rw [Bool.xor_left_comm, Bool.xor_self, Bool.xor_false]
    · rw [swapped_high (by omega)]
      simp [h1, show ¬ j - b < b by omega, Bool.and_comm]

/-- The parallel masks. -/
theorem RemapAnd.getLsbD_remap (hb : 2 * b < 32) (hM : MaskBits size m) (hbm : 2 * b ≤ m) :
    (RemapAnd.remap index size b).getLsbD j = swapped b m index j := by
  simp only [RemapAnd.remap, BitVec.getLsbD_or, BitVec.getLsbD_and, BitVec.getLsbD_ushiftRight,
    BitVec.getLsbD_shiftLeft, getLsbD_maskElemIdx (show b < 32 by omega), getLsbD_maskHi hb, hM _]
  by_cases h1 : j < b
  · rw [swapped_low hbm h1]
    simp [h1, show ¬ 2 * b ≤ j by omega, Nat.add_comm b j]
  · by_cases h2 : j < 2 * b
    · rw [swapped_mid hbm h1 h2]
      simp [h1, show ¬ 2 * b ≤ j by omega, show j - b < b by omega, show j < 32 by omega]
    · rw [swapped_high (by omega)]
      by_cases h32 : j < 32
      · simp [h1, h32, show ¬ j - b < b by omega, show 2 * b ≤ j by omega, Bool.and_comm]
      · have hnone : index.getLsbD j = false := getLsbD_of_le (by omega)
        simp [h1, h32, hnone]

/-- The control word of the bit field instructions: the field's start. -/
theorem count2_start (hb : 2 * b < 32) : ((count2 b).extractLsb' 0 8).toNat = b := by
  have : b < 16 := by omega
  interval_cases b <;> rfl

/-- And its length. -/
theorem count2_len (hb : 2 * b < 32) : ((count2 b).extractLsb' 8 8).toNat = b := by
  have : b < 16 := by omega
  interval_cases b <;> rfl

/-- `bzhi` cuts out the low group, -/
theorem RemapBmi.bzhi_count2 (hb : 2 * b < 32) :
    RemapBmi.bzhi index (count2 b) = index &&& maskElemIdx b := by
  simp only [RemapBmi.bzhi, count2_start hb]
  rw [if_pos (by omega)]
  rfl

/-- and `bextr` the middle. -/
theorem RemapBmi.bextr_count2 (hb : 2 * b < 32) :
    RemapBmi.bextr index (count2 b) = (index >>> b) &&& maskElemIdx b := by
  refine BitVec.eq_of_getLsbD_eq fun j hj => ?_
  simp only [RemapBmi.bextr, count2_start hb, count2_len hb, BitVec.getLsbD_setWidth,
    BitVec.getLsbD_extractLsb', BitVec.getLsbD_and, BitVec.getLsbD_ushiftRight,
    getLsbD_maskElemIdx (show b < 32 by omega), hj, decide_true, Bool.true_and, Bool.and_comm]

/-- The bit field instructions, in either set, compute the parallel
masks. -/
theorem RemapBmi.remap_eq (hb : 2 * b < 32) (bmi2 : Bool) :
    RemapBmi.remap bmi2 index size b = RemapAnd.remap index size b := by
  have hline : (if bmi2 then RemapBmi.bzhi index (count2 b) <<< b
      else (index &&& maskElemIdx b) <<< b) = (index &&& maskElemIdx b) <<< b := by
    rw [RemapBmi.bzhi_count2 hb, ite_self]
  simp only [RemapBmi.remap, RemapAnd.remap, hline, RemapBmi.bextr_count2 hb]
  rw [BitVec.or_assoc, BitVec.or_assoc, BitVec.or_comm ((index &&& maskElemIdx b) <<< b)]

/-- **Every map is the swap followed by the reduction.** -/
theorem getLsbD_remap (hb0 : b ≠ 0) (hb : 2 * b < 32) (hM : MaskBits size m) (hbm : 2 * b ≤ m) :
    (r.remap index size b).getLsbD j = swapped b m index j := by
  unfold Remapper.remap
  rw [if_neg hb0]
  cases r with
  | xor => exact RemapXor.getLsbD_remap hb hM hbm
  | and => exact RemapAnd.getLsbD_remap hb hM hbm
  | bmi bmi2 =>
    change (RemapBmi.remap bmi2 index size b).getLsbD j = _
    rw [RemapBmi.remap_eq hb]
    exact RemapAnd.getLsbD_remap hb hM hbm

/-! ## The slot of a counter -/

/-- What a map needs of its ring: the bits it swaps are bits of the
index. -/
def Swappable (b : ℕ) (size : Word) : Prop := b = 0 ∨ ∃ m, size.toNat = 2 ^ m ∧ 2 * b ≤ m

theorem two_mul_lt_of_size (hm : size.toNat = 2 ^ m) (hbm : 2 * b ≤ m) : 2 * b < 32 := by
  have hlt : 2 ^ m < 2 ^ 32 := hm ▸ size.isLt
  have := (Nat.pow_lt_pow_iff_right (by omega : 1 < 2)).mp hlt
  omega

/-- The bits of the slot on a ring of `2 ^ m`. -/
theorem getLsbD_remap_of_size (hb0 : b ≠ 0) (hm : size.toNat = 2 ^ m) (hbm : 2 * b ≤ m) :
    (r.remap index size b).getLsbD j = swapped b m index j :=
  getLsbD_remap hb0 (two_mul_lt_of_size hm hbm) (maskBits_two_pow hm) hbm

theorem remap_zero : r.remap index size 0 = index % size := rfl

/-- **The slot is on the ring.** -/
theorem toNat_remap_lt (hpos : 0 < size.toNat) (h : Swappable b size) :
    (r.remap index size b).toNat < size.toNat := by
  by_cases hb0 : b = 0
  · subst hb0
    rw [remap_zero, BitVec.toNat_umod]
    exact Nat.mod_lt _ hpos
  · obtain ⟨m, hm, hbm⟩ := h.resolve_left hb0
    rw [hm]
    refine Nat.lt_pow_two_of_testBit _ fun j hj => ?_
    rw [BitVec.testBit_toNat, getLsbD_remap_of_size hb0 hm hbm, swapped,
      decide_eq_false (by omega), Bool.false_and]

/-- Modulo a power of two the low bits remain. -/
theorem getLsbD_umod (hm : size.toNat = 2 ^ m) :
    (index % size).getLsbD j = (decide (j < m) && index.getLsbD j) := by
  rw [← BitVec.testBit_toNat, BitVec.toNat_umod, hm, Nat.testBit_mod_two_pow, BitVec.testBit_toNat]

theorem umod_umod : index % size % size = index % size :=
  BitVec.eq_of_toNat_eq (by simp only [BitVec.toNat_umod, Nat.mod_mod])

/-- **Applying a map twice reduces the counter.** -/
theorem remap_remap (h : Swappable b size) :
    r.remap (r.remap index size b) size b = index % size := by
  by_cases hb0 : b = 0
  · subst hb0
    rw [remap_zero, remap_zero, umod_umod]
  · obtain ⟨m, hm, hbm⟩ := h.resolve_left hb0
    refine BitVec.eq_of_getLsbD_eq fun j _ => ?_
    rw [getLsbD_umod hm, getLsbD_remap_of_size hb0 hm hbm, swapped,
      getLsbD_remap_of_size hb0 hm hbm, swapped, swapBit_swapBit]
    simp only [swapBit_lt_iff hbm]
    rw [← Bool.and_assoc, Bool.and_self]

/-- **The slot depends on the counter modulo the size.** -/
theorem remap_umod (h : Swappable b size) :
    r.remap (index % size) size b = r.remap index size b := by
  by_cases hb0 : b = 0
  · subst hb0
    rw [remap_zero, remap_zero, umod_umod]
  · obtain ⟨m, hm, hbm⟩ := h.resolve_left hb0
    refine BitVec.eq_of_getLsbD_eq fun j _ => ?_
    rw [getLsbD_remap_of_size hb0 hm hbm, swapped, getLsbD_remap_of_size hb0 hm hbm, swapped,
      getLsbD_umod hm]
    simp only [swapBit_lt_iff hbm]
    rw [← Bool.and_assoc, Bool.and_self]

/-- **Two counters share a slot just when they agree modulo the size.** -/
theorem remap_eq_iff (h : Swappable b size) :
    r.remap index size b = r.remap index' size b ↔ index % size = index' % size := by
  constructor
  · intro heq
    rw [← remap_remap (r := r) h, heq, remap_remap h]
  · intro heq
    rw [← remap_umod (r := r) h, heq, remap_umod h]

end AtomicQueue
