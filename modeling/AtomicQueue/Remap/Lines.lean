import AtomicQueue.Remap.Exchange
import AtomicQueue.Model.Ring
/-!
# Consecutive positions are on distinct cache lines

The bits exchanged are as many as index an element within its cache line,
so the index of an element within the line it would be on without the
exchange becomes the low bits of its line. Positions in sequence, as many as
a line has elements, differ in these bits wherever they start. A ring too
small for the exchange is left as it is.
-/

namespace AtomicQueue

variable {b m e i : ℕ} {r : Remapper} {index start size SIZE : Word}

/-- The cache line of the position `i` after `start`, with `e` elements to a
line. -/
def cacheLine (r : Remapper) (start size : Word) (b e i : ℕ) : ℕ := lapSlot r start size b i / e

/-- The elements to a line are a power of two, wherever there are bits for
them. -/
theorem eq_two_pow_of_indexBits (he : getCacheLineIndexBits e ≠ 0) :
    e = 2 ^ getCacheLineIndexBits e := by
  unfold getCacheLineIndexBits at he ⊢
  split at he <;> first | rfl | exact absurd rfl he

theorem mul_self_eq_two_pow (he : getCacheLineIndexBits e ≠ 0) :
    e * e = 2 ^ (2 * getCacheLineIndexBits e) := by
  rw [Nat.two_mul, Nat.pow_add, ← eq_two_pow_of_indexBits he]

/-- **The low bits of the line are those of the index.** -/
theorem remap_div_mod (hb0 : b ≠ 0) (hm : size.toNat = 2 ^ m) (hbm : 2 * b ≤ m) :
    (r.remap index size b).toNat / 2 ^ b % 2 ^ b = index.toNat % 2 ^ b := by
  refine Nat.eq_of_testBit_eq fun j => ?_
  rw [Nat.testBit_mod_two_pow, Nat.testBit_mod_two_pow, Nat.testBit_div_two_pow,
    BitVec.testBit_toNat, BitVec.testBit_toNat, getLsbD_remap_of_size hb0 hm hbm]
  by_cases hj : j < b
  · rw [swapped_mid hbm (by omega) (by omega), Nat.add_sub_cancel]
  · rw [decide_eq_false hj, Bool.false_and, Bool.false_and]

/-- **Positions in sequence are on distinct lines**, as many as a line has
elements. -/
theorem cacheLine_injOn (hb0 : b ≠ 0) (hm : size.toNat = 2 ^ m) (hbm : 2 * b ≤ m) :
    Set.InjOn (cacheLine r start size b (2 ^ b)) (Set.Iio (2 ^ b)) := by
  have hlt : 2 ^ m < 2 ^ 32 := hm ▸ size.isLt
  have hm32 : m < 32 := (Nat.pow_lt_pow_iff_right (by omega)).mp hlt
  have hdvd : 2 ^ b ∣ 2 ^ 32 := Nat.pow_dvd_pow 2 (by omega)
  have hlow : ∀ i, cacheLine r start size b (2 ^ b) i % 2 ^ b = (start.toNat + i) % 2 ^ b := by
    intro i
    rw [cacheLine, lapSlot, remap_div_mod hb0 hm hbm, BitVec.toNat_add, BitVec.toNat_ofNat,
      Nat.add_mod_mod, Nat.mod_mod_of_dvd _ hdvd]
  intro i hi i' hi' heq
  -- the same line has the same low bits, and the offsets are below `2 ^ b`
  have hmod : start.toNat + i ≡ start.toNat + i' [MOD 2 ^ b] := by
    rw [Nat.ModEq, ← hlow, ← hlow, heq]
  have hoffset : i ≡ i' [MOD 2 ^ b] := Nat.ModEq.add_left_cancel' _ hmod
  rwa [Nat.ModEq, Nat.mod_eq_of_lt hi, Nat.mod_eq_of_lt hi'] at hoffset

/-- The threshold is the square of the elements to a line. -/
theorem getIndexShuffleBits_eq (he : getCacheLineIndexBits e ≠ 0) :
    getIndexShuffleBits true size e =
      if size.toNat < e * e then 0 else getCacheLineIndexBits e := by
  have hle := Ring.getCacheLineIndexBits_le e
  have hmin : ((1 : Word) <<< (getCacheLineIndexBits e * 2)).toNat = e * e := by
    rw [Ring.toNat_one_shiftLeft (by omega), mul_self_eq_two_pow he, Nat.mul_comm]
  simp only [getIndexShuffleBits, if_true, BitVec.lt_def, hmin]

/-- **Contention is spread.** On an array large enough for the exchange
positions in sequence are on distinct cache lines, as many as a line has
elements, wherever they start. On a smaller array no bits are exchanged,
and a lap visits every slot once. -/
theorem contention_spread (hsize : roundUpToPowerOf2 SIZE ≠ 0) (he : getCacheLineIndexBits e ≠ 0)
    (r : Remapper) :
    (e * e ≤ (roundUpToPowerOf2 SIZE).toNat → ∀ start : Word,
      Set.InjOn (cacheLine r start (roundUpToPowerOf2 SIZE)
        (getIndexShuffleBits true (roundUpToPowerOf2 SIZE) e) e) (Set.Iio e)) ∧
    ((roundUpToPowerOf2 SIZE).toNat < e * e →
      getIndexShuffleBits true (roundUpToPowerOf2 SIZE) e = 0 ∧ ∀ start : Word,
        Set.BijOn (lapSlot r start (roundUpToPowerOf2 SIZE)
          (getIndexShuffleBits true (roundUpToPowerOf2 SIZE) e))
          (Set.Iio (roundUpToPowerOf2 SIZE).toNat) (Set.Iio (roundUpToPowerOf2 SIZE).toNat)) := by
  obtain ⟨m, hm⟩ := exists_pow_of_roundUp SIZE hsize
  rw [getIndexShuffleBits_eq he]
  constructor
  · intro hle start
    rw [if_neg (Nat.not_lt_of_le hle)]
    have hbm : 2 * getCacheLineIndexBits e ≤ m := by
      rwa [hm, mul_self_eq_two_pow he, Nat.pow_le_pow_iff_right (by omega)] at hle
    have hinj : Set.InjOn (cacheLine r start _ _ _) _ := cacheLine_injOn he hm hbm
    rwa [← eq_two_pow_of_indexBits he] at hinj
  · intro hlt
    rw [if_pos hlt]
    refine ⟨rfl, fun start => ?_⟩
    have hbij : Set.BijOn (lapSlot r start _ 0) _ _ := lapSlot_bijOn hm (Or.inl rfl)
    rwa [Finset.coe_range] at hbij

/-- With `16` elements to a line: `256` slots are enough for the exchange,
for the window that straddles the wrap too, and `128` are not. -/
theorem contention_spread_run :
    Set.InjOn (cacheLine .and (BitVec.allOnes 32) 256 4 16) (Set.Iio 16) ∧
      Set.BijOn (lapSlot .and (BitVec.allOnes 32) 128 0) (Set.Iio 128) (Set.Iio 128) := by
  have hlarge : roundUpToPowerOf2 (200 : Word) ≠ 0 := by decide
  have hsmall : roundUpToPowerOf2 (100 : Word) ≠ 0 := by decide
  exact ⟨(contention_spread (e := 16) hlarge (by decide) .and).1 (by decide) _,
    ((contention_spread (e := 16) hsmall (by decide) .and).2 (by decide)).2 _⟩

end AtomicQueue
