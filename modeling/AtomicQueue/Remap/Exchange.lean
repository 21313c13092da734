import AtomicQueue.Remap.Swap
import Mathlib.Data.Finset.Card
import Mathlib.Data.Nat.ModEq
import Mathlib.Data.Set.Function
/-!
# The index maps agree, and a lap visits every slot once

Every map exchanges the two lowest groups of bits of the reduced index, so
the compiler flags and `ATOMIC_QUEUE_REMAP` choose between equal maps. On
a power of two the positions of a lap are distinct modulo the size wherever
the lap starts, because the wrap of the counter is a multiple of the size;
so they fall on distinct slots, and there are as many slots as positions.
-/

namespace AtomicQueue

variable {b m : ℕ} {r : Remapper} {index start size : Word}

/-! ## One map, written four times -/

/-- **Bits `[0, b)` and `[b, 2 * b)` exchanged**: from the top the higher
bits, the lowest group, and the group above it. -/
def exchange (b : ℕ) (index : Word) : Word :=
  (index.extractLsb' (2 * b) (32 - 2 * b) ++ index.extractLsb' 0 b ++
    index.extractLsb' b b).setWidth 32

theorem getLsbD_exchange {j : ℕ} (hj : j < 32) :
    (exchange b index).getLsbD j = index.getLsbD (swapBit b j) := by
  unfold exchange swapBit
  simp only [BitVec.getLsbD_setWidth, BitVec.getLsbD_append, BitVec.getLsbD_extractLsb', hj,
    decide_true, Bool.true_and]
  by_cases h1 : j < b
  · simp [h1, Nat.add_comm]
  · by_cases h2 : j < 2 * b
    · simp [h1, h2, show j - b < b by omega]
    · have hadd : 2 * b + (j - b - b) = j := by omega
      simp [h1, h2, hadd, show ¬ j - b < b by omega, show j - b - b < 32 - 2 * b by omega]

/-- With a size: the exchange of the reduced index. -/
theorem remap_eq_exchange (hb0 : b ≠ 0) (hm : size.toNat = 2 ^ m) (hbm : 2 * b ≤ m) :
    r.remap index size b = exchange b (index % size) := by
  refine BitVec.eq_of_getLsbD_eq fun j hj => ?_
  rw [getLsbD_remap_of_size hb0 hm hbm, swapped, getLsbD_exchange hj, getLsbD_umod hm]
  simp only [swapBit_lt_iff hbm]

/-- A map without a size is the one with the size `0`, whose mask keeps all
bits. -/
theorem remapFull_eq_remap (hb0 : b ≠ 0) : r.remapFull index b = r.remap index 0 b := by
  unfold Remapper.remapFull Remapper.remap
  rw [if_neg hb0, if_neg hb0]
  cases r with
  | xor =>
    have hall : (0 - 1 : Word) = BitVec.allOnes 32 := by decide
    change _ = RemapXor.remapFull (index &&& (0 - 1)) b
    rw [hall, BitVec.and_allOnes]
  | and | bmi bmi2 => rfl

/-- Without a size: the exchange of the index. -/
theorem remapFull_eq_exchange (hb0 : b ≠ 0) (hb : 2 * b < 32) :
    r.remapFull index b = exchange b index := by
  refine BitVec.eq_of_getLsbD_eq fun j hj => ?_
  rw [remapFull_eq_remap hb0, getLsbD_remap hb0 hb maskBits_zero (by omega), swapped,
    getLsbD_exchange hj, decide_eq_true hj, Bool.true_and]

/-- **The remappers are interchangeable.** Each of them exchanges the two
lowest groups of `b` bits, of the index reduced where there is a size and
of the whole index where there is none. -/
theorem remappers_agree (hb0 : 1 ≤ b) (hb : 2 * b < 32) :
    (∀ size : Word, (∃ m, size.toNat = 2 ^ m) → 2 ^ (2 * b) ≤ size.toNat →
      ∀ (r : Remapper) (index : Word), r.remap index size b = exchange b (index % size)) ∧
    ∀ (r : Remapper) (index : Word), r.remapFull index b = exchange b index := by
  constructor
  · rintro size ⟨m, hm⟩ hle r index
    rw [hm] at hle
    exact remap_eq_exchange (by omega) hm ((Nat.pow_le_pow_iff_right (by omega)).mp hle)
  · exact fun r index => remapFull_eq_exchange (by omega) hb

/-- Index `3000` on `1024` slots with groups of four bits, by the bit field
instructions. -/
theorem remappers_agree_four :
    Remapper.remap (.bmi true) 3000 1024 4 = exchange 4 (3000 % 1024) ∧
      Remapper.remapFull (.bmi true) 3000 4 = exchange 4 3000 := by
  obtain ⟨hsized, hfull⟩ := remappers_agree (b := 4) (by decide) (by decide)
  exact ⟨hsized 1024 ⟨10, rfl⟩ (by decide) _ _, hfull _ _⟩

/-! ## The slots of a lap -/

/-- The slot of the position `i` after `start`. -/
def lapSlot (r : Remapper) (start size : Word) (b i : ℕ) : ℕ :=
  (r.remap (start + BitVec.ofNat 32 i) size b).toNat

/-- The wrap of the counter is a multiple of a size that is a power of two. -/
theorem toNat_umod_add (hm : size.toNat = 2 ^ m) (i : ℕ) :
    ((start + BitVec.ofNat 32 i) % size).toNat = (start.toNat + i) % size.toNat := by
  have hdvd : size.toNat ∣ 2 ^ 32 := by
    have hlt : 2 ^ m < 2 ^ 32 := hm ▸ size.isLt
    rw [hm]
    exact Nat.pow_dvd_pow 2 ((Nat.pow_lt_pow_iff_right (by omega)).mp hlt).le
  rw [BitVec.toNat_umod, BitVec.toNat_add, BitVec.toNat_ofNat, Nat.mod_mod_of_dvd _ hdvd,
    Nat.add_mod, Nat.mod_mod_of_dvd _ hdvd, ← Nat.add_mod]

/-- **No two positions of a lap share a slot.** -/
theorem lapSlot_injOn (hm : size.toNat = 2 ^ m) (h : Swappable b size) :
    Set.InjOn (lapSlot r start size b) (Finset.range size.toNat) := by
  intro i hi i' hi' heq
  rw [Finset.coe_range, Set.mem_Iio] at hi hi'
  have hword := (remap_eq_iff h).mp (BitVec.eq_of_toNat_eq heq)
  have hmod : start.toNat + i ≡ start.toNat + i' [MOD size.toNat] := by
    rw [Nat.ModEq, ← toNat_umod_add hm, ← toNat_umod_add hm, hword]
  have hoffset : i ≡ i' [MOD size.toNat] := Nat.ModEq.add_left_cancel' _ hmod
  rwa [Nat.ModEq, Nat.mod_eq_of_lt hi, Nat.mod_eq_of_lt hi'] at hoffset

/-- **A lap visits every slot once**, wherever it starts. -/
theorem lapSlot_bijOn (hm : size.toNat = 2 ^ m) (h : Swappable b size) :
    Set.BijOn (lapSlot r start size b) (Finset.range size.toNat) (Finset.range size.toNat) := by
  have hpos : 0 < size.toNat := hm ▸ Nat.two_pow_pos m
  have hmaps : Set.MapsTo (lapSlot r start size b) (Finset.range size.toNat)
      (Finset.range size.toNat) := by
    intro i _
    rw [Finset.coe_range, Set.mem_Iio]
    exact toNat_remap_lt hpos h
  have hinj : Set.InjOn (lapSlot r start size b) (Finset.range size.toNat) := lapSlot_injOn hm h
  exact ⟨hmaps, hinj, Finset.surjOn_of_injOn_of_card_le _ hmaps hinj le_rfl⟩

/-- **Remapping is a bijection on every lap**, and undoes itself up to the
reduction. -/
theorem remap_lap (hpow : ∃ m, size.toNat = 2 ^ m)
    (hle : 2 ^ (2 * b) ≤ size.toNat) (r : Remapper) :
    (∀ start : Word, Set.BijOn (fun i => (r.remap (start + BitVec.ofNat 32 i) size b).toNat)
      (Set.Iio size.toNat) (Set.Iio size.toNat)) ∧
    ∀ index : Word, r.remap (r.remap index size b) size b = index % size := by
  obtain ⟨m, hm⟩ := hpow
  have hswap : Swappable b size := by
    rw [hm] at hle
    exact Or.inr ⟨m, hm, (Nat.pow_le_pow_iff_right (by omega)).mp hle⟩
  refine ⟨fun start => ?_, fun index => remap_remap hswap⟩
  have hbij : Set.BijOn (lapSlot r start size b) _ _ := lapSlot_bijOn hm hswap
  rwa [Finset.coe_range] at hbij

/-- On `1024` slots, for the lap that begins at the last position before the
wrap. -/
theorem remap_lap_wrapped :
    Set.BijOn (fun i => (Remapper.remap .and (BitVec.allOnes 32 + BitVec.ofNat 32 i) 1024 4).toNat)
      (Set.Iio 1024) (Set.Iio 1024) :=
  (remap_lap ⟨10, rfl⟩ (by decide) .and).1 (BitVec.allOnes 32)

end AtomicQueue
