import AtomicQueue.Model.Ring
import Mathlib.Data.Nat.ModEq
/-!
# The slots of consecutive positions

On a ring whose size is a power of two the size divides `2 ^ 32`, so the
wrap of the counter goes unnoticed and any `size_` consecutive positions
are on distinct slots. On other rings the same holds of the positions
claimed before the first wrap. At a wrap the last lap is cut short: of
`size_` positions only `rest` are left of it, and the positions after the
wrap begin again on the slots of those that far before them.
-/

namespace AtomicQueue

namespace Ring

variable {R : Ring} {k k' n p d : ℕ}

/-- The size is a power of two. -/
def PowerOfTwo (R : Ring) : Prop := ∃ m, R.slots = 2 ^ m

/-- A counter modulo the size, wrapped before. -/
theorem toNat_ofNat_umod : (BitVec.ofNat 32 k % R.size_).toNat = k % 2 ^ 32 % R.slots := by
  rw [BitVec.toNat_umod, BitVec.toNat_ofNat]

theorem slotOf_eq_iff_wrapped :
    R.slotOf k = R.slotOf k' ↔ k % 2 ^ 32 % R.slots = k' % 2 ^ 32 % R.slots := by
  rw [slotOf, slotOf, slot_eq_iff, ← toNat_ofNat_umod, ← toNat_ofNat_umod, BitVec.toNat_inj]

/-- A power of two divides the turn of the counters. -/
theorem PowerOfTwo.dvd (h : R.PowerOfTwo) : R.slots ∣ 2 ^ 32 := by
  obtain ⟨m, hm⟩ := h
  have hlt : 2 ^ m < 2 ^ 32 := hm ▸ R.size_.isLt
  rw [hm]
  exact Nat.pow_dvd_pow 2 (Nat.le_of_lt ((Nat.pow_lt_pow_iff_right (by omega)).mp hlt))

/-- **On a power of two the wrap goes unnoticed.** -/
theorem PowerOfTwo.slotOf_eq_iff (h : R.PowerOfTwo) :
    R.slotOf k = R.slotOf k' ↔ k % R.slots = k' % R.slots := by
  rw [slotOf_eq_iff_wrapped, Nat.mod_mod_of_dvd _ h.dvd, Nat.mod_mod_of_dvd _ h.dvd]

/-- Positions less than a lap apart differ modulo the size. -/
theorem mod_ne_of_lt (hlt : k < k') (hlap : k' < k + n) : k % n ≠ k' % n := by
  intro heq
  have hdvd : n ∣ k' - k := (Nat.modEq_iff_dvd' hlt.le).mp heq
  have := Nat.le_of_dvd (by omega) hdvd
  omega

/-- **A lap visits no slot twice.** -/
theorem PowerOfTwo.slotOf_ne (h : R.PowerOfTwo) (hlt : k < k') (hlap : k' < k + R.slots) :
    R.slotOf k ≠ R.slotOf k' := by
  rw [ne_eq, h.slotOf_eq_iff]
  exact mod_ne_of_lt hlt hlap

/-- Nor does a lap that ends before the counter wraps, whatever the size. -/
theorem slotOf_ne_of_lt (hlt : k < k') (hlap : k' < k + R.slots) (hwrap : k' < 2 ^ 32) :
    R.slotOf k ≠ R.slotOf k' := by
  rw [ne_eq, slotOf_eq_iff_wrapped, Nat.mod_eq_of_lt (hlt.trans hwrap), Nat.mod_eq_of_lt hwrap]
  exact mod_ne_of_lt hlt hlap

/-! ## Where the wrap shows -/

/-- What the wrap of a counter leaves of its last lap. -/
def rest (R : Ring) : ℕ := 2 ^ 32 % R.slots

theorem rest_lt : R.rest < R.slots := Nat.mod_lt _ R.size_pos

theorem PowerOfTwo.rest_eq (h : R.PowerOfTwo) : R.rest = 0 := Nat.mod_eq_zero_of_dvd h.dvd

/-- **The wrap cuts a lap short.** Of two positions less than a lap apart the
later one is on the slot of the earlier one just where the counter has
wrapped between them and what the wrap left of a lap is their distance. -/
theorem slotOf_eq_add_iff (hpos : 0 < d) (hd : d < R.slots) :
    R.slotOf k = R.slotOf (k + d) ↔ (k + d) % 2 ^ 32 < d ∧ R.rest = d := by
  have hsize : R.slots < 2 ^ 32 := R.size_.isLt
  rw [slotOf_eq_iff_wrapped]
  rcases Nat.lt_or_ge (k % 2 ^ 32 + d) (2 ^ 32) with hlt | hge
  · -- no wrap: the words are less than a lap apart
    have hword : (k + d) % 2 ^ 32 = k % 2 ^ 32 + d := by omega
    rw [hword]
    constructor
    · intro heq
      exact absurd heq (mod_ne_of_lt (by omega) (by omega))
    · rintro ⟨h, -⟩
      omega
  · have hword : k % 2 ^ 32 = (k + d) % 2 ^ 32 + (2 ^ 32 - d) := by omega
    have hcarry : (k + d) % 2 ^ 32 < d := by omega
    rw [hword, eq_comm]
    constructor
    · intro heq
      have hdvd : R.slots ∣ 2 ^ 32 - d := by
        have h : 0 ≡ 2 ^ 32 - d [MOD R.slots] := Nat.ModEq.add_left_cancel' _ heq
        exact (Nat.modEq_zero_iff_dvd).mp h.symm
      refine ⟨hcarry, ?_⟩
      obtain ⟨q, hq⟩ := hdvd
      rw [rest, show 2 ^ 32 = d + (2 ^ 32 - d) by omega, hq, Nat.add_mul_mod_self_left]
      exact Nat.mod_eq_of_lt hd
    · rintro ⟨-, hrest⟩
      obtain ⟨q, hq⟩ : R.slots ∣ 2 ^ 32 - d := hrest ▸ Nat.dvd_sub_mod _
      rw [hq, Nat.add_mul_mod_self_left]

/-- The position `n` after `p` is on none of the slots of the positions
between. -/
def Clear (R : Ring) (p n : ℕ) : Prop := ∀ j < n, R.slotOf (p + j) ≠ R.slotOf (p + n)

/-- **Where the next position is on a slot of its own.** -/
theorem clear_iff (hn : n < R.slots) :
    R.Clear p n ↔ ¬ ((p + n) % 2 ^ 32 < R.rest ∧ R.rest ≤ n) := by
  constructor
  · rintro hclear ⟨hcarry, hle⟩
    have hpos : 0 < R.rest := Nat.zero_lt_of_lt hcarry
    refine hclear (n - R.rest) (by omega) ?_
    rw [show p + n = p + (n - R.rest) + R.rest by omega] at hcarry ⊢
    exact (slotOf_eq_add_iff hpos rest_lt).mpr ⟨hcarry, rfl⟩
  · intro hnot j hj heq
    obtain ⟨d, rfl⟩ := Nat.exists_eq_add_of_lt hj
    rw [show p + (j + d + 1) = p + j + (d + 1) by omega] at heq hnot
    obtain ⟨hcarry, hrest⟩ := (slotOf_eq_add_iff (by omega) (by omega)).mp heq
    exact hnot ⟨by omega, by omega⟩

/-- On a power of two the slot after the last element is clear. -/
theorem PowerOfTwo.clear (h : R.PowerOfTwo) (hn : n < R.slots) : R.Clear p n := by
  rw [clear_iff hn, h.rest_eq]
  omega

/-- Before the counter wraps. -/
theorem clear_of_lt (hn : n < R.slots) (hwrap : p + n < 2 ^ 32) : R.Clear p n := by
  rw [clear_iff hn]
  omega

end Ring

end AtomicQueue
