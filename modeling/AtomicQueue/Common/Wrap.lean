import Mathlib.Data.Int.ModEq
import Mathlib.Data.Nat.ModEq
import Mathlib.Tactic.Ring
/-!
# Counters kept modulo a power of two

A counter that only grows is kept in a word of `w` bits. Two facts make
the words as good as the counters: close counters with one word are equal
(`Wrap.eq_of_ofNat_eq`), and the difference of two words, read as signed,
is the difference of the counters while these are within half the range
(`Wrap.toInt_sub`).
-/

namespace Wrap

variable {w a b : ℕ}

theorem ofNat_succ (a : ℕ) : BitVec.ofNat w (a + 1) = BitVec.ofNat w a + 1 :=
  BitVec.ofNat_add a 1

/-- **Counters less than a turn apart are told apart by their words.** -/
theorem eq_of_ofNat_eq (h : BitVec.ofNat w a = BitVec.ofNat w b) (hle : a ≤ b)
    (hlt : b < a + 2 ^ w) : a = b := by
  have hmod : a % 2 ^ w = b % 2 ^ w := by
    simpa only [BitVec.toNat_ofNat] using congrArg BitVec.toNat h
  obtain ⟨d, rfl⟩ := Nat.exists_eq_add_of_le hle
  have hd : 0 ≡ d [MOD 2 ^ w] := Nat.ModEq.add_left_cancel' a hmod
  rw [Nat.ModEq, Nat.zero_mod, Nat.mod_eq_of_lt (by omega)] at hd
  omega

/-- **The difference of the words is that of the counters**, while the
counters are within a turn. -/
theorem toNat_sub (hle : b ≤ a) (hlt : a < b + 2 ^ w) :
    (BitVec.ofNat w a - BitVec.ofNat w b).toNat = a - b := by
  obtain ⟨d, rfl⟩ := Nat.exists_eq_add_of_le hle
  have hd : BitVec.ofNat w (b + d) - BitVec.ofNat w b = BitVec.ofNat w d := by
    rw [BitVec.ofNat_add, BitVec.add_comm, BitVec.add_sub_cancel]
  rw [hd, BitVec.toNat_ofNat, Nat.mod_eq_of_lt (by omega)]
  omega

/-- **The signed difference of the words is that of the counters**, while
the counters are within half a turn. -/
theorem toInt_sub (hw : 0 < w) (hlo : -(2 ^ (w - 1) : ℤ) ≤ (a : ℤ) - b)
    (hhi : (a : ℤ) - b < 2 ^ (w - 1)) :
    (BitVec.ofNat w a - BitVec.ofNat w b).toInt = (a : ℤ) - b := by
  obtain ⟨v, rfl⟩ : ∃ v, w = v + 1 := ⟨w - 1, by omega⟩
  rw [BitVec.toInt_sub, BitVec.toInt_ofNat', BitVec.toInt_ofNat', Int.sub_bmod_bmod,
    Int.bmod_sub_bmod]
  simp only [Nat.add_sub_cancel] at hlo hhi
  have hpow : (2 : ℤ) ^ (v + 1) = 2 * 2 ^ v := by rw [pow_succ]; ring
  refine Int.bmod_eq_of_le_mul_two ?_ ?_
  · push_cast
    omega
  · push_cast
    omega

end Wrap
