import AtomicQueue.Remap.Swap
import AtomicQueue.Remap.RoundUp
/-!
# The ring of a queue

What a queue class fixes about its slots: their number `size_`, the
number of shuffled index bits and the index map. The sizes and shuffles
of the classes are `arraySize`, `bufferSize` and `getIndexShuffleBits`;
the ring carries the proof that the map sends every counter to a slot, so
a slot is an element of `Fin size_` and no access is out of bounds.
-/

namespace AtomicQueue

/-- **The ring of slots.** -/
structure Ring where
  size_ : Word
  /-- `SHUFFLE_BITS`. -/
  shuffleBits : ℕ
  remapper : Remapper
  size_pos : 0 < size_.toNat
  swappable : Swappable shuffleBits size_

namespace Ring

variable (R : Ring)

/-- The number of slots. -/
abbrev slots : ℕ := R.size_.toNat

/-- `remap(counter, size_, B{})`. -/
def slot (counter : Word) : Fin R.slots :=
  ⟨(R.remapper.remap counter R.size_ R.shuffleBits).toNat, toNat_remap_lt R.size_pos R.swappable⟩

/-- The slot of the `k`-th position claimed on a counter that started at
`0` and wraps. -/
def slotOf (k : ℕ) : Fin R.slots := R.slot (BitVec.ofNat 32 k)

theorem slot_eq_iff {i i' : Word} : R.slot i = R.slot i' ↔ i % R.size_ = i' % R.size_ := by
  rw [← remap_eq_iff (r := R.remapper) R.swappable, slot, slot, Fin.mk.injEq, BitVec.toNat_inj]

/-- A size below half the range is itself as a signed word. -/
theorem asSigned_size {R : Ring} (h : R.slots < 2 ^ 31) : asSigned R.size_ = R.slots :=
  BitVec.toInt_eq_toNat_of_lt (by rw [slots] at h; omega)

/-! ## The rings of the classes -/

/-- `size_` of `AtomicQueue`, `AtomicQueue2` and `AtomicQueueMutexT`. -/
def arraySize (minimizeContention : Bool) (SIZE : Word) : Word :=
  if minimizeContention then roundUpToPowerOf2 SIZE else SIZE

/-- `size_` of `AtomicQueueB` and `AtomicQueueB2`. -/
def bufferSize (size : Word) (shuffleBits : ℕ) : Word :=
  maxValue (roundUpToPowerOf2 size) ((1 : Word) <<< (shuffleBits * 2))

theorem getCacheLineIndexBits_le (e : ℕ) : getCacheLineIndexBits e ≤ 8 := by
  unfold getCacheLineIndexBits
  split <;> omega

/-- A one shifted within the word is a power of two. -/
theorem toNat_one_shiftLeft {n : ℕ} (h : n < 32) : ((1 : Word) <<< n).toNat = 2 ^ n := by
  rw [BitVec.toNat_shiftLeft, Nat.shiftLeft_eq]
  change 1 * 2 ^ n % 2 ^ 32 = 2 ^ n
  rw [Nat.one_mul, Nat.mod_eq_of_lt (Nat.pow_lt_pow_right (by omega) h)]

/-- The threshold below which nothing is shuffled leaves the ring large
enough where something is. -/
theorem swappable_array (minimizeContention : Bool) (SIZE : Word) (e : ℕ)
    (hpos : 0 < (arraySize minimizeContention SIZE).toNat) :
    Swappable (getIndexShuffleBits minimizeContention (arraySize minimizeContention SIZE) e)
      (arraySize minimizeContention SIZE) := by
  cases minimizeContention with
  | false => exact Or.inl rfl
  | true =>
    simp only [getIndexShuffleBits, arraySize, if_true] at hpos ⊢
    split
    · exact Or.inl rfl
    · rename_i hmin
      have hle := getCacheLineIndexBits_le e
      have hne : roundUpToPowerOf2 SIZE ≠ 0 := by
        intro h
        rw [h] at hpos
        exact absurd hpos (by decide)
      obtain ⟨m, hm⟩ := exists_pow_of_roundUp SIZE hne
      refine Or.inr ⟨m, hm, ?_⟩
      rw [BitVec.lt_def, hm, toNat_one_shiftLeft (by omega),
        Nat.pow_lt_pow_iff_right (by omega)] at hmin
      omega

/-- The size of a buffer is rounded up, to at least `2 ^ b` cache lines of
`2 ^ b` elements. -/
theorem toNat_bufferSize (size : Word) {b : ℕ} (hb : b ≤ 8) :
    (bufferSize size b).toNat = max (roundUpToPowerOf2 size).toNat (2 ^ (b * 2)) := by
  have hone := toNat_one_shiftLeft (show b * 2 < 32 by omega)
  unfold bufferSize maxValue
  split <;> rename_i h <;> rw [BitVec.lt_def, hone] at h
  · rw [hone]; omega
  · omega

/-- The minimum size makes every buffer large enough for its shuffle. -/
theorem swappable_buffer (size : Word) {b : ℕ} (hb : b ≤ 8) : Swappable b (bufferSize size b) := by
  by_cases hb0 : b = 0
  · exact Or.inl hb0
  refine Or.inr ?_
  rw [toNat_bufferSize size hb]
  rcases le_total (roundUpToPowerOf2 size).toNat (2 ^ (b * 2)) with hle | hge
  · exact ⟨b * 2, max_eq_right hle, by omega⟩
  · have hpos : 0 < 2 ^ (b * 2) := Nat.two_pow_pos _
    obtain ⟨m, hm⟩ := exists_pow_of_roundUp size (by rintro h; rw [h] at hge; simp at hge)
    rw [hm] at hge ⊢
    exact ⟨m, max_eq_left hge, by have := (Nat.pow_le_pow_iff_right (by omega)).mp hge; omega⟩

/-- The ring of `AtomicQueue`, `AtomicQueue2` and `AtomicQueueMutexT`, with
`e` elements (or states) to a cache line. -/
def ofArray (minimizeContention : Bool) (SIZE : Word) (e : ℕ) (remapper : Remapper)
    (hpos : 0 < (arraySize minimizeContention SIZE).toNat) : Ring where
  size_ := arraySize minimizeContention SIZE
  shuffleBits := getIndexShuffleBits minimizeContention (arraySize minimizeContention SIZE) e
  remapper := remapper
  size_pos := hpos
  swappable := swappable_array minimizeContention SIZE e hpos

/-- The ring of `AtomicQueueB` and `AtomicQueueB2`. -/
def ofBuffer (size : Word) (e : ℕ) (remapper : Remapper) : Ring where
  size_ := bufferSize size (getCacheLineIndexBits e)
  shuffleBits := getCacheLineIndexBits e
  remapper := remapper
  size_pos := by
    rw [toNat_bufferSize size (getCacheLineIndexBits_le e)]
    exact lt_of_lt_of_le (Nat.two_pow_pos _) (le_max_right _ _)
  swappable := swappable_buffer size (getCacheLineIndexBits_le e)

end Ring

end AtomicQueue
