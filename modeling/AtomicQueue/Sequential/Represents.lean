import AtomicQueue.Sequential.Fifo
import AtomicQueue.Concurrent.Step
import AtomicQueue.Remap.Lap
import AtomicQueue.Common.Wrap
/-!
# The list in the ring

Between calls the ring holds a list: `tail_` and `head_` are the words of
two numbers a list length apart, the slots of the positions between them
hold the elements in order, and all others are empty. The numbers
themselves grow without bound; only their words are in memory. The
positions of the list are on distinct slots, so a push to a slot of its own
and a pop at `tail_` disturb no other element.
-/

namespace AtomicQueue

variable {T : Type} [DecidableEq T] {D : Derived T} {R : Ring}
variable {m : Mem D} {c : D.layout.Cell} {l : List T} {x y : T} {p j k : ℕ}

/-- The counters are on both sides of a wrap, and far enough apart for the
next position to be on a slot of one before the wrap. -/
def Ring.Straddles (R : Ring) (head tail : Word) : Prop :=
  head.toNat < R.rest ∧ R.rest ≤ (head - tail).toNat

/-- The words of two numbers at most a lap apart, the positions between on
slots of their own. -/
structure Spans (R : Ring) (head tail : Word) (p n : ℕ) : Prop where
  tail_eq : tail = BitVec.ofNat 32 p
  head_eq : head = BitVec.ofNat 32 (p + n)
  le_slots : n ≤ R.slots
  distinct : ∀ k < n, R.Clear p k

/-- **Memory `m` holds the list `l`** from position `p` on. -/
structure Represents (D : Derived T) (m : Mem D) (p : ℕ) (l : List T) : Prop where
  spans : Spans D.ring m.head_ m.tail_ p l.length
  full : ∀ j x, l[j]? = some x → D.spec.Holds (m.cell (D.ring.slotOf (p + j))) (.free (some x))
  empty : ∀ i, (∀ j < l.length, D.ring.slotOf (p + j) ≠ i) → D.spec.Holds (m.cell i) (.free none)

namespace Spans

variable {head tail : Word} {n : ℕ}

omit [DecidableEq T] in
/-- The counter `tail_` is at the slot of the first element, -/
theorem slot_tail (h : Spans R head tail p n) : R.slot tail = R.slotOf p := by
  rw [h.tail_eq, Ring.slotOf]

omit [DecidableEq T] in
/-- and `head_` at the slot after the last. -/
theorem slot_head (h : Spans R head tail p n) : R.slot head = R.slotOf (p + n) := by
  rw [h.head_eq, Ring.slotOf]

omit [DecidableEq T] in
/-- The difference of the counters is the length of the list, -/
theorem toNat_sub (h : Spans R head tail p n) : (head - tail).toNat = n := by
  have hsize : R.slots < 2 ^ 32 := R.size_.isLt
  have hle := h.le_slots
  rw [h.head_eq, h.tail_eq, Wrap.toNat_sub (by omega) (by omega)]
  omega

omit [DecidableEq T] in
/-- and as a signed word too, where the size allows. -/
theorem asSigned_sub (h : Spans R head tail p n) (hsize : R.slots < 2 ^ 31) :
    asSigned (head - tail) = n := by
  have hle := h.le_slots
  rw [h.head_eq, h.tail_eq, asSigned, Wrap.toInt_sub (by omega) (by omega) (by omega)]
  omega

omit [DecidableEq T] in
/-- The counters span nothing at the start, -/
theorem init (R : Ring) : Spans R 0 0 0 0 where
  tail_eq := rfl
  head_eq := rfl
  le_slots := Nat.zero_le _
  distinct k h := absurd h (Nat.not_lt_zero k)

omit [DecidableEq T] in
/-- one element more after a push, -/
theorem push (h : Spans R head tail p n) (hlt : n < R.slots) (hclear : R.Clear p n) :
    Spans R (head + 1) tail p (n + 1) where
  tail_eq := h.tail_eq
  head_eq := by rw [h.head_eq, ← Wrap.ofNat_succ, Nat.add_assoc]
  le_slots := hlt
  distinct k hk := by
    rcases Nat.lt_or_eq_of_le (Nat.le_of_lt_succ hk) with hk | rfl
    · exact h.distinct k hk
    · exact hclear

omit [DecidableEq T] in
/-- and one less after a pop. -/
theorem pop (h : Spans R head tail p (n + 1)) : Spans R head (tail + 1) (p + 1) n where
  tail_eq := by rw [h.tail_eq, ← Wrap.ofNat_succ]
  head_eq := by rw [h.head_eq]; congr 1; omega
  le_slots := Nat.le_of_succ_le h.le_slots
  distinct k hk j hj := by
    have hne := h.distinct (k + 1) (Nat.succ_lt_succ hk) (j + 1) (Nat.succ_lt_succ hj)
    rwa [← Nat.add_assoc, ← Nat.add_assoc, Nat.add_right_comm p j, Nat.add_right_comm p k] at hne

omit [DecidableEq T] in
/-- The first position is on a slot of its own. -/
theorem slot_tail_ne (h : Spans R head tail p n) (hj : j + 1 < n) :
    R.slotOf (p + 1 + j) ≠ R.slot tail := by
  rw [h.slot_tail, Nat.add_assoc, Nat.add_comm 1 j]
  exact (h.distinct (j + 1) hj 0 (Nat.succ_pos j)).symm

omit [DecidableEq T] in
theorem slot_tail_add (h : Spans R head tail p n) :
    R.slot (tail + BitVec.ofNat 32 j) = R.slotOf (p + j) := by
  rw [h.tail_eq, ← BitVec.ofNat_add, Ring.slotOf]

omit [DecidableEq T] in
/-- Whether the next position is on a slot of its own, by the counters. -/
theorem clear_iff (h : Spans R head tail p n) (hlt : n < R.slots) :
    R.Clear p n ↔ ¬ R.Straddles head tail := by
  rw [Ring.clear_iff hlt, Ring.Straddles, h.toNat_sub, h.head_eq, BitVec.toNat_ofNat]

omit [DecidableEq T] in
theorem not_clear_iff (h : Spans R head tail p n) :
    ¬ R.Clear p n ↔
      ∃ j < (head - tail).toNat, R.slot (tail + BitVec.ofNat 32 j) = R.slot head := by
  simp only [Ring.Clear, h.toNat_sub, h.slot_tail_add, h.slot_head]
  push Not
  rfl

/-! Where the slots hold the elements of the list, so they do after a push
to a slot of its own and after a pop, which change no other slot. -/

section Full

variable {C : Type} (Full : C → T → Prop) {cell cell' : Fin R.slots → C}

omit [DecidableEq T] in
/-- A push leaves the elements in their slots, and the new one after them, -/
theorem full_push (h : Spans R head tail p l.length) (hclear : R.Clear p l.length)
    (hfull : ∀ j z, l[j]? = some z → Full (cell (R.slotOf (p + j))) z)
    (hframe : ∀ i, i ≠ R.slot head → cell' i = cell i) (hnew : Full (cell' (R.slot head)) x)
    (j : ℕ) (z : T) (hz : (l ++ [x])[j]? = some z) : Full (cell' (R.slotOf (p + j))) z := by
  rw [h.slot_head] at hframe hnew
  rcases Nat.lt_or_ge j l.length with hj | hj
  · -- an element of the list is on another slot
    rw [List.getElem?_append_left hj] at hz
    rw [hframe _ (hclear j hj)]
    exact hfull j z hz
  · rw [List.getElem?_append_right hj, List.getElem?_singleton, Option.ite_none_right_eq_some,
      Option.some.injEq] at hz
    obtain ⟨hj', rfl⟩ := hz
    obtain rfl : j = l.length := by omega
    exact hnew

omit [DecidableEq T] in
/-- and a pop leaves those after the first. -/
theorem full_pop (h : Spans R head tail p (l.length + 1))
    (hfull : ∀ j z, (y :: l)[j]? = some z → Full (cell (R.slotOf (p + j))) z)
    (hframe : ∀ i, i ≠ R.slot tail → cell' i = cell i) (j : ℕ) (z : T) (hz : l[j]? = some z) :
    Full (cell' (R.slotOf (p + 1 + j))) z := by
  have hj : j < l.length := (List.getElem?_eq_some_iff.mp hz).1
  rw [hframe _ (h.slot_tail_ne (Nat.succ_lt_succ hj)), Nat.add_assoc, Nat.add_comm 1 j]
  exact hfull (j + 1) z hz

end Full

end Spans

namespace Represents

/-- As constructed the memory holds the empty list. -/
theorem fresh (D : Derived T) : Represents D D.fresh 0 [] where
  spans := .init _
  full j x h := by simp at h
  empty i _ := D.spec.holds_fresh

/-- **There is room at `head_`**, on a slot that is not of the list. -/
theorem free_head (h : Represents D m p l) (hclear : D.ring.Clear p l.length) :
    D.spec.Holds (m.cell (D.ring.slot m.head_)) (.free none) := by
  refine h.empty _ fun j hj => ?_
  rw [h.spans.slot_head]
  exact hclear j hj

/-- On a slot of the list there is none. -/
theorem full_head (h : Represents D m p l) (hclear : ¬ D.ring.Clear p l.length) :
    ∃ x, D.spec.Holds (m.cell (D.ring.slot m.head_)) (.free (some x)) := by
  rw [Ring.Clear] at hclear
  push Not at hclear
  obtain ⟨j, hj, heq⟩ := hclear
  rw [h.spans.slot_head, ← heq]
  exact ⟨l[j], h.full j _ (List.getElem?_eq_getElem hj)⟩

/-- **The first element is at `tail_`.** -/
theorem full_tail (h : Represents D m p (y :: l)) :
    D.spec.Holds (m.cell (D.ring.slot m.tail_)) (.free (some y)) := by
  rw [h.spans.slot_tail]
  exact h.full 0 y rfl

/-- **A push appends.** -/
theorem push (h : Represents D m p l) (hlt : l.length < D.ring.slots)
    (hclear : D.ring.Clear p l.length) (hc : D.spec.Holds c (.free (some x))) :
    Represents D ((m.setHead (m.head_ + 1)).set (D.ring.slot m.head_) c) p (l ++ [x]) where
  spans := by
    rw [List.length_append, List.length_singleton]
    exact h.spans.push hlt hclear
  full := by
    refine h.spans.full_push (fun c x => D.spec.Holds c (.free (some x))) hclear h.full ?_ ?_
    · intro i hne
      rw [Mem.set_cell_of_ne _ hne, Mem.setHead_cell]
    · rwa [Mem.set_cell_self]
  empty i hi := by
    rw [List.length_append, List.length_singleton] at hi
    have hne : i ≠ D.ring.slot m.head_ := by
      rw [h.spans.slot_head]
      exact (hi l.length (by omega)).symm
    rw [Mem.set_cell_of_ne _ hne, Mem.setHead_cell]
    exact h.empty i fun j hj => hi j (by omega)

/-- **A pop takes the first element.** -/
theorem pop (h : Represents D m p (y :: l)) (hc : D.spec.Holds c (.free none)) :
    Represents D ((m.setTail (m.tail_ + 1)).set (D.ring.slot m.tail_) c) (p + 1) l where
  spans := h.spans.pop
  full := by
    refine h.spans.full_pop (fun c x => D.spec.Holds c (.free (some x))) h.full ?_
    intro i hne
    rw [Mem.set_cell_of_ne _ hne, Mem.setTail_cell]
  empty i hi := by
    rcases eq_or_ne i (D.ring.slot m.tail_) with rfl | hne
    · rwa [Mem.set_cell_self]
    · rw [Mem.set_cell_of_ne _ hne, Mem.setTail_cell]
      refine h.empty i fun j hj => ?_
      rcases Nat.eq_zero_or_pos j with rfl | hpos
      · rw [Nat.add_zero, ← h.spans.slot_tail]
        exact hne.symm
      · obtain ⟨k, rfl⟩ := Nat.exists_eq_succ_of_ne_zero hpos.ne'
        have hk := hi k (by simpa using hj)
        rwa [Nat.add_assoc, Nat.add_comm 1 k] at hk

/-- The tests of the code on the counters are tests on the list. -/
theorem full_iff (hrep : Represents D m p l) (hsize : D.ring.slots < 2 ^ 31) :
    asSigned (m.head_ - m.tail_) ≥ asSigned D.ring.size_ ↔ D.ring.slots ≤ l.length := by
  rw [hrep.spans.asSigned_sub hsize, Ring.asSigned_size hsize]
  omega

/-- **`try_pop` refuses exactly on the empty list**, -/
theorem empty_iff (hrep : Represents D m p l) (hsize : D.ring.slots < 2 ^ 31) :
    asSigned (m.head_ - m.tail_) ≤ 0 ↔ l = [] := by
  rw [hrep.spans.asSigned_sub hsize, ← List.length_eq_zero_iff]
  omega

/-- **and `was_size` is its length.** -/
theorem wasSizeOf_eq (hrep : Represents D m p l) (hsize : D.ring.slots < 2 ^ 31) :
    Derived.wasSizeOf m.head_ m.tail_ = l.length := by
  rw [Derived.wasSizeOf, hrep.spans.asSigned_sub hsize]
  omega

end Represents

end AtomicQueue
