import AtomicQueue.Concurrent.Progress
/-!
# When nothing is in flight

With no operation between its claim and its return, nobody waits for a
slot. The loads of the two counters on each slot then differ by what the
slot holds, and summed over the ring this leaves no choice: the slots
between `tail_` and `head_` are full, one position each, and all others
are empty.
-/

namespace AtomicQueue

variable {T ι : Type} [DecidableEq T] [DecidableEq ι] {D : Derived T}
variable {w : World D ι} {t : ι} {i : Fin D.ring.slots}
variable {ok : World D ι → Act ι T → World D ι → Prop}

/-- No claim is outstanding. -/
def World.Quiescent (w : World D ι) : Prop := ∀ t i, ¬w.InFlight t i

instance [Fintype ι] : Decidable w.Quiescent :=
  inferInstanceAs (Decidable (∀ t i, ¬w.InFlight t i))

omit [DecidableEq ι] in
theorem World.Quiescent.pushStatus (h : w.Quiescent) (t : ι) : (w.pc t).pushStatus = .out := by
  cases hpc : w.pc t with
  | doPush x i p => exact absurd (Or.inl (by rw [hpc]; rfl)) (h t i)
  | _ => rfl

omit [DecidableEq ι] in
theorem World.Quiescent.popStatus (h : w.Quiescent) (t : ι) : (w.pc t).popStatus = .out := by
  cases hpc : w.pc t with
  | doPop i p => exact absurd (Or.inr (by rw [hpc]; rfl)) (h t i)
  | _ => rfl

/-! ## The counters -/

omit [DecidableEq ι] in
/-- **The positions between `tail_` and `head_`** are the numbers between
the two counts of claims. -/
theorem Counted.slot_tail_add (hC : Counted w) (j : ℕ) :
    D.ring.slot (w.mem.tail_ + BitVec.ofNat 32 j) = D.ring.slotOf (w.hist.pops + j) := by
  rw [hC.tail_eq, ← BitVec.ofNat_add]
  rfl

omit [DecidableEq ι] in
theorem Counted.toNat_head_sub_tail (hC : Counted w) (hle : w.hist.pops ≤ w.hist.pushes)
    (hlt : w.hist.pushes < w.hist.pops + 2 ^ 32) :
    (w.mem.head_ - w.mem.tail_).toNat = w.hist.pushes - w.hist.pops := by
  rw [hC.head_eq, hC.tail_eq]
  exact Wrap.toNat_sub hle hlt

omit [DecidableEq ι] in
/-- **`was_size` is the difference of the counts**, while that fits a
signed word. -/
theorem Counted.wasSize_eq (hC : Counted w) (hle : w.hist.pops ≤ w.hist.pushes)
    (hlt : w.hist.pushes < w.hist.pops + 2 ^ 31) :
    D.wasSize w.mem = w.hist.pushes - w.hist.pops := by
  have hdiff : asSigned (w.mem.head_ - w.mem.tail_) = (w.hist.pushes : ℤ) - w.hist.pops := by
    rw [hC.head_eq, hC.tail_eq]
    exact Wrap.toInt_sub (by omega) (by omega) (by omega)
  rw [Derived.wasSize, Derived.wasSizeOf, hdiff]
  omega

/-! ## The slots -/

/-- **On every slot the loads of the counters differ by what it holds.** -/
theorem settled_of_quiescent (hok : Proper D ok) (hr : (machine D ι).Run ok w)
    (h : w.Quiescent) : Channels.Settled D.ring.slotOf w.hist.chan := by
  have hS := sound_of_run hok hr
  refine Channels.settled_of_run (channels_of_run hok hr) (fun i => ?_) (fun i => ?_)
  · exact hS.noPutWaits fun t ht => h t i (Or.inl ht)
  · exact hS.noTakeWaits fun t ht => h t i (Or.inr ht)

omit [DecidableEq ι] in
/-- A quiescent slot is in one of its two free states, as its channel is. -/
theorem Kept.await_of_quiescent (hK : Kept w) (h : w.Quiescent) (i : Fin D.ring.slots) :
    D.layout.awaitsPop (w.mem.cell i) = (w.hist.chan.cell i).isSome ∧
      D.layout.awaitsPush (w.mem.cell i) = !(w.hist.chan.cell i).isSome := by
  obtain ⟨v, hcell, hl⟩ := hK.free_of_unowned (i := i) fun t ht => h t i (inFlight_of_owns ht)
  rw [hl.isSome_cell, D.spec.awaitsPop_eq hcell, D.spec.awaitsPush_eq hcell]
  exact ⟨rfl, (Option.not_isSome v).symm⟩

/-- **Quiescent consistency.** In every state reached with no operation in
flight, after any concurrent run: pushes are ahead of pops by `0` to
`size_` claims; the occupied slots are those of the positions from `tail_`
up to `head_`, which are on distinct slots; every other slot is in the
state a push waits for; and `was_size` is the number of elements pushed
and not popped. -/
theorem quiescent_consistent (hspsc : D.spsc_ = false) (hsize : D.ring.slots < 2 ^ 31)
    (hr : (machine D ι).Reachable w) (h : w.Quiescent) :
    w.hist.pops ≤ w.hist.pushes ∧ w.hist.pushes ≤ w.hist.pops + D.ring.slots ∧
      (∀ i, D.layout.awaitsPop (w.mem.cell i) = true ↔
        ∃ j < (w.mem.head_ - w.mem.tail_).toNat,
          D.ring.slot (w.mem.tail_ + BitVec.ofNat 32 j) = i) ∧
      (∀ j j', j < j' → j' < (w.mem.head_ - w.mem.tail_).toNat →
        D.ring.slot (w.mem.tail_ + BitVec.ofNat 32 j) ≠
          D.ring.slot (w.mem.tail_ + BitVec.ofNat 32 j')) ∧
      (∀ i, D.layout.awaitsPop (w.mem.cell i) = false →
        D.layout.awaitsPush (w.mem.cell i) = true) ∧
      D.wasSize w.mem + w.hist.received.length = w.hist.stored.length := by
  have hok : Proper D fun (_ : World D ι) _ _ => True := proper_of_not_spsc hspsc
  have hS := sound_of_run hok hr
  have hset := settled_of_quiescent hok hr h
  have hle : w.hist.pops ≤ w.hist.pushes := hset.pops_le_pushes
  have hfull : w.hist.pushes ≤ w.hist.pops + D.ring.slots := by
    have hcard : w.hist.pushes - w.hist.pops ≤ Fintype.card (Fin D.ring.slots) := hset.sub_le_card
    rw [Fintype.card_fin] at hcard
    omega
  have hoccupied : ∀ i, (w.hist.chan.cell i).isSome ↔
      ∃ k, w.hist.pops ≤ k ∧ k < w.hist.pushes ∧ D.ring.slotOf k = i := fun i => hset.isSome_iff
  have hdistinct : ∀ k k', w.hist.pops ≤ k → k < k' → k' < w.hist.pushes →
      D.ring.slotOf k ≠ D.ring.slotOf k' := fun k k' hk => hset.injOn hk
  have hdiff := hS.counted.toNat_head_sub_tail hle (by omega)
  refine ⟨hle, hfull, fun i => ?_, fun j j' hjj' hj' => ?_, fun i hempty => ?_, ?_⟩
  · rw [(hS.await_of_quiescent h i).1, hoccupied, hdiff]
    constructor
    · rintro ⟨k, hk, hk', hslot⟩
      refine ⟨k - w.hist.pops, by omega, ?_⟩
      rw [hS.counted.slot_tail_add, ← hslot, Nat.add_sub_cancel' hk]
    · rintro ⟨j, hj, hslot⟩
      rw [hS.counted.slot_tail_add] at hslot
      exact ⟨w.hist.pops + j, by omega, by omega, hslot⟩
  · rw [hS.counted.slot_tail_add, hS.counted.slot_tail_add]
    rw [hdiff] at hj'
    exact hdistinct _ _ (by omega) (by omega) (by omega)
  · rw [(hS.await_of_quiescent h i).1] at hempty
    rw [(hS.await_of_quiescent h i).2, hempty]
    rfl
  · have hpushed := hS.pushTickets.length_done h.pushStatus
    have hpopped := hS.popTickets.length_done h.popStatus
    rw [World.pushTickets, List.length_map] at hpushed
    rw [World.popTickets, List.length_map] at hpopped
    rw [hS.counted.wasSize_eq hle (by omega), hpushed, hpopped]
    exact Nat.sub_add_cancel hle

/-- One pop waited for its push, two elements are left, and every call has
returned. -/
theorem quiescent_consistent_run :
    ∃ w : World (twoSlots false (.atomic 0)) (Fin 2), w.Quiescent ∧
      w.hist.stored.length = 3 ∧ w.hist.received.length = 1 ∧ Derived.wasSize _ w.mem = 2 := by
  obtain ⟨w, hr, hw⟩ := (machine (twoSlots false (.atomic 0)) (Fin 2)).exists_run_of_execWhile
    (fun _ _ _ => True) (Act.run 1 .pop 2 ++ Act.run 0 (.push 5) 2 ++ [.step 1 false, .step 1 false] ++
      Act.run 0 (.push 6) 2 ++ Act.run 0 (.tryPush 7) 4)
    (fun w => (decide w.Quiescent, w.hist.stored.length, w.hist.received.length)) (b := (true, 3, 1))
    (by decide)
  simp only [Prod.mk.injEq, decide_eq_true_eq] at hw
  obtain ⟨hquiet, hstored, hreceived⟩ := hw
  refine ⟨w, hquiet, hstored, hreceived, ?_⟩
  obtain ⟨-, -, -, -, -, hsize⟩ := quiescent_consistent rfl (by decide) hr hquiet
  omega

end AtomicQueue
