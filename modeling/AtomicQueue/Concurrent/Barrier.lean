import AtomicQueue.Model.Barrier
import AtomicQueue.Remap.RoundUp
import Mathlib.Data.Fintype.Card
/-!
# Nobody passes the barrier early

The counter is the number of threads that have not decremented it, and the
index a thread was given is no less than the counter is since. So the
counter is `0` once every thread has decremented it and not before, and the
indexes of all are all the numbers below that of the threads.
-/

namespace AtomicQueue

namespace Barrier2

variable {ι : Type} [DecidableEq ι] {w w' : World ι} {t : ι}

/-- The index a thread was given. -/
def Pc.index : Pc → Option Word
  | .decrement => none
  | .load caller_idx | .returned caller_idx => some caller_idx

/-- Everything a step can do. -/
inductive Change (w : World ι) (t : ι) : World ι → Prop
  | decrement (hpc : w.pc t = .decrement) :
      Change w t ⟨w.counter - 1, Function.update w.pc t (.load (w.counter - 1))⟩
  | wait {i} (hpc : w.pc t = .load i) (hc : w.counter ≠ 0) :
      Change w t ⟨w.counter, Function.update w.pc t (.load i)⟩
  | pass {i} (hpc : w.pc t = .load i) (hc : w.counter = 0) :
      Change w t ⟨w.counter, Function.update w.pc t (.returned i)⟩

/-- **Every step is one of these.** -/
theorem change_of_step (h : w.step t = some w') : Change w t w' := by
  obtain ⟨⟨c, pc⟩, hadv, rfl⟩ := Option.map_eq_some_iff.mp h
  cases hpc : w.pc t with
  | decrement =>
    rw [hpc] at hadv
    cases hadv
    exact .decrement hpc
  | load i =>
    rw [hpc] at hadv
    cases hadv
    by_cases hc : w.counter = 0
    · rw [if_neg (not_not_intro hc)]
      exact .pass hpc hc
    · rw [if_pos hc]
      exact .wait hpc hc
  | returned i =>
    rw [hpc] at hadv
    cases hadv

variable [Fintype ι]

/-- The threads that have decremented the counter. -/
def arrived (w : World ι) : Finset ι := Finset.univ.filter fun t => w.pc t ≠ .decrement

omit [DecidableEq ι] in
theorem mem_arrived : t ∈ arrived w ↔ w.pc t ≠ .decrement := by
  simp [arrived]

/-- **The counter is the number of threads still to come**, the indexes
given are distinct and no less than it, and nobody has passed unless it is
`0`. -/
structure Counts (w : World ι) : Prop where
  counter_add : w.counter.toNat + (arrived w).card = Fintype.card ι
  index_ge : ∀ t i, (w.pc t).index = some i →
    w.counter.toNat ≤ i.toNat ∧ i.toNat < Fintype.card ι
  index_inj : ∀ t t' i, (w.pc t).index = some i → (w.pc t').index = some i → t = t'
  passed : ∀ t i, w.pc t = .returned i → w.counter = 0

/-- The counter begins with all threads. -/
theorem counts_init (hn : Fintype.card ι < 2 ^ 32) :
    Counts (machine ι (BitVec.ofNat 32 (Fintype.card ι))).init where
  counter_add := by
    have harrived : arrived (machine ι (BitVec.ofNat 32 (Fintype.card ι))).init = ∅ :=
      Finset.filter_false_of_mem fun t _ => not_not_intro rfl
    rw [harrived, Finset.card_empty, Nat.add_zero]
    exact (BitVec.toNat_ofNat _ _).trans (Nat.mod_eq_of_lt hn)
  index_ge t i h := by cases h
  index_inj t t' i h := by cases h
  passed t i h := by cases h

/-- A step that gives no index. -/
theorem Counts.frame (h : Counts w) {pc : Pc} (hpc : w.pc t ≠ .decrement) (hpc' : pc ≠ .decrement)
    (hindex : pc.index = (w.pc t).index) (hpassed : ∀ i, pc = .returned i → w.counter = 0) :
    Counts ⟨w.counter, Function.update w.pc t pc⟩ := by
  have hsame : ∀ t', (Function.update w.pc t pc t').index = (w.pc t').index := by
    intro t'
    rcases eq_or_ne t' t with rfl | hne
    · rw [Function.update_self, hindex]
    · rw [Function.update_of_ne hne]
  have harrived : arrived ⟨w.counter, Function.update w.pc t pc⟩ = arrived w := by
    ext t'
    rw [mem_arrived, mem_arrived]
    rcases eq_or_ne t' t with rfl | hne
    · simp only [Function.update_self]
      exact iff_of_true hpc' hpc
    · simp only [Function.update_of_ne hne]
  refine ⟨by rw [harrived]; exact h.counter_add, fun t' i hi => ?_, fun t₁ t₂ i h₁ h₂ => ?_,
    fun t' i hi => ?_⟩
  · exact h.index_ge t' i (hsame t' ▸ hi)
  · exact h.index_inj t₁ t₂ i (hsame t₁ ▸ h₁) (hsame t₂ ▸ h₂)
  · rcases eq_or_ne t' t with rfl | hne
    · exact hpassed i (by simpa using hi)
    · exact h.passed t' i (by simpa [Function.update_of_ne hne] using hi)

/-- While a thread is still to come the counter does not wrap. -/
theorem Counts.counter_pos (h : Counts w) (hpc : w.pc t = .decrement) : 1 ≤ w.counter.toNat := by
  have hnot : t ∉ arrived w := fun hmem => mem_arrived.mp hmem hpc
  have hle : (insert t (arrived w)).card ≤ Fintype.card ι := Finset.card_le_univ _
  have hcard := Finset.card_insert_of_notMem hnot
  have hadd := h.counter_add
  omega

theorem arrived_arrive {c i : Word} :
    arrived ⟨c, Function.update w.pc t (.load i)⟩ = insert t (arrived w) := by
  ext t'
  rw [Finset.mem_insert, mem_arrived, mem_arrived]
  rcases eq_or_ne t' t with rfl | hne
  · simp
  · simp [hne]

omit [Fintype ι] in
/-- The indexes are those given before and the new one. -/
theorem index_arrive {i i' : Word} {t' : ι}
    (hi : (Function.update w.pc t (.load i) t').index = some i') :
    t' = t ∧ i' = i ∨ t' ≠ t ∧ (w.pc t').index = some i' := by
  rcases eq_or_ne t' t with rfl | hne
  · rw [Function.update_self] at hi
    exact .inl ⟨rfl, (Option.some.inj hi).symm⟩
  · rw [Function.update_of_ne hne] at hi
    exact .inr ⟨hne, hi⟩

/-- A thread arrives. -/
theorem Counts.arrive (h : Counts w) (hpc : w.pc t = .decrement) :
    Counts ⟨w.counter - 1, Function.update w.pc t (.load (w.counter - 1))⟩ := by
  have hpos := h.counter_pos hpc
  have hsub := toNat_sub_one hpos
  have hadd := h.counter_add
  refine ⟨?_, fun t' i hi => ?_, fun t₁ t₂ i h₁ h₂ => ?_, fun t' i hi => ?_⟩
  · have hnot : t ∉ arrived w := fun hmem => mem_arrived.mp hmem hpc
    rw [arrived_arrive, Finset.card_insert_of_notMem hnot]
    dsimp only
    omega
  · dsimp only
    rcases index_arrive hi with ⟨-, rfl⟩ | ⟨-, hold⟩
    · omega
    · have hge := h.index_ge t' i hold
      omega
  · -- the new index is below the ones given before
    rcases index_arrive h₁ with ⟨rfl, rfl⟩ | ⟨-, hold₁⟩
    · rcases index_arrive h₂ with ⟨rfl, -⟩ | ⟨-, hold₂⟩
      · rfl
      · have hge := (h.index_ge t₂ _ hold₂).1
        omega
    · rcases index_arrive h₂ with ⟨rfl, rfl⟩ | ⟨-, hold₂⟩
      · have hge := (h.index_ge t₁ _ hold₁).1
        omega
      · exact h.index_inj t₁ t₂ i hold₁ hold₂
  · dsimp only at hi
    rcases eq_or_ne t' t with rfl | hne
    · rw [Function.update_self] at hi
      cases hi
    · -- nobody has passed while `t` was to come
      rw [Function.update_of_ne hne] at hi
      have hzero := h.passed t' i hi
      rw [hzero] at hpos
      exact absurd hpos (by decide)

/-- **Every step keeps the count.** -/
theorem Counts.change (h : Counts w) (hc : Change w t w') : Counts w' := by
  cases hc with
  | decrement hpc => exact h.arrive hpc
  | wait hpc hc => exact h.frame (by simp [hpc]) (by simp) (by rw [hpc]) (fun i hi => by cases hi)
  | pass hpc hc => exact h.frame (by simp [hpc]) (by simp) (by rw [hpc]; rfl) fun _ _ => hc

/-- The barrier and its threads on any run. -/
theorem counts_of_run (hn : Fintype.card ι < 2 ^ 32)
    (hr : (machine ι (BitVec.ofNat 32 (Fintype.card ι))).Reachable w) : Counts w :=
  Machine.Run.invariant (counts_init hn)
    (fun _ _ _ _ h hs _ => h.change (change_of_step hs)) hr

/-! ## Who passes when -/

omit [DecidableEq ι] in
/-- The counter is `0` exactly when all have arrived. -/
theorem Counts.counter_eq_zero_iff (h : Counts w) :
    w.counter = 0 ↔ ∀ t, w.pc t ≠ .decrement := by
  have hadd := h.counter_add
  have hfull : (arrived w).card = Fintype.card ι ↔ ∀ t, w.pc t ≠ .decrement := by
    rw [Finset.card_eq_iff_eq_univ, Finset.eq_univ_iff_forall]
    exact forall_congr' fun t => mem_arrived
  rw [← hfull, ← BitVec.toNat_inj]
  change w.counter.toNat = 0 ↔ _
  omega

/-- **The barrier**: nobody has passed unless all have arrived; from then on
the counter reads `0`, and whoever loads it passes; and the indexes of all
are the numbers below that of the threads, each given once. -/
structure Holds (w : World ι) : Prop where
  not_early : ∀ t i, w.pc t = .returned i → ∀ t', w.pc t' ≠ .decrement
  reads_zero : (∀ t, w.pc t ≠ .decrement) → ∀ vs w',
    (machine ι (BitVec.ofNat 32 (Fintype.card ι))).Path (fun _ _ _ => True) w vs w' →
      w'.counter = 0
  passes : (∀ t, w.pc t ≠ .decrement) → ∀ t i, w.pc t = .load i →
    w.step t = some ⟨w.counter, Function.update w.pc t (.returned i)⟩
  indexes : ∀ index : ι → Word, (∀ t, w.pc t = .returned (index t)) →
    Set.BijOn (fun t => (index t).toNat) Set.univ (Set.Iio (Fintype.card ι))

omit [Fintype ι] in
/-- Whoever has arrived stays so. -/
theorem Change.arrived (hc : Change w t w') (h : ∀ t, w.pc t ≠ .decrement) (t' : ι) :
    w'.pc t' ≠ .decrement := by
  cases hc <;> rcases eq_or_ne t' t with rfl | hne
  all_goals first
    | (simp only [Function.update_self]; exact Pc.noConfusion)
    | (simp only [Function.update_of_ne hne]; exact h t')

omit [DecidableEq ι] in
/-- When all have returned each index was returned once. -/
theorem Counts.indexes (h : Counts w) {index : ι → Word}
    (hall : ∀ t, w.pc t = .returned (index t)) :
    Set.BijOn (fun t => (index t).toNat) Set.univ (Set.Iio (Fintype.card ι)) := by
  have hindex : ∀ t, (w.pc t).index = some (index t) := fun t => by rw [hall t]; rfl
  have hmaps : Set.MapsTo (fun t => (index t).toNat) (Finset.univ : Finset ι)
      (Finset.range (Fintype.card ι)) := fun t _ => by
    rw [Finset.coe_range]
    exact (h.index_ge t _ (hindex t)).2
  have hinj : Set.InjOn (fun t => (index t).toNat) (Finset.univ : Finset ι) := by
    intro t _ t' _ heq
    have hword : index t = index t' := BitVec.eq_of_toNat_eq heq
    exact h.index_inj t t' _ (hindex t) (hword ▸ hindex t')
  have hsurj := Finset.surjOn_of_injOn_of_card_le _ hmaps hinj (by simp)
  rw [Finset.coe_univ, Finset.coe_range] at hmaps hsurj
  rw [Finset.coe_univ] at hinj
  exact ⟨hmaps, hinj, hsurj⟩

/-- **`Barrier2` releases nobody early**, whoever steps when, and everybody
once the last has arrived. -/
theorem countdown_holds (hn : Fintype.card ι < 2 ^ 32)
    (hr : (machine ι (BitVec.ofNat 32 (Fintype.card ι))).Reachable w) : Holds w := by
  have h := counts_of_run hn hr
  refine ⟨fun t i hi => h.counter_eq_zero_iff.mp (h.passed t i hi), ?_, ?_, fun _ => h.indexes⟩
  · intro hall vs w' hp
    -- whoever has arrived stays so, and the counter counts the others
    have hlater : Counts w' ∧ ∀ t, w'.pc t ≠ .decrement := by
      induction hp with
      | nil => exact ⟨h, hall⟩
      | step _ hs _ ih => exact ⟨ih.1.change (change_of_step hs), (change_of_step hs).arrived ih.2⟩
    exact hlater.1.counter_eq_zero_iff.mpr hlater.2
  · intro hall t i hpc
    have hzero := h.counter_eq_zero_iff.mpr hall
    rw [World.step, hpc, advance, if_neg (not_not_intro hzero)]
    rfl

/-- Three threads: the first polls while the last has not arrived, and all
return. -/
theorem countdown_holds_run :
    ∃ w : World (Fin 3), w.pc 0 = .returned 2 ∧ w.pc 1 = .returned 0 ∧ w.pc 2 = .returned 1 ∧
      Holds w := by
  obtain ⟨w, hr, hw⟩ := (machine (Fin 3) 3).exists_run_of_execWhile (fun _ _ _ => True)
    [0, 2, 0, 1, 2, 0, 1] (fun w => (w.pc 0, w.pc 1, w.pc 2))
    (b := (.returned 2, .returned 0, .returned 1)) (by decide)
  simp only [Prod.mk.injEq] at hw
  exact ⟨w, hw.1, hw.2.1, hw.2.2, countdown_holds (by decide) hr⟩

end Barrier2

end AtomicQueue
