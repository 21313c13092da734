import AtomicQueue.Common.Machine
/-!
# Schedules of a transition system

A schedule says whose turn it is, at every moment. One whose action is not
enabled waits, and its turn changes nothing. Under a fair schedule, where
everyone gets turns forever, a system reaches its goal if each step brings
it nearer and somebody can always take one before (`Fair.exists_goal`).
-/

namespace Machine

variable {σ α : Type*} {M : Machine σ α} {s s' : σ} {a : α} {sched : ℕ → α}

/-- What a turn of `a` does. -/
def turn (M : Machine σ α) (s : σ) (a : α) : σ := (M.step s a).getD s

/-- The state before each moment of the schedule. -/
def follow (M : Machine σ α) (sched : ℕ → α) : ℕ → σ
  | 0 => M.init
  | k + 1 => M.turn (M.follow sched k) (sched k)

/-- Everyone gets turns forever. -/
def Fair (sched : ℕ → α) : Prop := ∀ a k, ∃ k' ≥ k, sched k' = a

theorem turn_of_step (h : M.step s a = some s') : M.turn s a = s' := by
  rw [turn, h, Option.getD_some]

theorem turn_of_none (h : M.step s a = none) : M.turn s a = s := by
  rw [turn, h, Option.getD_none]

/-- What is followed is a run. -/
theorem reachable_follow (M : Machine σ α) (sched : ℕ → α) (k : ℕ) :
    M.Reachable (M.follow sched k) := by
  induction k with
  | zero => exact .init
  | succ k ih =>
    rw [follow]
    cases h : M.step (M.follow sched k) (sched k) with
    | none => rw [turn_of_none h]; exact ih
    | some s' => rw [turn_of_step h]; exact .step ih h trivial

/-- Whoever can take a step is not passed over for ever: it takes that
step, unless someone else takes one before. -/
theorem Fair.exists_step (hfair : Fair sched) {k : ℕ}
    (h : M.step (M.follow sched k) a = some s') :
    ∃ k' ≥ k, M.follow sched k' = M.follow sched k ∧
      (M.step (M.follow sched k) (sched k')).isSome := by
  obtain ⟨j, hj, ha⟩ := hfair a k
  by_contra hno
  have hnone : ∀ k' ≥ k, M.follow sched k' = M.follow sched k →
      M.step (M.follow sched k) (sched k') = none := fun k' hk' hsame =>
    Option.not_isSome_iff_eq_none.mp fun hsome => hno ⟨k', hk', hsame, hsome⟩
  -- nobody steps from `k` on, so the state stays
  have hstay : ∀ d, M.follow sched (k + d) = M.follow sched k := by
    intro d
    induction d with
    | zero => rfl
    | succ d ih =>
      rw [← Nat.add_assoc, follow, ih, turn_of_none (hnone (k + d) (Nat.le_add_right k d) ih)]
  obtain ⟨d, rfl⟩ := Nat.exists_eq_add_of_le hj
  have hnot := hnone (k + d) hj (hstay d)
  rw [ha, h] at hnot
  cases hnot

/-- **Under a fair schedule the goal is reached**, where every step lowers
`rank` and somebody can step until then. -/
theorem Fair.exists_goal (hfair : Fair sched) {goal : σ → Prop} (rank : σ → ℕ)
    (hdec : ∀ s a s', M.Reachable s → M.step s a = some s' → rank s' < rank s)
    (hlive : ∀ s, M.Reachable s → ¬ goal s → ∃ a s', M.step s a = some s') :
    ∃ k, goal (M.follow sched k) := by
  have key : ∀ r k, rank (M.follow sched k) = r → ∃ k', goal (M.follow sched k') := by
    intro r
    induction r using Nat.strongRecOn with
    | ind r ih =>
      intro k hr
      by_cases hgoal : goal (M.follow sched k)
      · exact ⟨k, hgoal⟩
      · obtain ⟨a, s', hs⟩ := hlive _ (M.reachable_follow sched k) hgoal
        obtain ⟨k', -, hsame, hsome⟩ := hfair.exists_step hs
        obtain ⟨s'', hs''⟩ := Option.isSome_iff_exists.mp hsome
        have hnext : M.follow sched (k' + 1) = s'' := by
          rw [follow, hsame, turn_of_step hs'']
        have hlt := hdec _ _ _ (M.reachable_follow sched k) hs''
        exact ih (rank s'') (hr ▸ hlt) (k' + 1) (by rw [hnext])
  exact key _ 0 rfl

end Machine
