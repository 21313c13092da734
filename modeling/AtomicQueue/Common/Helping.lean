import AtomicQueue.Common.Schedule
/-!
# Who helps a system to its goal

Where steps can be in vain, as those of a loop that polls, no rank falls
with every step. Instead what has been done is counted, up to a bound, and
before the goal there is always an agent that helps: each turn of its own
adds to the count or brings it nearer to doing so, and no turn of another
keeps it from that. Under a schedule in which every agent gets turns
forever the goal is reached.
-/

namespace Machine

variable {σ α ι : Type*} {M : Machine σ α} {sched : ℕ → α}
variable {agent : α → ι} {ok : α → Prop} {goal : σ → Prop}

/-- **Agents that help a system to its goal**, by actions that meet `ok`. -/
structure Helping (M : Machine σ α) (agent : α → ι) (ok : α → Prop) (goal : σ → Prop) where
  /-- What has been done. -/
  count : σ → ℕ
  bound : ℕ
  helps : σ → ι → Prop
  /-- The turns an agent is from adding to the count. -/
  near : σ → ι → ℕ
  count_le : ∀ s, M.Reachable s → count s ≤ bound
  exists_helps : ∀ s, M.Reachable s → ¬ goal s → ∃ t, helps s t
  /-- Each turn adds to the count or leaves whoever helps at least as near. -/
  turn : ∀ s a t, M.Reachable s → ok a → helps s t →
    count s < count (M.turn s a) ∨
      count (M.turn s a) = count s ∧ helps (M.turn s a) t ∧
        near (M.turn s a) t ≤ near s t ∧ (agent a = t → near (M.turn s a) t < near s t)

namespace Helping

variable (H : Helping M agent ok goal) {k : ℕ} {t : ι}

/-- While nothing is added to the count, whoever helps goes on to. -/
theorem waits (hok : ∀ j ≥ k, ok (sched j)) (hhelps : H.helps (M.follow sched k) t) (d : ℕ) :
    (∃ k' ≥ k, H.count (M.follow sched k) < H.count (M.follow sched k')) ∨
      H.count (M.follow sched (k + d)) = H.count (M.follow sched k) ∧
        H.helps (M.follow sched (k + d)) t ∧
          H.near (M.follow sched (k + d)) t ≤ H.near (M.follow sched k) t := by
  induction d with
  | zero => exact Or.inr ⟨rfl, hhelps, Nat.le_refl _⟩
  | succ d ih =>
    rcases ih with hup | ⟨hcount, hhelps', hnear⟩
    · exact Or.inl hup
    · rcases H.turn _ (sched (k + d)) t (M.reachable_follow sched _) (hok _ (Nat.le_add_right k d))
        hhelps' with hlt | ⟨heq, hnext, hle, -⟩
      · exact Or.inl ⟨k + d + 1, by omega, hcount ▸ hlt⟩
      · exact Or.inr ⟨heq.trans hcount, hnext, Nat.le_trans hle hnear⟩

/-- **Whoever helps adds to the count in the end**, or another one does
before. -/
theorem exists_count_lt (hfair : ∀ t k, ∃ k' ≥ k, agent (sched k') = t) :
    ∀ n k t, H.near (M.follow sched k) t = n → (∀ j ≥ k, ok (sched j)) →
      H.helps (M.follow sched k) t →
        ∃ k' ≥ k, H.count (M.follow sched k) < H.count (M.follow sched k') := by
  intro n
  induction n using Nat.strongRecOn with
  | ind n ih =>
    intro k t hn hok hhelps
    -- the next turn of `t`
    obtain ⟨j, hj, hagent⟩ := hfair t k
    obtain ⟨d, rfl⟩ := Nat.exists_eq_add_of_le hj
    rcases H.waits hok hhelps d with hup | ⟨hcount, hhelps', hnear⟩
    · exact hup
    · rcases H.turn _ (sched (k + d)) t (M.reachable_follow sched _) (hok _ hj) hhelps' with
        hlt | ⟨heq, hnext, -, hlt⟩
      · exact ⟨k + d + 1, by omega, hcount ▸ hlt⟩
      · have hless := hlt hagent
        obtain ⟨k', hk', hup⟩ := ih _ (hn ▸ Nat.lt_of_lt_of_le hless hnear) (k + d + 1) t rfl
          (fun i hi => hok i (by omega)) hnext
        refine ⟨k', by omega, ?_⟩
        rwa [follow, heq, hcount] at hup

/-- **The goal is reached**, whatever the schedule does first. -/
theorem exists_goal (H : Helping M agent ok goal) (hfair : ∀ t k, ∃ k' ≥ k, agent (sched k') = t)
    (hok : ∃ k, ∀ j ≥ k, ok (sched j)) :
    ∃ k, goal (M.follow sched k) := by
  have key : ∀ n k, H.bound - H.count (M.follow sched k) = n → (∀ j ≥ k, ok (sched j)) →
      ∃ k', goal (M.follow sched k') := by
    intro n
    induction n using Nat.strongRecOn with
    | ind n ih =>
      intro k hn hok
      by_cases hgoal : goal (M.follow sched k)
      · exact ⟨k, hgoal⟩
      · obtain ⟨t, hhelps⟩ := H.exists_helps _ (M.reachable_follow sched k) hgoal
        obtain ⟨k', hk', hlt⟩ := H.exists_count_lt hfair _ k t rfl hok hhelps
        have hle := H.count_le _ (M.reachable_follow sched k')
        exact ih _ (by omega) k' rfl fun j hj => hok j (by omega)
  obtain ⟨k, hok⟩ := hok
  exact key _ k rfl hok

end Helping

end Machine
