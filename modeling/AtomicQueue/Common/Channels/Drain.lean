import AtomicQueue.Common.Channels.Balance
import Mathlib.Data.Fintype.BigOperators
import Mathlib.Data.Multiset.Filter
/-!
# When the channels are drained

A channel holds one content, so of two put there the first has been taken.
With nobody waiting, more writers than readers leave content in the channel
of the last number. So if that number's content is taken, and what was put
after it is, the channels are empty.
-/

/-- **A list is what its members with each key make up.** -/
theorem List.sum_coe_filter {κ α β : Type*} [Fintype κ] [DecidableEq κ] (key : α → κ) (f : α → β)
    (l : List α) :
    ∑ t, (((l.filter (key · = t)).map f : List β) : Multiset β) = (l.map f : List β) := by
  induction l with
  | nil => simp
  | cons a l ih =>
    have hcons : ∀ t, ((((a :: l).filter (key · = t)).map f : List β) : Multiset β) =
        (if key a = t then {f a} else 0) +
          (((l.filter (key · = t)).map f : List β) : Multiset β) := by
      intro t
      rw [List.filter_cons]
      split <;> simp_all
    rw [Finset.sum_congr rfl fun t _ => hcons t, Finset.sum_add_distrib, ih]
    simp

namespace Channels

variable {S α β : Type*} [DecidableEq S] {slot : ℕ → S} {c c' : Channels S α β} {k : ℕ}
variable {ok : Channels S α β → Act α β → Channels S α β → Prop}

/-- **Of two contents of a channel the first was taken.** -/
theorem cleared_of_run (h : (machine α β slot).Run ok c) :
    c.puts.Pairwise fun j k => slot j = slot k → j ∈ c.takes.map Prod.snd := by
  refine h.invariant (I := fun c : Channels S α β =>
    c.puts.Pairwise fun j k => slot j = slot k → j ∈ c.takes.map Prod.snd) .nil ?_
  intro c a c' hr ih hs _
  cases change_of_step hs with
  | push a | pop b => exact ih
  | @put k hk hput hcell =>
    refine List.pairwise_append.mpr ⟨ih, List.pairwise_singleton _ _, fun j hj k' hk' hslot => ?_⟩
    rw [List.mem_singleton.mp hk'] at hslot
    -- the channel was empty
    by_contra hj'
    rw [((inv_of_run hr).cell_iff (slot k) j).mpr ⟨hj, hslot, hj'⟩] at hcell
    cases hcell
  | @take m k hm htook hcell =>
    refine ih.imp fun hjk hslot => ?_
    rw [Channels.take, List.map_append]
    exact List.mem_append_left _ (hjk hslot)

/-! ## The last number -/

/-- Of `n` numbers, all of them taken, those not served are marked. -/
def Waiting (n : ℕ) (P : α → Prop) (c : Channels S α β) : Prop :=
  c.pushes.length = n → ∀ k a, c.pushes[k]? = some a → k ∉ c.puts → P a

/-- **The last of `n` numbers is marked, and so are those served after
it.** -/
structure Ends (n : ℕ) (P : α → Prop) (c : Channels S α β) : Prop where
  last : c.pushes.length = n → ∀ k a, k + 1 = n → c.pushes[k]? = some a → P a
  after : c.puts.Pairwise fun j e => j + 1 = n → ∀ a, c.pushes[e]? = some a → P a

variable {n : ℕ} {P : α → Prop} {b : Act α β}

omit [DecidableEq S] in
theorem ends_empty (hn : 0 < n) : Ends n P (empty : Channels S α β) where
  last h := absurd h hn.ne
  after := .nil

theorem Ends.step (h : Ends n P c) (hI : Inv slot c) (hs : step slot c b = some c')
    (hle : c'.pushes.length ≤ n) (hw : Waiting n P c) (hw' : Waiting n P c') : Ends n P c' := by
  cases change_of_step hs with
  | push a =>
    refine ⟨fun hlen k a' hk ha' => ?_, ?_⟩
    · -- nobody has been served for the new number
      refine hw' hlen k a' ha' fun hput => ?_
      have hlt := hI.puts_lt k hput
      simp only [Channels.push, List.length_append, List.length_singleton] at hlen
      omega
    · refine h.after.imp_of_mem fun {j e} hj he hafter hjn a' ha' => hafter hjn a' ?_
      rw [Channels.push, List.getElem?_append_left (hI.puts_lt e he)] at ha'
      exact ha'
  | pop b => exact ⟨h.last, h.after⟩
  | @put k hk hput hcell =>
    refine ⟨h.last, List.pairwise_append.mpr ⟨h.after, List.pairwise_singleton _ _, ?_⟩⟩
    intro j hj e he hjn a ha
    rw [List.mem_singleton.mp he] at ha
    -- with the last number served all are taken
    have hlt := hI.puts_lt j hj
    have hlen : c.pushes.length = n := le_antisymm hle (by omega)
    exact hw hlen k a ha hput
  | take hm htook hcell => exact ⟨h.last, h.after⟩

/-- **The channels are drained** where nobody waits, all `n` numbers are
taken and the content of all that are marked is. -/
theorem Settled.drained (hset : Settled slot c) (h : (machine α β slot).Run ok c)
    (hends : Ends n P c) (hn : 0 < n) (hlen : c.pushes.length = n)
    (htaken : ∀ k a, c.pushes[k]? = some a → P a → k ∈ c.takes.map Prod.snd) :
    c.pops.length = c.pushes.length ∧ ∀ s, c.cell s = none := by
  have hI := inv_of_run h
  obtain ⟨k, rfl⟩ : ∃ k, n = k + 1 := ⟨n - 1, by omega⟩
  have hget : ∀ j ∈ c.puts, ∃ a, c.pushes[j]? = some a := fun j hj =>
    ⟨_, List.getElem?_eq_getElem (hI.puts_lt j hj)⟩
  have hlast : k ∈ c.takes.map Prod.snd := by
    have hk : k < c.pushes.length := by omega
    exact htaken k _ (List.getElem?_eq_getElem hk)
      (hends.last hlen k _ rfl (List.getElem?_eq_getElem hk))
  have heq : c.pops.length = c.pushes.length := by
    refine le_antisymm hset.pops_le_pushes (not_lt.mp fun hlt => ?_)
    obtain ⟨e, hcell⟩ := Option.isSome_iff_exists.mp
      (hset.isSome_iff.mpr ⟨k, by omega, by omega, rfl⟩)
    obtain ⟨he, hslot, hnot⟩ := (hI.cell_iff (slot k) e).mp hcell
    obtain ⟨⟨m, k⟩, hmem, rfl⟩ := List.mem_map.mp hlast
    obtain ⟨i, hi, rfl⟩ := List.mem_iff_getElem.mp he
    obtain ⟨j, hj, rfl⟩ := List.mem_iff_getElem.mp (hI.source_mem m k hmem)
    -- whichever of the two was put first, the other one is taken
    rcases Nat.lt_trichotomy i j with hij | rfl | hij
    · exact hnot (List.pairwise_iff_getElem.mp (cleared_of_run h) i j hi hj hij hslot)
    · exact hnot hlast
    · obtain ⟨a, ha⟩ := hget _ he
      exact hnot (htaken _ a ha
        (List.pairwise_iff_getElem.mp hends.after j i hj hi hij rfl a ha))
  refine ⟨heq, fun s => Option.not_isSome_iff_eq_none.mp fun hsome => ?_⟩
  obtain ⟨j, hj, hj', -⟩ := hset.isSome_iff.mp hsome
  omega

end Channels
