import Mathlib.Data.Set.Lattice
import Mathlib.Order.CompletePartialOrder
import Mathlib.Order.Interval.Set.Disjoint
import Mathlib.Tactic.Common
/-!
# Intervals that tile

Nonempty half-open intervals laid end to end, from `a` to `b`. They lie
within these ends, are pairwise disjoint, and only the last ends at `b`.
-/

variable {α : Type*} {a b c : α} {s t : α × α} {blocks : List (α × α)}

/-- **These intervals are all of `[a, b)`**, in order. -/
def Tiles [LT α] : α → List (α × α) → α → Prop
  | a, [], b => a = b
  | a, s :: blocks, b => s.1 = a ∧ s.1 < s.2 ∧ Tiles s.2 blocks b

namespace Tiles

/-- One more interval at the end. -/
theorem concat_iff [LT α] :
    Tiles a (blocks ++ [s]) b ↔ Tiles a blocks s.1 ∧ s.1 < s.2 ∧ s.2 = b := by
  induction blocks generalizing a with
  | nil =>
    constructor
    · rintro ⟨h, hlt, heq⟩
      exact ⟨h.symm, hlt, heq⟩
    · rintro ⟨h, hlt, heq⟩
      exact ⟨h.symm, hlt, heq⟩
  | cons t blocks ih =>
    simp only [List.cons_append, Tiles, ih]
    tauto

variable [Preorder α]

theorem le (h : Tiles a blocks b) : a ≤ b := by
  induction blocks generalizing a with
  | nil => exact h.le
  | cons s blocks ih =>
    obtain ⟨rfl, hlt, hrest⟩ := h
    exact hlt.le.trans (ih hrest)

theorem bounds (h : Tiles a blocks b) (hs : s ∈ blocks) : a ≤ s.1 ∧ s.1 < s.2 ∧ s.2 ≤ b := by
  induction blocks generalizing a with
  | nil => cases hs
  | cons t blocks ih =>
    obtain ⟨rfl, hlt, hrest⟩ := h
    rcases List.mem_cons.mp hs with rfl | hs
    · exact ⟨le_rfl, hlt, hrest.le⟩
    · obtain ⟨hle, hrest'⟩ := ih hrest hs
      exact ⟨hlt.le.trans hle, hrest'⟩

/-- Each ends before the next begins. -/
theorem pairwise (h : Tiles a blocks b) : blocks.Pairwise fun s t => s.2 ≤ t.1 := by
  induction blocks generalizing a with
  | nil => exact .nil
  | cons s blocks ih =>
    obtain ⟨-, -, hrest⟩ := h
    exact .cons (fun t ht => (hrest.bounds ht).1) (ih hrest)

/-- **No two meet.** -/
theorem pairwise_disjoint (h : Tiles a blocks b) :
    blocks.Pairwise fun s t => Disjoint (Set.Ico s.1 s.2) (Set.Ico t.1 t.2) := by
  refine h.pairwise.imp fun {s t} hle => Set.disjoint_left.mpr fun x hs ht => ?_
  exact (hs.2.trans_le (hle.trans ht.1)).false

/-- Each lies in `[a, b)`. -/
theorem subset (h : Tiles a blocks b) (hs : s ∈ blocks) : Set.Ico s.1 s.2 ⊆ Set.Ico a b := by
  obtain ⟨hle, -, hle'⟩ := h.bounds hs
  exact Set.Ico_subset_Ico hle hle'

/-- **What ends at `b` is the last.** -/
theorem eq_last (h : Tiles a (blocks ++ [t]) b) (hs : s ∈ blocks ++ [t]) (heq : s.2 = b) :
    s = t := by
  obtain ⟨hinit, hlt, rfl⟩ := concat_iff.mp h
  rcases List.mem_append.mp hs with hs | hs
  · -- an earlier one ends no later than the last begins
    have hle := (hinit.bounds hs).2.2
    exact absurd (heq ▸ hle) hlt.not_ge
  · exact List.mem_singleton.mp hs

/-- The last is none of the others. -/
theorem last_notMem (h : Tiles a (blocks ++ [t]) b) : t ∉ blocks := by
  obtain ⟨hinit, hlt, -⟩ := concat_iff.mp h
  exact fun hmem => hlt.not_ge (hinit.bounds hmem).2.2

end Tiles
