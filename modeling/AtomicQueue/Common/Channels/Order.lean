import AtomicQueue.Common.Channels.Basic
/-!
# Channels in order

Where no writer and no reader is served before an earlier number waiting
for the same channel, every reader gets what the writer of its own number
put: the row of channels is one queue, whatever the map from numbers to
channels.
-/

namespace Channels

variable {S α β : Type*} [DecidableEq S] {slot : ℕ → S}
variable {c c' : Channels S α β} {k m : ℕ}

/-- **Nobody is overtaken** by the step: whoever is served, all earlier
numbers of its kind on its channel were served before. -/
def InTurn (slot : ℕ → S) (c : Channels S α β) : Act α β → Prop
  | .put k => ∀ k' < k, slot k' = slot k → k' ∈ c.puts
  | .take m => ∀ m' < m, slot m' = slot m → m' ∈ c.takes.map Prod.fst
  | _ => True

/-- What runs without overtaking keep: service in the order of the
numbers on each channel, and each reader served by its own number. -/
structure Ordered (slot : ℕ → S) (c : Channels S α β) : Prop where
  puts_closed : ∀ k ∈ c.puts, ∀ k' < k, slot k' = slot k → k' ∈ c.puts
  source_eq : ∀ m k, (m, k) ∈ c.takes → k = m

omit [DecidableEq S] in
theorem ordered_empty : Ordered slot (empty : Channels S α β) := by
  constructor <;> simp [empty]

omit [DecidableEq S] in
/-- **A reader served in turn gets its own number.** An earlier content
would have had an earlier reader, who was served before; a later one
would have been put after this number's, which is still in the channel. -/
theorem Ordered.source_of_inTurn (h : Ordered slot c) (hI : Inv slot c)
    (htook : m ∉ c.takes.map Prod.fst) (hcell : c.cell (slot m) = some k)
    (hturn : InTurn slot c (.take m : Act α β)) : k = m := by
  obtain ⟨hkput, hkslot, hksrc⟩ := (hI.cell_iff (slot m) k).mp hcell
  rcases Nat.lt_trichotomy k m with hlt | heq | hgt
  · obtain ⟨⟨m', k'⟩, hmem, rfl⟩ := List.mem_map.mp (hturn k hlt hkslot)
    have hk' : k' = m' := h.source_eq m' k' hmem
    exact absurd (List.mem_map.mpr ⟨(m', k'), hmem, hk'⟩) hksrc
  · exact heq
  · have hmput : m ∈ c.puts := h.puts_closed k hkput m hgt hkslot.symm
    have hmsrc : m ∉ c.takes.map Prod.snd := by
      intro hm
      obtain ⟨⟨m', k'⟩, hmem, rfl⟩ := List.mem_map.mp hm
      have hk' : k' = m' := h.source_eq m' k' hmem
      exact htook (List.mem_map.mpr ⟨(m', k'), hmem, hk'.symm⟩)
    have := (hI.cell_iff (slot m) m).mpr ⟨hmput, rfl, hmsrc⟩
    rw [hcell, Option.some.injEq] at this
    exact this

/-- **Every step that overtakes nobody keeps the order.** -/
theorem Ordered.step {a : Act α β} (h : Ordered slot c) (hI : Inv slot c)
    (hs : step slot c a = some c') (hturn : InTurn slot c a) : Ordered slot c' := by
  cases change_of_step hs with
  | push a => exact ⟨h.puts_closed, h.source_eq⟩
  | pop b => exact ⟨h.puts_closed, h.source_eq⟩
  | @put k hk hput hcell =>
    refine ⟨fun j hj k' hlt hslot => ?_, h.source_eq⟩
    rcases List.mem_append.mp hj with hj | hj
    · exact List.mem_append_left _ (h.puts_closed j hj k' hlt hslot)
    · rw [List.mem_singleton.mp hj] at hlt hslot
      exact List.mem_append_left _ (hturn k' hlt hslot)
  | @take m k hm htook hcell =>
    refine ⟨h.puts_closed, fun m' k' hmem => ?_⟩
    rcases List.mem_append.mp hmem with hmem | hmem
    · exact h.source_eq m' k' hmem
    · cases List.mem_singleton.mp hmem
      exact h.source_of_inTurn hI htook hcell hturn

/-- **Every run without overtaking is in order.** -/
theorem ordered_of_run (h : (machine α β slot).Run (fun c a _ => InTurn slot c a) c) :
    Ordered slot c :=
  h.invariant ordered_empty fun _ _ _ hr hO hs hturn => hO.step (inv_of_run hr) hs hturn

end Channels
