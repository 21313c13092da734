import AtomicQueue.Common.Machine
import Mathlib.Data.List.Nodup
import Mathlib.Logic.Function.Basic
/-!
# A row of one-cell channels behind two counters

Writers take numbers `0, 1, 2, …` from one counter and readers from
another. Number `k` of either kind is sent to the channel `slot k`, and
waits there: a writer until the channel is empty, a reader until it is
full. Nothing says which of several waiting writers, or of several
waiting readers, a channel serves next.

The channels and the map `slot` from numbers to channels are arbitrary.
`Inv` is the bookkeeping that every run keeps: what is in a channel is
what was put there and not yet taken, each put is taken at most once, and
from the channel its number names.
-/

/-- **The state of the channels.** `pushes` and `pops` hold what is known
of each number taken, `puts` the writers served, `takes` the readers
served with the writer each was served by, in the order of service. -/
structure Channels (S α β : Type*) where
  pushes : List α
  pops : List β
  puts : List ℕ
  takes : List (ℕ × ℕ)
  cell : S → Option ℕ

namespace Channels

variable {S α β : Type*} [DecidableEq S] {slot : ℕ → S}
variable {c c' : Channels S α β} {s : S} {k m : ℕ}

/-- No number taken, every channel empty. -/
def empty : Channels S α β := ⟨[], [], [], [], fun _ => none⟩

/-- A writer takes the next number. -/
def push (c : Channels S α β) (a : α) : Channels S α β := { c with pushes := c.pushes ++ [a] }

/-- A reader takes the next number. -/
def pop (c : Channels S α β) (b : β) : Channels S α β := { c with pops := c.pops ++ [b] }

/-- Channel `s` is filled by writer `k`. -/
def put (c : Channels S α β) (s : S) (k : ℕ) : Channels S α β :=
  { c with puts := c.puts ++ [k], cell := Function.update c.cell s (some k) }

/-- Reader `m` empties channel `s` of writer `k`'s content. -/
def take (c : Channels S α β) (s : S) (m k : ℕ) : Channels S α β :=
  { c with takes := c.takes ++ [(m, k)], cell := Function.update c.cell s none }

inductive Act (α β : Type*)
  | push (a : α)
  | pop (b : β)
  | put (k : ℕ)
  | take (m : ℕ)

/-- One step: a number is taken, or a waiting writer finds its channel
empty, or a waiting reader finds its channel full. -/
def step (slot : ℕ → S) (c : Channels S α β) : Act α β → Option (Channels S α β)
  | .push a => some (c.push a)
  | .pop b => some (c.pop b)
  | .put k =>
    if k < c.pushes.length ∧ k ∉ c.puts ∧ c.cell (slot k) = none then some (c.put (slot k) k)
    else none
  | .take m =>
    if m < c.pops.length ∧ m ∉ c.takes.map Prod.fst then
      (c.cell (slot m)).map fun k => c.take (slot m) m k
    else none

/-- The channels as a transition system. -/
def machine (α β : Type*) (slot : ℕ → S) : Machine (Channels S α β) (Act α β) where
  init := empty
  step := step slot

/-- A number that is issued and was not put may be put into a free
channel, -/
theorem step_put (hk : k < c.pushes.length) (hput : k ∉ c.puts) (hcell : c.cell (slot k) = none) :
    step slot c (.put k) = some (c.put (slot k) k) :=
  if_pos ⟨hk, hput, hcell⟩

/-- and who has not taken may take from one that holds a number. -/
theorem step_take (hm : m < c.pops.length) (htook : m ∉ c.takes.map Prod.fst)
    (hcell : c.cell (slot m) = some k) : step slot c (.take m) = some (c.take (slot m) m k) := by
  rw [step, if_pos ⟨hm, htook⟩, hcell, Option.map_some]

/-- Everything a step can do. -/
inductive Change (slot : ℕ → S) (c : Channels S α β) : Act α β → Channels S α β → Prop
  | push (a : α) : Change slot c (.push a) (c.push a)
  | pop (b : β) : Change slot c (.pop b) (c.pop b)
  | put {k : ℕ} (hk : k < c.pushes.length) (hput : k ∉ c.puts) (hcell : c.cell (slot k) = none) :
      Change slot c (.put k) (c.put (slot k) k)
  | take {m k : ℕ} (hm : m < c.pops.length) (htook : m ∉ c.takes.map Prod.fst)
      (hcell : c.cell (slot m) = some k) : Change slot c (.take m) (c.take (slot m) m k)

/-- **Every step is one of these.** -/
theorem change_of_step {a : Act α β} (h : step slot c a = some c') : Change slot c a c' := by
  cases a with
  | push a => rw [step, Option.some.injEq] at h; exact h ▸ .push a
  | pop b => rw [step, Option.some.injEq] at h; exact h ▸ .pop b
  | put k =>
    rw [step, Option.ite_none_right_eq_some, Option.some.injEq] at h
    obtain ⟨⟨hk, hput, hcell⟩, rfl⟩ := h
    exact .put hk hput hcell
  | take m =>
    rw [step, Option.ite_none_right_eq_some, Option.map_eq_some_iff] at h
    obtain ⟨⟨hm, htook⟩, k, hcell, rfl⟩ := h
    exact .take hm htook hcell

/-! ## The bookkeeping -/

/-- **What every run keeps.** -/
structure Inv (slot : ℕ → S) (c : Channels S α β) : Prop where
  puts_lt : ∀ k ∈ c.puts, k < c.pushes.length
  puts_nodup : c.puts.Nodup
  takes_lt : ∀ m k, (m, k) ∈ c.takes → m < c.pops.length
  takes_nodup : (c.takes.map Prod.fst).Nodup
  sources_nodup : (c.takes.map Prod.snd).Nodup
  slot_eq : ∀ m k, (m, k) ∈ c.takes → slot m = slot k
  /-- A channel holds what was put there and not taken. -/
  cell_iff : ∀ s k, c.cell s = some k ↔ k ∈ c.puts ∧ slot k = s ∧ k ∉ c.takes.map Prod.snd
  source_mem : ∀ m k, (m, k) ∈ c.takes → k ∈ c.puts

omit [DecidableEq S] in
theorem inv_empty : Inv slot (empty : Channels S α β) := by
  constructor <;> simp [empty]

omit [DecidableEq S] in
theorem Inv.push (h : Inv slot c) (a : α) : Inv slot (c.push a) where
  puts_lt k hk := by
    have := h.puts_lt k hk
    simp only [Channels.push, List.length_append, List.length_singleton]
    omega
  puts_nodup := h.puts_nodup
  takes_lt := h.takes_lt
  takes_nodup := h.takes_nodup
  sources_nodup := h.sources_nodup
  slot_eq := h.slot_eq
  cell_iff := h.cell_iff
  source_mem := h.source_mem

omit [DecidableEq S] in
theorem Inv.pop (h : Inv slot c) (b : β) : Inv slot (c.pop b) where
  puts_lt := h.puts_lt
  puts_nodup := h.puts_nodup
  takes_lt m k hm := by
    have := h.takes_lt m k hm
    simp only [Channels.pop, List.length_append, List.length_singleton]
    omega
  takes_nodup := h.takes_nodup
  sources_nodup := h.sources_nodup
  slot_eq := h.slot_eq
  cell_iff := h.cell_iff
  source_mem := h.source_mem

/-- A writer served fills an empty channel: nothing is overwritten. -/
theorem Inv.put (h : Inv slot c) (hk : k < c.pushes.length) (hput : k ∉ c.puts)
    (hcell : c.cell (slot k) = none) : Inv slot (c.put (slot k) k) where
  puts_lt j hj := by
    rcases List.mem_append.mp hj with hj | hj
    · exact h.puts_lt j hj
    · rw [List.mem_singleton.mp hj]; exact hk
  puts_nodup := by
    rw [Channels.put, ← List.concat_eq_append]
    exact h.puts_nodup.concat hput
  takes_lt := h.takes_lt
  takes_nodup := h.takes_nodup
  sources_nodup := h.sources_nodup
  slot_eq := h.slot_eq
  cell_iff s j := by
    have hsrc : k ∉ c.takes.map Prod.snd := by
      intro hk'
      obtain ⟨⟨m, k'⟩, hmem, rfl⟩ := List.mem_map.mp hk'
      exact hput (h.source_mem m k' hmem)
    simp only [Channels.put, List.mem_append, List.mem_singleton]
    rcases eq_or_ne s (slot k) with rfl | hs
    · rw [Function.update_self, Option.some.injEq]
      constructor
      · rintro rfl; exact ⟨Or.inr rfl, rfl, hsrc⟩
      · rintro ⟨hj | hj, hslot, hnot⟩
        · -- the channel was empty, so no earlier put is still in it
          have := (h.cell_iff (slot k) j).mpr ⟨hj, hslot, hnot⟩
          rw [hcell] at this
          cases this
        · exact hj.symm
    · rw [Function.update_of_ne hs, h.cell_iff s j]
      constructor
      · rintro ⟨hj, hslot, hnot⟩; exact ⟨Or.inl hj, hslot, hnot⟩
      · rintro ⟨hj | rfl, hslot, hnot⟩
        · exact ⟨hj, hslot, hnot⟩
        · exact absurd hslot.symm hs
  source_mem m j hm := List.mem_append_left _ (h.source_mem m j hm)

/-- A reader served empties the channel, and its source was never taken
before. -/
theorem Inv.take (h : Inv slot c) (hm : m < c.pops.length) (htook : m ∉ c.takes.map Prod.fst)
    (hcell : c.cell (slot m) = some k) : Inv slot (c.take (slot m) m k) := by
  obtain ⟨hkput, hkslot, hksrc⟩ := (h.cell_iff (slot m) k).mp hcell
  refine ⟨h.puts_lt, h.puts_nodup, ?_, ?_, ?_, ?_, fun s j => ?_, ?_⟩
  · intro m' k' hmem
    rcases List.mem_append.mp hmem with hmem | hmem
    · exact h.takes_lt m' k' hmem
    · cases List.mem_singleton.mp hmem; exact hm
  · rw [Channels.take, List.map_append, List.map_singleton, ← List.concat_eq_append]
    exact h.takes_nodup.concat htook
  · rw [Channels.take, List.map_append, List.map_singleton, ← List.concat_eq_append]
    exact h.sources_nodup.concat hksrc
  · intro m' k' hmem
    rcases List.mem_append.mp hmem with hmem | hmem
    · exact h.slot_eq m' k' hmem
    · cases List.mem_singleton.mp hmem; exact hkslot.symm
  · simp only [Channels.take, List.map_append, List.map_cons, List.map_nil, List.mem_append,
      List.mem_singleton, not_or]
    rcases eq_or_ne s (slot m) with rfl | hs
    · rw [Function.update_self]
      constructor
      · intro hnone; cases hnone
      · rintro ⟨hj, hslot, hnot, hne⟩
        -- the channel held one put only, and that one is now taken
        have := (h.cell_iff (slot m) j).mpr ⟨hj, hslot, hnot⟩
        rw [hcell, Option.some.injEq] at this
        exact absurd this.symm hne
    · rw [Function.update_of_ne hs, h.cell_iff s j]
      constructor
      · rintro ⟨hj, hslot, hnot⟩
        refine ⟨hj, hslot, hnot, ?_⟩
        rintro rfl
        exact hs (hslot.symm.trans hkslot)
      · rintro ⟨hj, hslot, hnot, -⟩; exact ⟨hj, hslot, hnot⟩
  · intro m' k' hmem
    rcases List.mem_append.mp hmem with hmem | hmem
    · exact h.source_mem m' k' hmem
    · cases List.mem_singleton.mp hmem; exact hkput

/-- **Every step keeps the invariant.** -/
theorem Inv.step {a : Act α β} (h : Inv slot c) (hs : step slot c a = some c') : Inv slot c' := by
  cases change_of_step hs with
  | push a => exact h.push a
  | pop b => exact h.pop b
  | put hk hput hcell => exact h.put hk hput hcell
  | take hm htook hcell => exact h.take hm htook hcell

/-- **Every run keeps the bookkeeping.** -/
theorem inv_of_run {ok : Channels S α β → Act α β → Channels S α β → Prop}
    (h : (machine α β slot).Run ok c) : Inv slot c :=
  h.invariant inv_empty fun _ _ _ _ hI hs _ => hI.step hs

omit [DecidableEq S] in
/-- No writer's content is taken twice. -/
theorem Inv.taker_unique (h : Inv slot c) {m₁ m₂ : ℕ} (h₁ : (m₁, k) ∈ c.takes)
    (h₂ : (m₂, k) ∈ c.takes) : m₁ = m₂ :=
  congrArg Prod.fst (List.inj_on_of_nodup_map h.sources_nodup h₁ h₂ rfl)

end Channels
