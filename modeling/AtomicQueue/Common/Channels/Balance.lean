import AtomicQueue.Common.Channels.Basic
import Mathlib.Data.Nat.Count
import Mathlib.Data.Finset.Card
import Mathlib.Data.Fintype.Card
import Mathlib.Order.Interval.Finset.Nat
/-!
# The balance of a channel

What was put on a channel, less what was taken from it, is what it holds:
nothing or one content. Numbers still waiting make the numbers taken
exceed the service given, so the two counters and the contents are tied
on each channel separately (`Inv.balance`, `Inv.puts_le`, `Inv.takes_le`),
and summed over the channels where nobody waits (`Settled`).
-/

namespace Channels

variable {S α β : Type*} [DecidableEq S] {slot : ℕ → S}
variable {c c' : Channels S α β} {s : S} {k m n : ℕ}

/-- How many of the first `n` numbers are sent to channel `s`. -/
def load (slot : ℕ → S) (n : ℕ) (s : S) : ℕ := Nat.count (fun k => slot k = s) n

/-- The contents of a channel, counted. -/
def held (c : Channels S α β) (s : S) : ℕ := if (c.cell s).isSome then 1 else 0

/-- The writers served on a channel. -/
def putsOn (slot : ℕ → S) (c : Channels S α β) (s : S) : ℕ := c.puts.countP (slot · = s)

/-- The readers served on a channel. -/
def takesOn (slot : ℕ → S) (c : Channels S α β) (s : S) : ℕ :=
  (c.takes.map Prod.fst).countP (slot · = s)

omit [DecidableEq S] in
/-- A channel holds one number at most. -/
theorem held_le_one : c.held s ≤ 1 := by
  unfold held
  split <;> omega

theorem load_eq_countP : load slot n s = (List.range n).countP (slot · = s) := by
  induction n with
  | zero => rfl
  | succ n ih =>
    have hload : load slot (n + 1) s = load slot n s + if slot n = s then 1 else 0 :=
      Nat.count_succ _ n
    rw [hload, ih, List.range_succ, List.countP_append, List.countP_singleton]
    simp only [decide_eq_true_eq]

/-- The load only grows, -/
theorem load_mono {a b : ℕ} (h : a ≤ b) : load slot a s ≤ load slot b s :=
  Nat.count_monotone _ h

/-- and does so with every number on the channel. -/
theorem load_lt {a b : ℕ} (h : a < b) (ha : slot a = s) : load slot a s < load slot b s :=
  Nat.count_strict_mono ha h

/-- Where the first `a` numbers on a channel are below `b`, they are among
the first `b`. -/
theorem load_le_of_lt {a b : ℕ} (h : ∀ k < a, slot k = s → k < b) :
    load slot a s ≤ load slot b s := by
  by_contra hgt
  obtain ⟨k, hk, hks⟩ := Nat.exists_of_count_lt_count (p := fun k => slot k = s)
    (by simp only [load] at hgt; omega : Nat.count _ b < Nat.count _ a)
  have := h k hk.2 hks
  have := hk.1
  omega

/-- **A window of numbers on distinct channels** adds at most one to the
load of a channel. -/
theorem load_le_succ {a b : ℕ}
    (hinj : ∀ k k', a ≤ k → k < k' → k' < b → slot k ≠ slot k') :
    load slot b s ≤ load slot a s + 1 := by
  by_contra hgt
  obtain ⟨j, hj, hjs⟩ := Nat.exists_of_count_lt_count (p := fun k => slot k = s)
    (by simp only [load] at hgt; omega : Nat.count _ a < Nat.count _ b)
  have hsucc : load slot (j + 1) s = load slot j s + 1 := by
    rw [load, Nat.count_succ, if_pos hjs, load]
  have hlt : j < b := hj.2
  -- either side of `j` there is another number of the channel in the window
  rcases Nat.lt_or_ge (load slot a s) (load slot j s) with h | h
  · obtain ⟨i, hi, his⟩ := Nat.exists_of_count_lt_count h
    exact hinj i j hi.1 hi.2 hlt (his.trans hjs.symm)
  · obtain ⟨i, hi, his⟩ := Nat.exists_of_count_lt_count
      (by simp only [load] at hgt hsucc h ⊢; omega :
        Nat.count (fun k => slot k = s) (j + 1) < Nat.count (fun k => slot k = s) b)
    exact hinj j i hj.1 hi.1 hi.2 (hjs.trans his.symm)

/-! ## On one channel -/

/-- A put fills the channel, -/
@[simp] theorem held_put (t : S) : (c.put t k).held s = if s = t then 1 else c.held s := by
  unfold held put
  rcases eq_or_ne s t with rfl | h
  · simp
  · simp [h]

/-- and a take empties it. -/
@[simp] theorem held_take (t : S) : (c.take t m k).held s = if s = t then 0 else c.held s := by
  unfold held take
  rcases eq_or_ne s t with rfl | h
  · simp
  · simp [h]

/-- A put is one more on its channel, -/
@[simp] theorem putsOn_put (t : S) :
    putsOn slot (c.put t k) s = putsOn slot c s + if slot k = s then 1 else 0 := by
  simp [putsOn, put, List.countP_append, List.countP_singleton]

/-- and so is a take. -/
@[simp] theorem takesOn_take (t : S) :
    takesOn slot (c.take t m k) s = takesOn slot c s + if slot m = s then 1 else 0 := by
  simp [takesOn, take, List.countP_append, List.countP_singleton]

/-- **Put, less taken, is held.** -/
theorem balance_of_run {ok : Channels S α β → Act α β → Channels S α β → Prop}
    (h : (machine α β slot).Run ok c) (s : S) : putsOn slot c s = takesOn slot c s + c.held s := by
  refine h.invariant (I := fun c => putsOn slot c s = takesOn slot c s + c.held s) rfl ?_
  intro c a c' _ ih hs _
  cases change_of_step hs with
  | push a => exact ih
  | pop b => exact ih
  | @put k hk hput hcell =>
    have htakes : takesOn slot (c.put (slot k) k) s = takesOn slot c s := rfl
    rw [putsOn_put, held_put, htakes, ih]
    rcases eq_or_ne s (slot k) with rfl | hs
    · have : c.held (slot k) = 0 := by simp [held, hcell]
      simp [this]
    · simp [hs, hs.symm]
  | @take m k hm htook hcell =>
    have hputs : putsOn slot (c.take (slot m) m k) s = putsOn slot c s := rfl
    rw [takesOn_take, held_take, hputs, ih]
    rcases eq_or_ne s (slot m) with rfl | hs
    · have : c.held (slot m) = 1 := by simp [held, hcell]
      simp [this]
    · simp [hs, hs.symm]

/-- A list of distinct numbers below `n` has no more on a channel than the
first `n` have. -/
theorem countP_le_load {l : List ℕ} (hnd : l.Nodup) (hlt : ∀ k ∈ l, k < n) :
    l.countP (slot · = s) ≤ load slot n s := by
  rw [load_eq_countP]
  exact (List.subperm_of_subset hnd fun k hk => List.mem_range.mpr (hlt k hk)).countP_le _

/-- One number of the channel missing from the list makes it fewer. -/
theorem countP_lt_load {l : List ℕ} (hnd : l.Nodup) (hlt : ∀ k ∈ l, k < n) (hk : k < n)
    (hnot : k ∉ l) (hs : slot k = s) : l.countP (slot · = s) < load slot n s := by
  have h : (k :: l).countP (slot · = s) ≤ load slot n s := by
    refine countP_le_load (List.nodup_cons.mpr ⟨hnot, hnd⟩) fun j hj => ?_
    rcases List.mem_cons.mp hj with rfl | hj
    · exact hk
    · exact hlt j hj
  rw [List.countP_cons_of_pos (by simp [hs])] at h
  omega

/-- None of the channel missing makes it as many. -/
theorem countP_eq_load {l : List ℕ} (hnd : l.Nodup) (hlt : ∀ k ∈ l, k < n)
    (hall : ∀ k < n, slot k = s → k ∈ l) : l.countP (slot · = s) = load slot n s := by
  refine le_antisymm (countP_le_load hnd hlt) ?_
  rw [load_eq_countP, List.countP_eq_length_filter, List.countP_eq_length_filter]
  refine (List.subperm_of_subset (List.nodup_range.filter _) fun k hk => ?_).length_le
  obtain ⟨hk, hs⟩ := List.mem_filter.mp hk
  exact List.mem_filter.mpr ⟨hall k (List.mem_range.mp hk) (by simpa using hs), hs⟩

/-- One of the channel missing makes it one fewer at most. -/
theorem load_le_countP_succ {l : List ℕ} {j : ℕ}
    (hall : ∀ k < n, slot k = s → k ∈ l ∨ k = j) : load slot n s ≤ l.countP (slot · = s) + 1 := by
  have hsub : ((List.range n).filter (slot · = s)).Subperm ((j :: l).filter (slot · = s)) := by
    refine List.subperm_of_subset (List.nodup_range.filter _) fun k hk => ?_
    obtain ⟨hk, hks⟩ := List.mem_filter.mp hk
    refine List.mem_filter.mpr ⟨?_, hks⟩
    rcases hall k (List.mem_range.mp hk) (by simpa using hks) with hmem | rfl
    · exact List.mem_cons_of_mem _ hmem
    · exact List.mem_cons_self
  have hle := hsub.length_le
  rw [← List.countP_eq_length_filter, ← List.countP_eq_length_filter, ← load_eq_countP,
    List.countP_cons] at hle
  split at hle <;> omega

/-- No more was put than was issued, -/
theorem Inv.putsOn_le (h : Inv slot c) : putsOn slot c s ≤ load slot c.pushes.length s :=
  countP_le_load h.puts_nodup h.puts_lt

omit [DecidableEq S] in
theorem Inv.takes_fst_lt (h : Inv slot c) : ∀ m ∈ c.takes.map Prod.fst, m < c.pops.length := by
  intro m hm
  obtain ⟨⟨m, k⟩, hmem, rfl⟩ := List.mem_map.mp hm
  exact h.takes_lt m k hmem

/-- and no more taken. -/
theorem Inv.takesOn_le (h : Inv slot c) : takesOn slot c s ≤ load slot c.pops.length s :=
  countP_le_load h.takes_nodup h.takes_fst_lt

/-- No writer waits for channel `s`. -/
def NoPutWaits (slot : ℕ → S) (c : Channels S α β) (s : S) : Prop :=
  ∀ k < c.pushes.length, slot k = s → k ∈ c.puts

/-- No reader waits for channel `s`. -/
def NoTakeWaits (slot : ℕ → S) (c : Channels S α β) (s : S) : Prop :=
  ∀ m < c.pops.length, slot m = s → m ∈ c.takes.map Prod.fst

/-- Where no put waits all were put, -/
theorem Inv.putsOn_eq (h : Inv slot c) (hw : NoPutWaits slot c s) :
    putsOn slot c s = load slot c.pushes.length s :=
  countP_eq_load h.puts_nodup h.puts_lt hw

/-- and where no take waits all have taken. -/
theorem Inv.takesOn_eq (h : Inv slot c) (hw : NoTakeWaits slot c s) :
    takesOn slot c s = load slot c.pops.length s :=
  countP_eq_load h.takes_nodup h.takes_fst_lt hw

/-! ## On one channel, somebody waiting in vain -/

/-- **A reader waits for an empty channel that no writer waits for**: more
numbers were taken by readers than by writers. -/
theorem pushes_lt_pops_of_waits {ok : Channels S α β → Act α β → Channels S α β → Prop}
    (h : (machine α β slot).Run ok c) (hput : NoPutWaits slot c s) (hcell : c.cell s = none)
    (hm : m < c.pops.length) (hs : slot m = s) (hnot : m ∉ c.takes.map Prod.fst) :
    c.pushes.length < c.pops.length := by
  have hI := inv_of_run h
  have hbal := balance_of_run h s
  have hheld : c.held s = 0 := by simp [held, hcell]
  have hputs := hI.putsOn_eq hput
  have htakes : takesOn slot c s < load slot c.pops.length s :=
    countP_lt_load hI.takes_nodup hI.takes_fst_lt hm hnot hs
  by_contra hle
  have hload : load slot c.pops.length s ≤ load slot c.pushes.length s := load_mono (by omega)
  omega

/-- **A writer waits for a full channel that no reader waits for**: the
writers are two numbers of the channel ahead. -/
theorem load_of_waits {ok : Channels S α β → Act α β → Channels S α β → Prop}
    (h : (machine α β slot).Run ok c) (htake : NoTakeWaits slot c s) (hcell : c.cell s ≠ none)
    (hk : k < c.pushes.length) (hs : slot k = s) (hnot : k ∉ c.puts) :
    load slot c.pops.length s + 2 ≤ load slot c.pushes.length s := by
  have hI := inv_of_run h
  have hbal := balance_of_run h s
  have hheld : c.held s = 1 := by simp [held, Option.isSome_iff_ne_none, hcell]
  have htakes := hI.takesOn_eq htake
  have hputs : putsOn slot c s < load slot c.pushes.length s :=
    countP_lt_load hI.puts_nodup hI.puts_lt hk hnot hs
  omega

/-! ## On one channel, one waiting -/

section

variable {ok : Channels S α β → Act α β → Channels S α β → Prop}

/-- **All readers but one served, and the channel full**: then all writers
are served, where there are no more of them. -/
theorem noPutWaits_of_full (h : (machine α β slot).Run ok c) {j : ℕ}
    (hle : load slot c.pushes.length s ≤ load slot c.pops.length s)
    (htake : ∀ m < c.pops.length, slot m = s → m ∈ c.takes.map Prod.fst ∨ m = j)
    (hcell : c.cell s ≠ none) : NoPutWaits slot c s := by
  have hI := inv_of_run h
  have hbal := balance_of_run h s
  have hheld : c.held s = 1 := by simp [held, Option.isSome_iff_ne_none, hcell]
  have htakes : load slot c.pops.length s ≤ takesOn slot c s + 1 := load_le_countP_succ htake
  intro k hk hs
  by_contra hput
  have hputs : putsOn slot c s < load slot c.pushes.length s :=
    countP_lt_load hI.puts_nodup hI.puts_lt hk hput hs
  omega

/-- **All readers served**: then all writers are, where there are no more
of them, and the channel is empty. -/
theorem noPutWaits_of_served (h : (machine α β slot).Run ok c)
    (hle : load slot c.pushes.length s ≤ load slot c.pops.length s)
    (htake : NoTakeWaits slot c s) : NoPutWaits slot c s ∧ c.cell s = none := by
  have hI := inv_of_run h
  have hbal := balance_of_run h s
  have htakes := hI.takesOn_eq htake
  have hputs := hI.putsOn_le (s := s)
  constructor
  · intro k hk hs
    by_contra hput
    have hlt : putsOn slot c s < load slot c.pushes.length s :=
      countP_lt_load hI.puts_nodup hI.puts_lt hk hput hs
    omega
  · by_contra hcell
    have hheld : c.held s = 1 := by simp [held, Option.isSome_iff_ne_none, hcell]
    omega

/-- **All writers but one served, and the channel empty**: then all readers
are served, where there is one fewer of them. -/
theorem noTakeWaits_of_empty (h : (machine α β slot).Run ok c) {j : ℕ}
    (hlt : load slot c.pops.length s < load slot c.pushes.length s)
    (hput : ∀ k < c.pushes.length, slot k = s → k ∈ c.puts ∨ k = j)
    (hcell : c.cell s = none) : NoTakeWaits slot c s := by
  have hI := inv_of_run h
  have hbal := balance_of_run h s
  have hheld : c.held s = 0 := by simp [held, hcell]
  have hputs : load slot c.pushes.length s ≤ putsOn slot c s + 1 := load_le_countP_succ hput
  intro m hm hs
  by_contra htook
  have htakes : takesOn slot c s < load slot c.pops.length s :=
    countP_lt_load hI.takes_nodup hI.takes_fst_lt hm htook hs
  omega

/-- **All writers served**: then all readers are, where there is one fewer
of them, and the channel is full. -/
theorem noTakeWaits_of_served (h : (machine α β slot).Run ok c)
    (hlt : load slot c.pops.length s < load slot c.pushes.length s)
    (hput : NoPutWaits slot c s) : NoTakeWaits slot c s ∧ c.cell s ≠ none := by
  have hI := inv_of_run h
  have hbal := balance_of_run h s
  have hone := held_le_one (c := c) (s := s)
  have hputs := hI.putsOn_eq hput
  have htakes := hI.takesOn_le (s := s)
  constructor
  · intro m hm hs
    by_contra htook
    have : takesOn slot c s < load slot c.pops.length s :=
      countP_lt_load hI.takes_nodup hI.takes_fst_lt hm htook hs
    omega
  · intro hcell
    have hheld : c.held s = 0 := by simp [held, hcell]
    omega

end

/-! ## On all channels, nobody waiting -/

/-- **The loads differ by the contents**, on every channel. It is what
the balance says where nobody waits. -/
def Settled (slot : ℕ → S) (c : Channels S α β) : Prop :=
  ∀ s, load slot c.pushes.length s = load slot c.pops.length s + c.held s

/-- A channel on which nobody waits is settled. -/
theorem settled_of_run {ok : Channels S α β → Act α β → Channels S α β → Prop}
    (h : (machine α β slot).Run ok c) (hput : ∀ s, NoPutWaits slot c s)
    (htake : ∀ s, NoTakeWaits slot c s) : Settled slot c := fun s => by
  have hI := inv_of_run h
  rw [← hI.putsOn_eq (hput s), ← hI.takesOn_eq (htake s)]
  exact balance_of_run h s

/-- The readers have not passed the writers. -/
theorem Settled.pops_le_pushes (h : Settled slot c) : c.pops.length ≤ c.pushes.length := by
  by_contra hlt
  have hload : load slot c.pushes.length (slot c.pushes.length) <
      load slot c.pops.length (slot c.pushes.length) := load_lt (by omega) rfl
  have := h (slot c.pushes.length)
  omega

/-- The numbers between the counters are on distinct channels. -/
theorem Settled.injOn (h : Settled slot c) {k k' : ℕ} (hk : c.pops.length ≤ k) (hkk' : k < k')
    (hk' : k' < c.pushes.length) : slot k ≠ slot k' := by
  intro heq
  have h1 : load slot c.pops.length (slot k') ≤ load slot k (slot k') := load_mono hk
  have h2 : load slot k (slot k') < load slot k' (slot k') := load_lt hkk' heq
  have h3 : load slot k' (slot k') < load slot c.pushes.length (slot k') := load_lt hk' rfl
  have := h (slot k')
  have := held_le_one (c := c) (s := slot k')
  omega

/-- **The full channels are those of the numbers between the counters.** -/
theorem Settled.isSome_iff (h : Settled slot c) :
    (c.cell s).isSome ↔ ∃ k, c.pops.length ≤ k ∧ k < c.pushes.length ∧ slot k = s := by
  have hs := h s
  constructor
  · intro hsome
    rw [held, if_pos hsome] at hs
    obtain ⟨k, hk, hslot⟩ := Nat.exists_of_count_lt_count (p := fun k => slot k = s)
      (by simp only [load] at hs; omega : Nat.count _ c.pops.length < Nat.count _ c.pushes.length)
    exact ⟨k, hk.1, hk.2, hslot⟩
  · rintro ⟨k, hk, hk', hslot⟩
    by_contra hnone
    have h1 : load slot c.pops.length s ≤ load slot k s := load_mono hk
    have h2 : load slot k s < load slot c.pushes.length s := load_lt hk' hslot
    rw [held, if_neg hnone] at hs
    omega

/-- There are no more of them than channels. -/
theorem Settled.sub_le_card [Fintype S] (h : Settled slot c) :
    c.pushes.length - c.pops.length ≤ Fintype.card S := by
  rw [← Nat.card_Ico, ← Finset.card_univ]
  refine Finset.card_le_card_of_injOn slot (fun _ _ => Finset.mem_coe.mpr (Finset.mem_univ _)) ?_
  intro k hk k' hk' heq
  rw [Finset.mem_coe, Finset.mem_Ico] at hk hk'
  rcases Nat.lt_trichotomy k k' with hlt | rfl | hgt
  · exact absurd heq (h.injOn hk.1 hlt hk'.2)
  · rfl
  · exact absurd heq.symm (h.injOn hk'.1 hgt hk.2)

end Channels
