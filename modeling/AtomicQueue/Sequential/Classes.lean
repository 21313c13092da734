import AtomicQueue.Sequential.Mutex
/-!
# All queue classes are one bounded list

The classes that minimise contention have rings whose size is a power of
two, on which the positions of a list are on distinct slots wherever the
counters stand. So `ringFifo` says what `fifo` says, and with the same size
all of them answer the same calls alike: the slot representations, the
index maps, the counters' wrap and the value of `spsc_` do not show.
-/

namespace AtomicQueue

variable {T : Type} {R : Ring} {n p : ℕ} {s : ℕ × List T} {c : Call T}

/-- The rings of the classes with `MINIMIZE_CONTENTION`, which
`AtomicQueueB` and `AtomicQueueB2` always have. -/
inductive Ring.MinimizesContention : Ring → Prop
  | array (SIZE : Word) (e : ℕ) (remapper : Remapper) (hpos : 0 < (Ring.arraySize true SIZE).toNat) :
      MinimizesContention (.ofArray true SIZE e remapper hpos)
  | buffer (size : Word) (e : ℕ) (remapper : Remapper) :
      MinimizesContention (.ofBuffer size e remapper)

theorem Ring.MinimizesContention.powerOfTwo (h : R.MinimizesContention) : R.PowerOfTwo := by
  cases h with
  | array SIZE e remapper hpos =>
    refine exists_pow_of_roundUp SIZE fun hzero => ?_
    rw [Ring.arraySize, if_pos rfl, hzero] at hpos
    exact absurd hpos (by decide)
  | buffer size e remapper =>
    change ∃ m, (Ring.bufferSize size _).toNat = 2 ^ m
    rw [Ring.toNat_bufferSize size (Ring.getCacheLineIndexBits_le e)]
    by_cases hzero : roundUpToPowerOf2 size = 0
    · rw [hzero]
      exact ⟨_, max_eq_right (Nat.zero_le _)⟩
    · obtain ⟨m, hm⟩ := exists_pow_of_roundUp size hzero
      rw [hm]
      rcases le_total (2 ^ m) (2 ^ (getCacheLineIndexBits e * 2)) with hle | hge
      · exact ⟨_, max_eq_right hle⟩
      · exact ⟨_, max_eq_left hge⟩

/-- **On a power of two the positions do not matter.** -/
theorem ringFifo_of_powerOfTwo (h : R.PowerOfTwo) (s : ℕ × List T) (c : Call T) :
    (ringFifo R s c).map (fun q => (q.1, q.2.2)) = fifo R.slots s.2 c := by
  have hclear : ¬ (c.appends = true ∧ s.2.length < R.slots ∧ ¬ R.Clear s.1 s.2.length) := by
    rintro ⟨-, hroom, hnot⟩
    exact hnot (h.clear hroom)
  rw [ringFifo, if_neg hclear, Option.map_map]
  cases fifo R.slots s.2 c <;> rfl

/-- **All queue classes refine one bounded list.** Where the list of at
most `n ≤ 2 ^ 30` elements replies to a sequence of calls, so does every
lock-free queue of `n` slots, and so does the queue behind a mutex where it
takes the calls. No call waits on its slot, and a refusal leaves the queue
as it was. -/
theorem queues_refine_fifo {calls : List (Call T)} {replies : List (Reply T)} {l : List T}
    (hn : n ≤ 2 ^ 30) (hfifo : Object.replies (fifo n) [] calls = some (replies, l)) :
    (∀ [DecidableEq T] (D : Derived T), D.ring.MinimizesContention → D.ring.slots = n →
      (∀ c ∈ calls, D.Admits c) → D.object.Answers calls replies ∧
        ∀ m, D.object.Calls D.fresh calls replies m → ∀ c, D.Admits c → (fifo n l c).isSome →
          (∀ m' pc, D.Within m c m' pc → ¬ D.Waits m' pc) ∧
            ∀ r m', D.object.call m c r m' → r.refused = true → m' = m) ∧
    (∀ (R : Ring) (E : ElementType T), R.MinimizesContention → R.slots = n →
      (∀ c ∈ calls, MutexQueue.Takes c) → (MutexQueue.object R E).Answers calls replies ∧
        ∀ q, (MutexQueue.object R E).Calls (.init E) calls replies q →
          ∀ c r q', (MutexQueue.object R E).call q c r q' → r.refused = true → q' = q) := by
  refine ⟨fun D hmin hslots hok => ?_, fun R E hmin hslots hok => ?_⟩
  · subst hslots
    have hsize : D.ring.slots < 2 ^ 31 := by omega
    have hsame := ringFifo_of_powerOfTwo (T := T) hmin.powerOfTwo
    have href := object_refines hsize
    obtain ⟨⟨p, l'⟩, hreplies, rfl⟩ := Object.exists_replies hsame (b := (0, [])) hfifo
    have hfresh := Represents.fresh D
    refine ⟨href.answers (a := (0, [])) hfresh hok hreplies, fun m hcalls c hadm hsome => ?_⟩
    obtain ⟨-, hrep⟩ := href.replies_eq (a := (0, [])) hfresh hok hreplies hcalls
    obtain ⟨⟨r, l₁⟩, hc⟩ := Option.isSome_iff_exists.mp hsome
    rw [← hsame (p, l') c] at hc
    obtain ⟨⟨r', p', l''⟩, hring, heq⟩ := Option.map_eq_some_iff.mp hc
    cases heq
    obtain ⟨hfifo', -, hclear⟩ := ringFifo_eq_some hring
    refine ⟨fun m' pc hw => (During.of_within hrep hsize hclear hfifo' hw).not_waits,
      fun r' m' hcall hrefused => ?_⟩
    obtain ⟨rfl, -, hsame'⟩ := hrep.reply_eq hsize hring hcall
    exact hsame' hrefused
  · subst hslots
    have hsame := ringFifo_of_powerOfTwo (T := T) hmin.powerOfTwo
    have href := MutexQueue.object_refines R E
    obtain ⟨⟨p, l'⟩, hreplies, rfl⟩ := Object.exists_replies hsame (b := (0, [])) hfifo
    have hfresh := MutexQueue.holds_init R E
    refine ⟨href.answers (a := (0, [])) hfresh hok hreplies,
      fun q hcalls c r q' hcall hrefused => ?_⟩
    exact MutexQueue.eq_of_refused hcall hrefused

/-- The lock-free queues in both representations, of four slots: six pushes
and a pop, and the last push is refused. And the queue behind a mutex, from
which an element is taken once. -/
theorem queues_refine_fifo_run :
    (∀ elements : Elements ℕ, elements = .atomic 0 ∨ elements = .states plain →
      ∀ spsc_ : Bool,
        (Derived.mk (.ofBuffer 2 2 .xor) spsc_ true elements).object.Answers
          [.tryPush 5, .push 6, .wasSize, .pop, .tryPush 7, .push 8, .push 9, .tryPush 4, .wasFull]
          [.tryPush true none, .push, .size 2, .pop 5, .tryPush true none, .push, .push,
            .tryPush false (some 4), .flag true]) ∧
      (MutexQueue.object (.ofArray true 3 16 .and (by decide)) plain).Answers
        [.tryPush 5, .tryPop 0, .tryPop 1] [.tryPush true none, .tryPop true 5, .tryPop false 1] := by
  refine ⟨fun elements helements spsc_ => ?_, ?_⟩
  · refine ((queues_refine_fifo (n := 4) (by decide) rfl).1 _ (.buffer _ _ _) rfl ?_).1
    rcases helements with rfl | rfl <;> simp [Derived.Admits, Derived.layout, AtomicElements.layout,
      StateElements.layout]
  · exact ((queues_refine_fifo (n := 4) (by decide) rfl).2 _ _ (.array _ _ _ _) (by decide)
      (by simp [MutexQueue.Takes])).1

end AtomicQueue
