import AtomicQueue.Sequential.Refinement
/-!
# The lock-free queues past the wrap of their counters

`try_push` looks at the counters before it claims a position and at the
slot after. On a ring whose size is not a power of two a push that finds
room with the counters on both sides of the wrap may claim a position on
the slot of an element not yet popped (`Ring.Straddles`). It then waits,
and alone it waits for ever (`Stalled`). These are the only calls of
`try_push` and `try_pop` that wait.
-/

namespace AtomicQueue

variable {T : Type} [DecidableEq T] {D : Derived T}
variable {m m' m₀ : Mem D} {pc pc' : Pc D} {l : List T} {c : Call T} {r : Reply T} {x : T} {p : ℕ}
variable {calls : List (Call T)} {replies : List (Reply T)} {weak : Bool} {e : Event T D.ring.slots}

/-- `try_push` or `try_pop`. -/
def Call.tries : Call T → Bool
  | .tryPush _ | .tryPop _ => true
  | _ => false

/-- **Where a `try_push` is** whose position is on a slot of the list: its
slot is full and it has not won it. -/
inductive Stalled (D : Derived T) (m₀ : Mem D) (x : T) : Mem D → Pc D → Prop
  | load : Stalled D m₀ x m₀ (.tryPushLoad x)
  | check : Stalled D m₀ x m₀ (.tryPushCheck x m₀.head_)
  | claim : Stalled D m₀ x m₀ (.tryPushClaim x m₀.head_)
  | push {cell : D.layout.Cell} {q : D.layout.Push} {y : T} (hq : D.spec.PushPoint q)
      (howns : D.layout.pushOwns q = false) (hcell : D.spec.Holds cell (.free (some y))) :
      Stalled D m₀ x ((m₀.setHead (m₀.head_ + 1)).set (D.ring.slot m₀.head_) cell)
        (.doPush x (D.ring.slot m₀.head_) q)

/-- The position is claimed, and its slot is full. -/
theorem Stalled.entry (hrep : Represents D m₀ p l) (hclear : ¬ D.ring.Clear p l.length) :
    Stalled D m₀ x (m₀.setHead (m₀.head_ + 1))
      (.doPush x (D.ring.slot m₀.head_) D.layout.pushEntry) := by
  obtain ⟨y, hfull⟩ := hrep.full_head hclear
  have hd : Stalled D m₀ x ((m₀.setHead (m₀.head_ + 1)).set (D.ring.slot m₀.head_)
      (m₀.cell (D.ring.slot m₀.head_))) (.doPush x (D.ring.slot m₀.head_) D.layout.pushEntry) :=
    .push D.spec.pushEntry_point D.spec.pushEntry_owns hfull
  rwa [← Mem.setHead_cell m₀ (m₀.head_ + 1), Mem.set_eq_self] at hd

/-- **Alone it stays there.** -/
theorem Stalled.step (hrep : Represents D m₀ p l) (hsize : D.ring.slots < 2 ^ 31)
    (hx : D.layout.admits x = true) (hroom : l.length < D.ring.slots)
    (hclear : ¬ D.ring.Clear p l.length) (h : Stalled D m₀ x m pc)
    (hadv : D.advance weak m pc = some (m', pc', e)) : Stalled D m₀ x m' pc' := by
  cases h with
  | load =>
    cases hadv
    exact .check
  | check =>
    rw [Derived.advance] at hadv
    -- there is room, so the test does not refuse
    split at hadv <;> rename_i htest <;> rw [hrep.full_iff hsize] at htest <;> cases hadv
    · omega
    · exact .claim
  | claim =>
    rw [Derived.advance] at hadv
    split at hadv
    · cases hadv
      exact .entry hrep hclear
    · split at hadv <;> cases hadv
      · exact .entry hrep hclear
      · exact .check
  | @push cell q y hq howns hcell =>
    have hphase : Phase.AtPush D.spsc_ q x (.free (some y)) := by
      rw [Phase.AtPush, howns]
      simp
    obtain ⟨φ', hφ', hm⟩ := D.spec.push_move weak hx hq hcell hphase
    rw [Derived.advance, Derived.stepPush, Option.some.injEq] at hadv
    simp only [Mem.set_cell_self] at hadv
    cases ho : (D.layout.pushStep weak x cell q).2 with
    | next q' =>
      rw [ho] at hadv hm
      cases hadv
      cases hm with
      | wait _ hq' =>
        have hd : Stalled D m₀ x _ (.doPush x (D.ring.slot m₀.head_) q') :=
          .push (D.spec.push_point hq ho) hq' hφ'
        rwa [← Mem.set_set _ (c := cell)] at hd
    | done =>
      rw [ho] at hm
      cases hm

theorem Stalled.ne_idle (h : Stalled D m₀ x m pc) : pc ≠ .idle := by
  cases h <;> simp

theorem Stalled.of_within (hrep : Represents D m₀ p l) (hsize : D.ring.slots < 2 ^ 31)
    (hroom : l.length < D.ring.slots) (hclear : ¬ D.ring.Clear p l.length)
    (h : D.Within m₀ (.tryPush x) m pc) : D.layout.admits x = true ∧ Stalled D m₀ x m pc := by
  induction h with
  | begin hop hentry =>
    cases hop
    obtain ⟨hx, heq⟩ := Option.ite_none_right_eq_some.mp hentry
    cases heq
    exact ⟨hx, .load⟩
  | step _ hadv _ ih => exact ⟨ih.1, ih.2.step hrep hsize ih.1 hroom hclear hadv⟩

/-- **It never returns**, -/
theorem not_call_of_not_clear (hrep : Represents D m₀ p l) (hsize : D.ring.slots < 2 ^ 31)
    (hroom : l.length < D.ring.slots) (hclear : ¬ D.ring.Clear p l.length) :
    ¬ D.object.call m₀ (.tryPush x) r m' := by
  rintro ⟨m, pc, weak, e, hw, hadv, -⟩
  obtain ⟨hx, hs⟩ := Stalled.of_within hrep hsize hroom hclear hw
  exact (hs.step hrep hsize hx hroom hclear hadv).ne_idle rfl

/-- and it waits. -/
theorem exists_waits_of_not_clear (hrep : Represents D m₀ p l) (hsize : D.ring.slots < 2 ^ 31)
    (hx : D.layout.admits x = true) (hroom : l.length < D.ring.slots)
    (hclear : ¬ D.ring.Clear p l.length) :
    ∃ m pc, D.Within m₀ (.tryPush x) m pc ∧ D.Waits m pc := by
  have hentry : D.entry (.tryPush x) = some (.tryPushLoad x) := if_pos hx
  have hload : D.Within m₀ (.tryPush x) m₀ (.tryPushLoad x) := .begin rfl hentry
  have hcheck : D.Within m₀ (.tryPush x) m₀ (.tryPushCheck x m₀.head_) := by
    have hadv : D.advance false m₀ (.tryPushLoad x)
        = some (m₀, .tryPushCheck x m₀.head_, .silent) := rfl
    exact hload.step hadv (by simp)
  have hclaim : D.Within m₀ (.tryPush x) m₀ (.tryPushClaim x m₀.head_) := by
    have hadv : D.advance false m₀ (.tryPushCheck x m₀.head_)
        = some (m₀, .tryPushClaim x m₀.head_, .silent) := by
      rw [Derived.advance, if_neg]
      rw [hrep.full_iff hsize]
      omega
    exact hcheck.step hadv (by simp)
  refine ⟨m₀.setHead (m₀.head_ + 1), .doPush x (D.ring.slot m₀.head_) D.layout.pushEntry, ?_,
    D.spec.pushEntry_owns, ?_⟩
  · have hadv : D.advance false m₀ (.tryPushClaim x m₀.head_) = some (m₀.setHead (m₀.head_ + 1),
        .doPush x (D.ring.slot m₀.head_) D.layout.pushEntry, .claimPush x) := by
      rw [Derived.advance]
      split
      · rfl
      · rw [if_pos ⟨rfl, rfl⟩]
        rfl
    exact hclaim.step hadv (by simp)
  · obtain ⟨y, hfull⟩ := hrep.full_head hclear
    exact D.spec.awaitsPush_eq hfull

/-! ## Runs of `try_push` and `try_pop` -/

/-- Of a call that does not straddle the list says what it replies. -/
theorem Represents.exists_ringFifo (hrep : Represents D m p l) (hc : c.tries = true)
    (hapart : ¬ (c.appends = true ∧ l.length < D.ring.slots ∧ ¬ D.ring.Clear p l.length)) :
    ∃ r p' l', ringFifo D.ring (p, l) c = some (r, p', l') := by
  rw [ringFifo, if_neg hapart]
  cases c with
  | tryPush x =>
    rw [fifo]
    split <;> exact ⟨_, _, _, rfl⟩
  | tryPop x => cases l <;> exact ⟨_, _, _, rfl⟩
  | _ => cases hc

/-- **After any calls that returned the memory holds a list.** -/
theorem represents_of_calls (hsize : D.ring.slots < 2 ^ 31) (hrep : Represents D m₀ p l)
    (htry : ∀ c ∈ calls, c.tries = true) (h : D.object.Calls m₀ calls replies m) :
    ∃ p' l', Represents D m p' l' := by
  induction h generalizing p l with
  | nil m => exact ⟨p, l, hrep⟩
  | @cons m₀ m₁ m c r calls replies hcall _ ih =>
    by_cases hapart : c.appends = true ∧ l.length < D.ring.slots ∧ ¬ D.ring.Clear p l.length
    · obtain ⟨happends, hroom, hclear⟩ := hapart
      cases c with
      | tryPush x => exact absurd hcall (not_call_of_not_clear hrep hsize hroom hclear)
      | push x => cases htry _ List.mem_cons_self
      | _ => cases happends
    · obtain ⟨r', p', l', hspec⟩ := hrep.exists_ringFifo (htry _ List.mem_cons_self) hapart
      obtain ⟨-, hrep', -⟩ := hrep.reply_eq hsize hspec hcall
      exact ih hrep' fun c hc => htry c (List.mem_cons_of_mem _ hc)

/-- **Exactly the pushes that straddle the wrap wait.** After any
`try_push`es and `try_pop`s that returned, the positions from `tail_` up to
`head_` are on distinct slots, and the next call returns without waiting at
any of its points, unless it is a push that finds room with the counters
straddling the wrap. -/
theorem try_waits_iff (hsize : D.ring.slots < 2 ^ 31) (htry : ∀ c ∈ calls, c.tries = true)
    (hcalls : D.object.Calls D.fresh calls replies m) (hc : c.tries = true) (hadm : D.Admits c) :
    (∀ j j', j < j' → j' < (m.head_ - m.tail_).toNat →
      D.ring.slot (m.tail_ + BitVec.ofNat 32 j) ≠ D.ring.slot (m.tail_ + BitVec.ofNat 32 j')) ∧
    (((∃ r m', D.object.call m c r m') ∧ ∀ m' pc, D.Within m c m' pc → ¬ D.Waits m' pc) ↔
      ¬ (c.appends = true ∧ (m.head_ - m.tail_).toNat < D.ring.slots ∧
        D.ring.Straddles m.head_ m.tail_)) := by
  obtain ⟨p, l, hrep⟩ := represents_of_calls hsize (Represents.fresh D) htry hcalls
  have hlen : (m.head_ - m.tail_).toNat = l.length := hrep.spans.toNat_sub
  refine ⟨fun j j' hlt hj' => ?_, ?_⟩
  · rw [hrep.spans.slot_tail_add, hrep.spans.slot_tail_add]
    exact hrep.spans.distinct j' (hlen ▸ hj') j hlt
  rw [hlen]
  constructor
  · rintro ⟨⟨r, m', hcall⟩, -⟩ ⟨happends, hroom, hstraddles⟩
    have hclear : ¬ D.ring.Clear p l.length := by rwa [hrep.spans.clear_iff hroom, not_not]
    cases c with
    | tryPush x => exact not_call_of_not_clear hrep hsize hroom hclear hcall
    | push x => cases hc
    | _ => cases happends
  · intro hapart
    have hclear : ¬ (c.appends = true ∧ l.length < D.ring.slots ∧ ¬ D.ring.Clear p l.length) := by
      rintro ⟨happends, hroom, hnot⟩
      rw [hrep.spans.clear_iff hroom, not_not] at hnot
      exact hapart ⟨happends, hroom, hnot⟩
    obtain ⟨r, p', l', hspec⟩ := hrep.exists_ringFifo hc hclear
    obtain ⟨hfifo, -, hclear⟩ := ringFifo_eq_some hspec
    refine ⟨(object_refines hsize).total (a := (p, l)) hrep hadm hspec, fun m' pc hw => ?_⟩
    exact (During.of_within hrep hsize hclear hfifo hw).not_waits

/-- An `AtomicQueue` of three slots. -/
def threeSlotQueue : Derived ℕ := ⟨threeSlots, false, true, .atomic 0⟩

/-- A second push, nowhere near the wrap. -/
theorem try_waits_iff_run : ∃ m r m',
    threeSlotQueue.object.Calls threeSlotQueue.fresh [.tryPush 5] [.tryPush true none] m ∧
      threeSlotQueue.object.call m (.tryPush 6) r m' := by
  have hsize : threeSlotQueue.ring.slots < 2 ^ 31 := by decide
  have hspec : Object.replies (ringFifo threeSlots) (0, []) [Call.tryPush 5] =
      some ([.tryPush true none], 0, [5]) := rfl
  have hfresh := Represents.fresh threeSlotQueue
  obtain ⟨m, hcalls⟩ := (object_refines hsize).exists_calls (a := (0, [])) hfresh (by decide) hspec
  obtain ⟨-, hrep⟩ :=
    (object_refines hsize).replies_eq (a := (0, [])) hfresh (by decide) hspec hcalls
  have hapart : ¬ threeSlots.Straddles m.head_ m.tail_ := by
    rintro ⟨hcarry, -⟩
    rw [show m.head_ = 1 from hrep.spans.head_eq] at hcarry
    exact absurd hcarry (by decide)
  obtain ⟨-, hiff⟩ := try_waits_iff (c := .tryPush 6) hsize (by decide) hcalls rfl rfl
  obtain ⟨⟨r, m', hcall⟩, -⟩ := hiff.mpr fun h => hapart h.2.2
  exact ⟨m, r, m', hcalls, hcall⟩

/-- **A push hangs at the wrap.** On three slots, of which the wrap leaves
one, pushes and pops take turns up to position `2 ^ 32 - 1`. A push of `5`
there returns, and one of `6` finds room, claims position `2 ^ 32`, where
`head_` is `0` again, and waits for slot `0`. -/
theorem try_waits_fails :
    ¬ ∀ (calls : List (Call ℕ)) (replies : List (Reply ℕ)) (m : Mem threeSlotQueue) (c : Call ℕ),
      (∀ c ∈ calls, c.tries = true) →
        threeSlotQueue.object.Calls threeSlotQueue.fresh calls replies m → c.tries = true →
          ∀ m' pc, threeSlotQueue.Within m c m' pc → ¬ threeSlotQueue.Waits m' pc := by
  intro hall
  have hsize : threeSlotQueue.ring.slots < 2 ^ 31 := by decide
  obtain ⟨k, hk⟩ : ∃ k, k = 2 ^ 32 - 1 := ⟨_, rfl⟩
  have hspec : Object.replies (ringFifo threeSlots) (0, []) (turns 1 0 k ++ [.tryPush 5]) =
      some (turnReplies 1 k ++ [.tryPush true none], k, [5]) := by
    rw [Object.replies_append, ringFifo_turns, Option.bind_some, Object.replies,
      ringFifo_nil_tryPush]
    rfl
  have hcall : ∀ c ∈ turns 1 0 k ++ [.tryPush 5],
      c = .tryPush 1 ∨ c = .tryPop 0 ∨ c = .tryPush 5 := by
    intro c hc
    simp only [turns, List.mem_append, List.mem_flatten, List.mem_replicate,
      List.mem_singleton] at hc
    obtain ⟨_, ⟨-, rfl⟩, hc⟩ | rfl := hc
    · rcases List.mem_pair.mp hc with rfl | rfl <;> simp
    · simp
  have hok : ∀ c ∈ turns 1 0 k ++ [.tryPush 5], threeSlotQueue.Admits c := by
    intro c hc
    rcases hcall c hc with rfl | rfl | rfl <;> decide
  have htry : ∀ c ∈ turns 1 0 k ++ [.tryPush 5], c.tries = true := by
    intro c hc
    rcases hcall c hc with rfl | rfl | rfl <;> rfl
  have hfresh := Represents.fresh threeSlotQueue
  obtain ⟨m, hcalls⟩ := (object_refines hsize).exists_calls (a := (0, [])) hfresh hok hspec
  obtain ⟨-, hrep⟩ := (object_refines hsize).replies_eq (a := (0, [])) hfresh hok hspec hcalls
  have hclear : ¬ threeSlotQueue.ring.Clear k 1 := by
    have hrest : threeSlots.rest = 1 := by decide
    rw [Ring.clear_iff (by decide), not_not, show threeSlotQueue.ring.rest = 1 from hrest, hk]
    decide
  have hroom : [5].length < threeSlotQueue.ring.slots := by decide
  obtain ⟨m', pc, hw, hwaits⟩ :=
    exists_waits_of_not_clear (x := 6) hrep hsize rfl hroom hclear
  exact hall _ _ m (.tryPush 6) htry hcalls rfl m' pc hw hwaits

end AtomicQueue
