import AtomicQueue.Sequential.Mutex
/-!
# The queue behind a mutex past the wrap of its counters

`AtomicQueueMutexT` looks at the counters only. Where its size is not a
power of two the wrap of `head_` cuts a lap short (`Ring.rest`), and a push
with the counters on both sides of the wrap may find `head_` on the slot of
an element not yet popped (`Ring.Straddles`). It overwrites that element.
Without such pushes the queue is a bounded list.
-/

namespace AtomicQueue

variable {T : Type} {R : Ring} {E : ElementType T} {q q' : MutexQueue R T} {l : List T} {p k : ℕ}
variable {calls : List (Call T)} {replies : List (Reply T)}

namespace MutexQueue

/-- The elements from `tail_` up to `head_`. -/
def stored (q : MutexQueue R T) : List T :=
  (List.range (q.head_ - q.tail_).toNat).map fun j =>
    q.elements_ (R.slot (q.tail_ + BitVec.ofNat 32 j))

/-- There is room, and the slot of `head_` is that of an element not yet
popped. -/
def Overwrites (q : MutexQueue R T) : Prop :=
  q.head_ - q.tail_ < R.size_ ∧ ∃ j < (q.head_ - q.tail_).toNat,
    R.slot (q.tail_ + BitVec.ofNat 32 j) = R.slot q.head_

/-- The call is no `try_push` that finds room with the counters on both
sides of the wrap, too far apart. -/
def Apart (q : MutexQueue R T) (c : Call T) : Prop :=
  c.appends = true → q.head_ - q.tail_ < R.size_ → ¬ R.Straddles q.head_ q.tail_

namespace Holds

theorem stored_eq (h : Holds q p l) : q.stored = l := by
  refine List.ext_getElem (by rw [stored, List.length_map, List.length_range, h.spans.toNat_sub])
    fun j hj hj' => ?_
  simp only [stored, List.getElem_map, List.getElem_range, h.spans.slot_tail_add]
  exact h.full j _ (List.getElem?_eq_getElem hj')

theorem overwrites_iff (h : Holds q p l) :
    q.Overwrites ↔ q.head_ - q.tail_ < R.size_ ∧ R.Straddles q.head_ q.tail_ := by
  unfold Overwrites
  refine and_congr_right fun hroom => ?_
  rw [h.spans.lt_size_iff] at hroom
  rw [← h.spans.not_clear_iff, h.spans.clear_iff hroom, not_not]

/-- The list of the ring has a reply for a call made apart. -/
theorem ringFifo_eq (h : Holds q p l) {c : Call T} (hc : q.Apart c) :
    ringFifo R (p, l) c = (fifo R.slots l c).map fun r => (r.1, p + r.1.taken, r.2) := by
  rw [ringFifo, if_neg]
  rintro ⟨happends, hroom, hclear⟩
  refine hc happends (h.spans.lt_size_iff.mpr hroom) ?_
  rwa [h.spans.clear_iff hroom, not_not] at hclear

end Holds

/-- A list has a reply for the calls the queue takes. -/
theorem exists_fifo {c : Call T} {r : Reply T} (hcall : (object R E).call q c r q') (l : List T)
    (n : ℕ) : ∃ r l', fifo n l c = some (r, l') := by
  cases c with
  | tryPush x =>
    rw [fifo]
    split <;> exact ⟨_, _, rfl⟩
  | tryPop x => cases l <;> exact ⟨_, _, rfl⟩
  | _ => exact hcall.elim

/-- **Calls made apart are answered by the list.** -/
theorem holds_of_calls (h : Holds q p l)
    (hcalls : ((object R E).restrict Apart).Calls q calls replies q') :
    ∃ p' l', Object.replies (fifo R.slots) l calls = some (replies, l') ∧ Holds q' p' l' := by
  induction hcalls generalizing p l with
  | nil q => exact ⟨p, l, rfl, h⟩
  | @cons q q₁ q' c r calls replies hcall _ ih =>
    obtain ⟨happart, hcall⟩ := hcall
    obtain ⟨r₁, l₁, hfifo⟩ := exists_fifo hcall l R.slots
    have hspec : ringFifo R (p, l) c = some (r₁, p + r₁.taken, l₁) := by
      rw [h.ringFifo_eq happart, hfifo]
      rfl
    obtain ⟨rfl, h₁, -⟩ := h.reply_eq hspec hcall
    obtain ⟨p', l', hreplies, h'⟩ := ih h₁
    refine ⟨p', l', ?_, h'⟩
    rw [Object.replies, hfifo, Option.bind_some, hreplies]
    rfl

end MutexQueue

/-- **The queue behind a mutex is a bounded list while no push straddles
the wrap.** In every run of `try_push` and `try_pop` of which none does,
whatever the size, the replies are those of the list, and the elements it
holds are stored unchanged; and the next push overwrites an element just
where it straddles. -/
theorem mutex_refines_fifo (E : ElementType T)
    (h : ((MutexQueue.object R E).restrict MutexQueue.Apart).Calls (.init E) calls replies q) :
    ∃ l, Object.replies (fifo R.slots) [] calls = some (replies, l) ∧ q.stored = l ∧
      (q.Overwrites ↔ q.head_ - q.tail_ < R.size_ ∧ R.Straddles q.head_ q.tail_) := by
  obtain ⟨p, l, hreplies, hholds⟩ := MutexQueue.holds_of_calls (MutexQueue.holds_init R E) h
  exact ⟨l, hreplies, hholds.stored_eq, hholds.overwrites_iff⟩

/-- A run that comes nowhere near the wrap. -/
theorem mutex_refines_fifo_run : ∃ q : MutexQueue threeSlots ℕ, q.stored = [6] := by
  have hcalls : ((MutexQueue.object threeSlots plain).restrict MutexQueue.Apart).Calls (.init plain)
      [.tryPush 5, .tryPush 6, .tryPop 0] [.tryPush true none, .tryPush true none, .tryPop true 5]
      (MutexQueue.tryPop plain (((MutexQueue.init plain).tryPush 5).2.tryPush 6).2 0).2.2 :=
    .cons ⟨fun _ _ h => absurd h.2 (by decide), rfl, rfl⟩
      (.cons ⟨fun _ _ h => absurd h.1 (by decide), rfl, rfl⟩
        (.cons ⟨fun h => absurd h (by decide), rfl, rfl⟩ (.nil _)))
  obtain ⟨l, hreplies, hstored, -⟩ := mutex_refines_fifo plain hcalls
  cases hreplies
  exact ⟨_, hstored⟩

/-- **An element is lost at the wrap.** On three slots, of which the wrap
leaves one, pushes and pops take turns up to position `2 ^ 32 - 1`. A push
of `5` there and one of `6` at position `2 ^ 32`, where `head_` is `0`
again, both succeed on slot `0`, and the pop returns `6`. -/
theorem mutex_refines_fifo_fails :
    ¬ ∀ (calls : List (Call ℕ)) (replies : List (Reply ℕ)) (q : MutexQueue threeSlots ℕ),
      (MutexQueue.object threeSlots plain).Calls (.init plain) calls replies q →
        ∃ l, Object.replies (fifo 3) [] calls = some (replies, l) := by
  intro hall
  have href := MutexQueue.object_refines threeSlots plain
  have hinit := MutexQueue.holds_init threeSlots plain
  obtain ⟨k, hk⟩ : ∃ k, k = 2 ^ 32 - 1 := ⟨_, rfl⟩
  have htakes : ∀ c ∈ turns 1 0 k, MutexQueue.Takes c := by
    intro c hc
    simp only [turns, List.mem_flatten, List.mem_replicate] at hc
    obtain ⟨_, ⟨-, rfl⟩, hc⟩ := hc
    rcases List.mem_pair.mp hc with rfl | rfl <;> trivial
  have hturns := ringFifo_turns (R := threeSlots) 1 0 k
  obtain ⟨⟨head, tail, elements⟩, hcalls⟩ := href.exists_calls (a := (0, [])) hinit htakes hturns
  obtain ⟨-, hholds⟩ := href.replies_eq (a := (0, [])) hinit htakes hturns hcalls
  obtain rfl : head = -1 := by rw [← show _ = head from hholds.spans.head_eq.symm, hk]; rfl
  obtain rfl : tail = -1 := by rw [← show _ = tail from hholds.spans.tail_eq.symm, hk]; rfl
  -- the two pushes share a slot, and the pop reads it
  have hpush : (MutexQueue.object threeSlots plain).call ⟨-1, -1, elements⟩ (.tryPush 5)
      (.tryPush true none) _ := MutexQueue.call_tryPush (by change (-1 : Word) - -1 < 3; decide)
  have hpush' := MutexQueue.call_tryPush (E := plain) (x := 6)
    (q := ⟨0, -1, Function.update elements (threeSlots.slot (-1)) 5⟩)
    (by change (0 : Word) - -1 < 3; decide)
  have hpop := MutexQueue.call_tryPop (E := plain) (x := 0) (q := ⟨1, -1, Function.update
    (Function.update elements (threeSlots.slot (-1)) 5) (threeSlots.slot 0) 6⟩)
    (by change (1 : Word) ≠ -1; decide)
  have hslot : threeSlots.slot (-1) = threeSlots.slot 0 := by decide
  simp only [hslot, Function.update_self] at hpush hpush' hpop
  obtain ⟨l, hl⟩ := hall _ _ _ (hcalls.append (.cons hpush (.cons hpush' (.cons hpop (.nil _)))))
  have hfifo : Object.replies (fifo 3) [] (turns 1 0 k) = some (turnReplies 1 k, []) :=
    replies_turns (a := fun _ => []) (fun _ => rfl) k
  rw [Object.replies_append, hfifo, Option.bind_some] at hl
  have hl' : turnReplies 1 k ++ [.tryPush true none, .tryPush true none, .tryPop true 5] =
      turnReplies 1 k ++ [.tryPush true none, .tryPush true none, .tryPop true 6] :=
    congrArg Prod.fst (Option.some.inj hl)
  exact absurd (List.append_cancel_left hl') (by decide)

end AtomicQueue
