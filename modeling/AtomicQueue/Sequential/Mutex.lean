import AtomicQueue.Sequential.Refinement
/-!
# The queue behind a mutex is a list

The counters of `AtomicQueueMutexT` are tested as unsigned words, so every
size will do, and a call takes one step, so there is nothing to wait for.
While the next position is on a slot of its own the queue refines
`ringFifo`, as the lock-free queues do.
-/

namespace AtomicQueue

variable {T : Type} {R : Ring} {head tail : Word} {l l' : List T} {c : Call T} {r r' : Reply T}
variable {p p' n : ℕ} {x y : T}

namespace Spans

/-- The unsigned test for room. -/
theorem lt_size_iff (h : Spans R head tail p n) : head - tail < R.size_ ↔ n < R.slots := by
  rw [BitVec.lt_def, h.toNat_sub]

/-- The test for an element. -/
theorem ne_iff (h : Spans R head tail p n) : head ≠ tail ↔ n ≠ 0 := by
  have hsub := h.toNat_sub
  constructor
  · rintro hne rfl
    exact hne (by rw [h.head_eq, h.tail_eq, Nat.add_zero])
  · rintro hn rfl
    rw [BitVec.sub_self] at hsub
    exact hn hsub.symm

end Spans

namespace MutexQueue

variable {E : ElementType T} {q q' : MutexQueue R T}

/-- **The queue holds the list `l`** from position `p` on. -/
structure Holds (q : MutexQueue R T) (p : ℕ) (l : List T) : Prop where
  spans : Spans R q.head_ q.tail_ p l.length
  full : ∀ j x, l[j]? = some x → q.elements_ (R.slotOf (p + j)) = x

/-- A fresh queue holds nothing. -/
theorem holds_init (R : Ring) (E : ElementType T) : Holds (init E : MutexQueue R T) 0 [] where
  spans := .init R
  full j x h := by simp at h

/-- The call that `try_push` is where there is room, -/
theorem call_tryPush (h : q.head_ - q.tail_ < R.size_) :
    (object R E).call q (.tryPush x) (.tryPush true none)
      { q with
        elements_ := Function.update q.elements_ (R.slot q.head_) x
        head_ := q.head_ + 1 } := by
  have hcall : q.tryPush x = (true,
      { q with
        elements_ := Function.update q.elements_ (R.slot q.head_) x
        head_ := q.head_ + 1 }) :=
    if_pos h
  change _ = _ ∧ _ = _
  rw [hcall]
  exact ⟨rfl, rfl⟩

/-- and `try_pop` where there is an element. -/
theorem call_tryPop (h : q.head_ ≠ q.tail_) :
    (object R E).call q (.tryPop x) (.tryPop true (q.elements_ (R.slot q.tail_)))
      { q with
        elements_ := Function.update q.elements_ (R.slot q.tail_)
          (E.movedFrom (q.elements_ (R.slot q.tail_)))
        tail_ := q.tail_ + 1 } := by
  have hcall : q.tryPop E x = (true, q.elements_ (R.slot q.tail_),
      { q with
        elements_ := Function.update q.elements_ (R.slot q.tail_)
          (E.movedFrom (q.elements_ (R.slot q.tail_)))
        tail_ := q.tail_ + 1 }) := if_pos h
  change _ = _ ∧ _ = _
  rw [hcall]
  exact ⟨rfl, rfl⟩

namespace Holds

/-- **A push appends** where the slot is not of the list. -/
theorem push (h : Holds q p l) (hlt : l.length < R.slots) (hclear : R.Clear p l.length) :
    (q.tryPush x).1 = true ∧ Holds (q.tryPush x).2 p (l ++ [x]) := by
  rw [tryPush, if_pos (h.spans.lt_size_iff.mpr hlt)]
  refine ⟨rfl, ?_, fun j z hz => ?_⟩
  · rw [List.length_append, List.length_singleton]
    exact h.spans.push hlt hclear
  · refine h.spans.full_push Eq hclear h.full ?_ ?_ j z hz
    · intro i hne
      exact Function.update_of_ne hne ..
    · exact Function.update_self ..

/-- **A push is refused on a full queue.** -/
theorem push_full (h : Holds q p l) (hle : R.slots ≤ l.length) : q.tryPush x = (false, q) := by
  rw [tryPush, if_neg]
  rw [h.spans.lt_size_iff]
  omega

/-- **A pop takes the first element.** -/
theorem pop (h : Holds q p (y :: l)) :
    (q.tryPop E x).1 = true ∧ (q.tryPop E x).2.1 = y ∧ Holds (q.tryPop E x).2.2 (p + 1) l := by
  have hsome : q.head_ ≠ q.tail_ := h.spans.ne_iff.mpr (Nat.succ_ne_zero l.length)
  rw [tryPop, if_pos hsome]
  refine ⟨rfl, ?_, h.spans.pop, fun j z hz => ?_⟩
  · dsimp only
    rw [h.spans.slot_tail]
    exact h.full 0 y rfl
  · refine h.spans.full_pop Eq h.full ?_ j z hz
    intro i hne
    exact Function.update_of_ne hne ..

/-- **A pop is refused on an empty one.** -/
theorem pop_empty (h : Holds q p []) : q.tryPop E x = (false, x, q) := by
  rw [tryPop, if_neg]
  rw [h.spans.ne_iff]
  exact not_not_intro rfl

end Holds

/-- **What a call replies**, and that a refusal leaves the queue as it
was. -/
theorem Holds.reply_eq (h : Holds q p l) (hspec : ringFifo R (p, l) c = some (r, p', l'))
    (hcall : (object R E).call q c r' q') :
    r' = r ∧ Holds q' p' l' ∧ (r.refused = true → q' = q) := by
  obtain ⟨hfifo, rfl, hclear⟩ := ringFifo_eq_some hspec
  cases c with
  | tryPush x =>
    obtain ⟨rfl, rfl⟩ := hcall
    rw [fifo] at hfifo
    split at hfifo <;> rename_i hroom <;> cases hfifo
    · obtain ⟨hok, hq⟩ := h.push (x := x) hroom (hclear rfl hroom)
      exact ⟨by rw [hok, if_pos rfl], hq, by simp [Reply.refused]⟩
    · rw [h.push_full (by omega)]
      exact ⟨rfl, h, fun _ => rfl⟩
  | tryPop x =>
    obtain ⟨rfl, rfl⟩ := hcall
    cases l with
    | nil =>
      cases hfifo
      rw [h.pop_empty]
      exact ⟨rfl, h, fun _ => rfl⟩
    | cons y rest =>
      cases hfifo
      obtain ⟨hok, hval, hq⟩ := h.pop (E := E) (x := x)
      exact ⟨by rw [hok, hval], hq, by simp [Reply.refused]⟩
  | _ => exact hcall.elim

/-- A call that returns `false` changes nothing. -/
theorem eq_of_refused (hcall : (object R E).call q c r q') (hrefused : r.refused = true) :
    q' = q := by
  cases c with
  | tryPush x =>
    obtain ⟨rfl, rfl⟩ := hcall
    rw [tryPush] at hrefused ⊢
    split at hrefused
    · cases hrefused
    · rw [if_neg ‹_›]
  | tryPop x =>
    obtain ⟨rfl, rfl⟩ := hcall
    rw [tryPop] at hrefused ⊢
    split at hrefused
    · cases hrefused
    · rw [if_neg ‹_›]
  | _ => exact hcall.elim

/-- **The calls under the mutex refine the list of the ring.** -/
theorem object_refines (R : Ring) (E : ElementType T) :
    (object R E).Refines (ringFifo R) Takes fun q s => Holds q s.1 s.2 where
  sound h _ hspec hcall := by
    obtain ⟨hr, hq, -⟩ := h.reply_eq hspec hcall
    exact ⟨hr, hq⟩
  total {q s c r s'} _ hok _ := by
    cases c with
    | tryPush x => exact ⟨_, _, rfl, rfl⟩
    | tryPop x => exact ⟨_, _, rfl, rfl⟩
    | _ => exact hok.elim

end MutexQueue

end AtomicQueue
