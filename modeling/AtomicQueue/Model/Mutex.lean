import AtomicQueue.Model.Queue
/-!
# The queue behind a mutex

`AtomicQueueMutexT`: the same ring and index map with plain counters and
elements, every call under a lock. It reads no slot to see whether it is
occupied; the counters alone decide. A call is one step here, since the
lock lets one thread in at a time.
-/

namespace AtomicQueue

variable {T : Type}

/-- **`AtomicQueueMutexT`.** -/
structure MutexQueue (R : Ring) (T : Type) where
  head_ : Word
  tail_ : Word
  elements_ : Fin R.slots → T

namespace MutexQueue

variable {R : Ring} (E : ElementType T) (q : MutexQueue R T)

/-- As constructed. -/
def init : MutexQueue R T := ⟨0, 0, fun _ => E.initial⟩

/-- `try_push(element)`: what it returns, and the queue after it. -/
def tryPush (element : T) : Bool × MutexQueue R T :=
  if q.head_ - q.tail_ < R.size_ then
    let index := R.slot q.head_
    (true, { q with elements_ := Function.update q.elements_ index element, head_ := q.head_ + 1 })
  else (false, q)

/-- `try_pop(element)`: what it returns, its argument and the queue after
it. -/
def tryPop (element : T) : Bool × T × MutexQueue R T :=
  if q.head_ ≠ q.tail_ then
    let index := R.slot q.tail_
    (true, q.elements_ index,
      { q with
        elements_ := Function.update q.elements_ index (E.movedFrom (q.elements_ index))
        tail_ := q.tail_ + 1 })
  else (false, element, q)

end MutexQueue

end AtomicQueue
