import AtomicQueue.Model.Mutex
import AtomicQueue.Sequential.Fifo
import AtomicQueue.Model.SpinlockOrders
/-!
# `AtomicQueueMutexT` on a memory with orders

A call locks the mutex, accesses the members it guards, which are plain
memory, and unlocks as its `ScopedLock` goes out of scope. With
`TicketSpinlock` that is a `LockGuard`. `was_empty` and `was_full` lock a
mutex that is `const` there and cannot be called.
-/

namespace AtomicQueue

open Views

namespace MutexQueue

variable {T : Type} {n : ℕ}

/-- The members the mutex guards. -/
inductive Member (n : ℕ)
  | head_
  | tail_
  | element (i : Fin n)
  deriving DecidableEq

abbrev Member.Value (T : Type) : Member n → Type
  | .head_ | .tail_ => Word
  | .element _ => T

variable (R : Ring) (E : ElementType T)

/-- The members as constructed. -/
def members : ∀ m : Member R.slots, m.Value T
  | .head_ | .tail_ => (0 : Word)
  | .element _ => E.initial

/-- `try_push`, in the scope of its lock. The assignment writes the element
from its begin to its end. -/
def tryPushBody (element : T) : Body (Member.Value (n := R.slots) T) (Reply T) :=
  .access .head_ false id fun head =>
  .access .tail_ false id fun tail =>
    if head - tail < R.size_ then
      .access .head_ false id fun head =>
      let index := R.slot head
      .access (.element index) true (fun old => E.torn old element) fun _ =>
      .access (.element index) true (fun _ => element) fun _ =>
      .access .head_ true (· + (1 : Word)) fun _ => .ret (.tryPush true none)
    else .ret (.tryPush false (some element))

/-- `try_pop`, in the scope of its lock. -/
def tryPopBody (element : T) : Body (Member.Value (n := R.slots) T) (Reply T) :=
  .access .head_ false id fun head =>
  .access .tail_ false id fun tail =>
    if head ≠ tail then
      .access .tail_ false id fun tail =>
      let index := R.slot tail
      .access (.element index) true id fun _ =>
      .access (.element index) true E.movedFrom fun element =>
      .access .tail_ true (· + (1 : Word)) fun _ => .ret (.tryPop true element)
    else .ret (.tryPop false element)

/-- The calls of the queue. -/
inductive Try (T : Type)
  | push (element : T)
  | pop (element : T)
  deriving DecidableEq

def body : Try T → Body (Member.Value (n := R.slots) T) (Reply T)
  | .push element => tryPushBody R E element
  | .pop element => tryPopBody R E element

end MutexQueue

end AtomicQueue
