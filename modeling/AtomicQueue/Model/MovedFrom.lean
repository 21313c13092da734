import AtomicQueue.Model.Buffer
/-!
# The calls of any object, owner of buffers or not

`try_push`, `try_pop`, `was_size` and `was_empty` of `AtomicQueueB` and
`AtomicQueueB2` as far as they need the members of the object only: up to
where `do_push` or `do_pop` indexes the arrays. So an object may be called
whose pointers are null and whose `size_` is `0`, which is what a move
leaves behind.
-/

namespace AtomicQueue

namespace MovedFrom

variable {A S E T : Type}

/-- Where a call is. -/
inductive Pc (T : Type)
  /-- Before the load of `head_`. -/
  | tryPushLoad (element : T)
  /-- Before the load of `tail_` and the test for full. -/
  | tryPushCheck (element : T) (head : Word)
  /-- Before the `compare_exchange_weak` of (with `spsc_`, the store to)
  `head_`. -/
  | tryPushClaim (element : T) (head : Word)
  | tryPopLoad
  | tryPopCheck (tail : Word)
  | tryPopClaim (tail : Word)
  | wasSizeLoad (headFirst : Bool)
  | wasSizeHead (head : Word)
  | wasSizeTail (tail : Word)
  /-- In `do_push`, at the slot of the position `head` in the arrays. -/
  | doPush (element : T) (head : Word)
  | doPop (tail : Word)

/-- The call is at the arrays. -/
def Pc.AtBuffer : Pc T → Prop
  | .doPush _ _ | .doPop _ => True
  | _ => False

/-- What a step leads to: another point, or the end of the call. -/
inductive Next (T : Type)
  | goto (pc : Pc T)
  /-- `try_push` or `try_pop` returns `false`. -/
  | refuse
  /-- `was_size` returns `n`. -/
  | sized (n : ℕ)

/-- **The next step of a call** on the object `q`, a
`compare_exchange_weak` failing spuriously where `weak` is set. It is none
at the arrays. -/
def advance (spsc_ weak : Bool) (q : BufferQueue A S E) : Pc T → Option (BufferQueue A S E × Next T)
  | .tryPushLoad element => some (q, .goto (.tryPushCheck element q.head_))
  | .tryPushCheck element head =>
    if asSigned (head - q.tail_) ≥ asSigned q.size_ then some (q, .refuse)
    else some (q, .goto (.tryPushClaim element head))
  | .tryPushClaim element head =>
    -- with `spsc_` a store, which does not look at `head_` again
    if spsc_ then some ({ q with head_ := head + 1 }, .goto (.doPush element head))
    else if q.head_ = head ∧ weak = false then
      some ({ q with head_ := head + 1 }, .goto (.doPush element head))
    else some (q, .goto (.tryPushCheck element q.head_))
  | .tryPopLoad => some (q, .goto (.tryPopCheck q.tail_))
  | .tryPopCheck tail =>
    if asSigned (q.head_ - tail) ≤ 0 then some (q, .refuse)
    else some (q, .goto (.tryPopClaim tail))
  | .tryPopClaim tail =>
    if spsc_ then some ({ q with tail_ := tail + 1 }, .goto (.doPop tail))
    else if q.tail_ = tail ∧ weak = false then
      some ({ q with tail_ := tail + 1 }, .goto (.doPop tail))
    else some (q, .goto (.tryPopCheck q.tail_))
  | .wasSizeLoad headFirst =>
    some (q, .goto (if headFirst then .wasSizeHead q.head_ else .wasSizeTail q.tail_))
  | .wasSizeHead head => some (q, .sized (Derived.wasSizeOf head q.tail_))
  | .wasSizeTail tail => some (q, .sized (Derived.wasSizeOf q.head_ tail))
  -- the next access is to the arrays
  | .doPush _ _ | .doPop _ => none

/-- The first points of a call. `was_empty` calls `was_size`. -/
def Begins : Call T → Pc T → Prop
  | .tryPush x, pc => pc = .tryPushLoad x
  | .tryPop _, pc => pc = .tryPopLoad
  | .wasSize, pc | .wasEmpty, pc => ∃ headFirst, pc = .wasSizeLoad headFirst
  | _, _ => False

/-- What a call replies, by what it ends with. -/
def reply : Call T → Next T → Option (Reply T)
  | .tryPush x, .refuse => some (.tryPush false (some x))
  | .tryPop x, .refuse => some (.tryPop false x)
  | .wasSize, .sized n => some (.size n)
  | .wasEmpty, .sized n => some (.flag (n = 0))
  | _, _ => none

/-- **The points of a call** on an object that was `q₀` before it. -/
inductive Within (spsc_ : Bool) (q₀ : BufferQueue A S E) (c : Call T) :
    BufferQueue A S E → Pc T → Prop
  | begin {pc} (h : Begins c pc) : Within spsc_ q₀ c q₀ pc
  | step {q pc q' pc'} (weak : Bool) (hw : Within spsc_ q₀ c q pc)
      (h : advance spsc_ weak q pc = some (q', .goto pc')) : Within spsc_ q₀ c q' pc'

/-- The object `q`, called by one thread, as far as its calls stay away from
the arrays. -/
def object (spsc_ : Bool) (q : BufferQueue A S E) :
    Object (BufferQueue A S E) (Call T) (Reply T) where
  init := q
  call q₀ c r q' := ∃ q pc weak e,
    Within spsc_ q₀ c q pc ∧ advance spsc_ weak q pc = some (q', e) ∧ reply c e = some r

/-- The calls of an empty queue, -/
def Asks : Call T → Prop
  | .tryPush _ | .tryPop _ | .wasSize | .wasEmpty => True
  | _ => False

/-- and its replies, where it has no room either. -/
def emptyReply : Call T → Reply T
  | .tryPush x => .tryPush false (some x)
  | .tryPop x => .tryPop false x
  | .wasSize => .size 0
  | _ => .flag true

/-- **A valid empty queue of capacity `0`**: any sequence of calls gets the
replies of one, and no call of it reaches the arrays. -/
structure Hollow (T : Type) (spsc_ : Bool) (q : BufferQueue A S E) : Prop where
  replies : ∀ cs : List (Call T), (∀ c ∈ cs, Asks c) →
    (object spsc_ q).Answers cs (cs.map emptyReply)
  untouched : ∀ (cs : List (Call T)) (rs : List (Reply T)) (c : Call T) (pc : Pc T) q₀ q',
    (∀ c ∈ cs, Asks c) → Asks c → (object spsc_ q).Calls q cs rs q₀ → Within spsc_ q₀ c q' pc →
      ¬ pc.AtBuffer

end MovedFrom

end AtomicQueue
