import AtomicQueue.Model.Buffer
/-!
# The arena of huge pages

`HugePages` hands out memory by moving `cur_` up to `end_`, and takes back
only what it handed out last. `HugePageAllocator` allocates from the one
`instance`. Queues are created in the arena by `create` and destroyed by
`destroy`, the object first and then what its constructor allocates.
Assertions on alignment are left out.
-/

namespace AtomicQueue

/-- `unsigned char*`. -/
abbrev Address := BitVec 64

/-- `size_t`. -/
abbrev Size := BitVec 64

structure HugePages where
  cur_ : Address
  end_ : Address
  beg_ : Address
  deriving DecidableEq

namespace HugePages

variable (arena : HugePages)

def used : Size := arena.cur_ - arena.beg_

/-- `allocate(size, std::nothrow_t)`: null where there is no room. -/
def allocateNothrow (size : Size) : Address × HugePages :=
  if arena.end_ - arena.cur_ < size then (0, arena)
  else (arena.cur_, { arena with cur_ := arena.cur_ + size })

/-- `allocate(size)`. It throws `std::bad_alloc` where this is `none`. -/
def allocate (size : Size) : Option (Address × HugePages) :=
  let r := arena.allocateNothrow size
  if r.1 = 0 then none else some r

/-- `deallocate(p, size)`. It calls `std::abort` where this is `none`. -/
def deallocate (p : Address) (size : Size) : Option HugePages :=
  let q := arena.cur_ - size
  if q = p then some { arena with cur_ := q } else none

end HugePages

/-- `HugePageAllocator<T>`, by `sizeof(T)`. -/
structure HugePageAllocator where
  sizeofValue : ℕ

namespace HugePageAllocator

variable (a : HugePageAllocator)

def allocate (arena : HugePages) (n : ℕ) : Option (Address × HugePages) :=
  arena.allocate (BitVec.ofNat 64 n * BitVec.ofNat 64 a.sizeofValue)

def deallocate (arena : HugePages) (p : Address) (n : ℕ) : Option HugePages :=
  arena.deallocate p (BitVec.ofNat 64 n * BitVec.ofNat 64 a.sizeofValue)

end HugePageAllocator

/-! ## Queues in the arena -/

/-- A queue whose arrays are in the arena. The allocator has no state. -/
abbrev ArenaQueue := BufferQueue Unit Address Address

namespace BufferClass

variable {T : Type} (c : BufferClass T)

/-- `AllocatorElements` of `AtomicQueueB`, `StorageAllocator` of
`AtomicQueueB2`. -/
def elementAllocator : HugePageAllocator :=
  match c.elements with
  | .atomic _ => ⟨c.sizeofElement⟩
  | .states _ => ⟨1⟩

/-- `StorageAllocator`. -/
def stateAllocator : HugePageAllocator := ⟨1⟩

/-- The constructor, `states_` before `elements_`. -/
def constructIn (arena : HugePages) (size : Word) : Option (ArenaQueue × HugePages) := do
  let size_ := c.size_ size
  let (states_, arena) ←
    if c.hasStates then
      (stateAllocator.allocate arena (stateCount size_)).map fun r => (some r.1, r.2)
    else some (none, arena)
  let (elements_, arena) ← c.elementAllocator.allocate arena (c.elementCount size_)
  return (⟨(), 0, 0, size_, states_, some elements_⟩, arena)

/-- The destructor, `elements_` before `states_`. -/
def destructIn (arena : HugePages) (q : ArenaQueue) : Option HugePages :=
  match q.elements_ with
  | none => some arena
  | some p => do
    let arena ← c.elementAllocator.deallocate arena p (c.elementCount q.size_)
    match q.states_ with
    | none => return arena
    | some p => stateAllocator.deallocate arena p (stateCount q.size_)

/-- `create<Queue>(size)`, with `sizeof(Queue)`. -/
def create (sizeofQueue : Size) (arena : HugePages) (size : Word) :
    Option (Address × ArenaQueue × HugePages) := do
  let (p, arena) ← arena.allocate sizeofQueue
  let (q, arena) ← c.constructIn arena size
  return (p, q, arena)

/-- `destroy<Queue>(p)`, the call of the `Deleter`. -/
def destroy (sizeofQueue : Size) (arena : HugePages) (p : Address) (q : ArenaQueue) :
    Option HugePages := do
  let arena ← c.destructIn arena q
  arena.deallocate p sizeofQueue

end BufferClass

namespace Arena

/-- **A queue alive in the arena**, of any class and element type: where it
is, its members, and what its arrays hold. -/
structure Lifetime : Type 1 where
  T : Type
  decidableEq : DecidableEq T
  queueClass : BufferClass T
  address : Address
  queue : ArenaQueue
  states : ℕ → StateE
  elements : ℕ → T
  /-- The history: `used()` before it was created. -/
  usedBefore : Size

namespace Lifetime

variable (x : Lifetime)

def value : BufferValue Unit x.T :=
  { x.queue with
    states_ := x.queue.states_.map fun _ => x.states
    elements_ := x.queue.elements_.map fun _ => x.elements }

/-- The queue after a call that made `v` of it. -/
def write (v : BufferValue Unit x.T) : Lifetime :=
  { x with
    queue := { x.queue with head_ := v.head_, tail_ := v.tail_ }
    states := v.states_.getD x.states
    elements := v.elements_.getD x.elements }

def Serves (call : Call x.T) (r : Reply x.T) (v : BufferValue Unit x.T) : Prop :=
  have := x.decidableEq
  x.queueClass.Serves x.value call r v

/-- `sizeof` of a queue is that of its class. -/
def destroy (sizeofQueue : ∀ {T : Type}, BufferClass T → Size) (arena : HugePages) :
    Option HugePages :=
  x.queueClass.destroy (sizeofQueue x.queueClass) arena x.address x.queue

end Lifetime

/-- The arena and the queues alive in it, the latest first. -/
structure World where
  arena : HugePages
  live : List Lifetime

/-- **The steps**: a queue is created where there is room for it, any queue
is called, and the latest is destroyed. -/
inductive Step (sizeofQueue : ∀ {T : Type}, BufferClass T → Size) : World → World → Prop
  | create {w : World} {T : Type} (dec : DecidableEq T) (c : BufferClass T) (size : Word)
      {p : Address} {q : ArenaQueue} {arena : HugePages}
      (h : c.create (sizeofQueue c) w.arena size = some (p, q, arena)) :
      Step sizeofQueue w ⟨arena, ⟨T, dec, c, p, q, fun _ => .EMPTY, fun _ => c.initialElement,
        w.arena.used⟩ :: w.live⟩
  | call {arena : HugePages} {younger older : List Lifetime} {x : Lifetime} {call : Call x.T}
      {r : Reply x.T} {v : BufferValue Unit x.T} (h : x.Serves call r v) :
      Step sizeofQueue ⟨arena, younger ++ x :: older⟩ ⟨arena, younger ++ x.write v :: older⟩
  | destroy {arena arena' : HugePages} {x : Lifetime} {older : List Lifetime}
      (h : x.destroy sizeofQueue arena = some arena') :
      Step sizeofQueue ⟨arena, x :: older⟩ ⟨arena', older⟩

end Arena

end AtomicQueue
