import AtomicQueue.Sequential.Fifo
import AtomicQueue.Common.Heap
/-!
# `AtomicQueueB` and `AtomicQueueB2` as objects

The classes that allocate their slots: their members, their special member
functions, `swap` and the destructor, over a heap of buffers. The two
classes differ in what they allocate, `elements_` alone or `states_` and
`elements_`. An allocator is a value that a move preserves. The member
functions are called one at a time.
-/

namespace AtomicQueue

/-- A class, its parameters and its element type as far as they count. -/
structure BufferClass (T : Type) where
  /-- `ELEMENTS_PER_CACHE_LINE`, of `AtomicQueueB2` `STATES_PER_CACHE_LINE`. -/
  elementsPerCacheLine : ℕ
  remapper : Remapper
  spsc_ : Bool
  maximizeThroughput_ : Bool
  /-- `atomic` is `AtomicQueueB` and `states` is `AtomicQueueB2`. -/
  elements : Elements T
  /-- `sizeof` of what `elements_` points to, `std::atomic<T>` or `T`. -/
  sizeofElement : ℕ

/-- **The members of a queue.** The arrays are pointers in an object, and
the arrays themselves in its value. `AtomicQueueB` has no `states_`, which
is null there throughout. -/
structure BufferQueue (A S E : Type) where
  allocator : A
  head_ : Word
  tail_ : Word
  size_ : Word
  states_ : Option S
  elements_ : Option E

/-- A queue and what its arrays hold. -/
abbrev BufferValue (A T : Type) := BufferQueue A (ℕ → StateE) (ℕ → T)

namespace BufferClass

variable {T A : Type} (c : BufferClass T)

/-- `SHUFFLE_BITS`. -/
def shuffleBits : ℕ := getCacheLineIndexBits c.elementsPerCacheLine

/-- Whether the class has `states_`. -/
def hasStates : Bool :=
  match c.elements with
  | .atomic _ => false
  | .states _ => true

/-- The array length a queue asked to hold `size` allocates. -/
def size_ (size : Word) : Word := Ring.bufferSize size c.shuffleBits

/-- What `StorageAllocator` is asked for `size_` objects, in bytes. -/
def storageBytes (size_ : Word) (sizeof : ℕ) : ℕ := size_.toNat * sizeof % 2 ^ 64

/-- The count `elements_` is allocated and deallocated with, -/
def elementCount (size_ : Word) : ℕ :=
  match c.elements with
  | .atomic _ => size_.toNat
  | .states _ => storageBytes size_ c.sizeofElement

/-- and `states_`: `sizeof(AtomicState)` is `1`. -/
def stateCount (size_ : Word) : ℕ := storageBytes size_ 1

/-- The arrays as constructed. -/
def initialElement : T :=
  match c.elements with
  | .atomic nil_ => nil_
  | .states E => E.initial

/-! ## Calls of a queue that owns its buffers -/

/-- The index map stays within an array of this length. -/
def Fits (size_ : Word) : Prop := 0 < size_.toNat ∧ Swappable c.shuffleBits size_

/-- The queue on an array of this length. -/
def derived (size_ : Word) (h : c.Fits size_) : Derived T where
  ring := ⟨size_, c.shuffleBits, c.remapper, h.1, h.2⟩
  spsc_ := c.spsc_
  maximizeThroughput_ := c.maximizeThroughput_
  elements := c.elements

end BufferClass

namespace Derived

variable {T : Type} [DecidableEq T]

/-- The slot in the arrays. -/
def cellOf : (D : Derived T) → StateE → T → D.layout.Cell
  | ⟨_, _, _, .atomic _⟩, _, element => element
  | ⟨_, _, _, .states _⟩, state, element => ⟨state, element⟩

def stateOf : (D : Derived T) → D.layout.Cell → StateE
  | ⟨_, _, _, .atomic _⟩, _ => .EMPTY
  | ⟨_, _, _, .states _⟩, cell => StateElements.Cell.state cell

def elementOf : (D : Derived T) → D.layout.Cell → T
  | ⟨_, _, _, .atomic _⟩, cell => cell
  | ⟨_, _, _, .states _⟩, cell => StateElements.Cell.element cell

end Derived

namespace BufferClass

variable {T A : Type} [DecidableEq T] (c : BufferClass T)

/-- The memory of a queue. -/
def mem (v : BufferValue A T) (h : c.Fits v.size_) (elements : ℕ → T) :
    Mem (c.derived v.size_ h) where
  head_ := v.head_
  tail_ := v.tail_
  cell i := (c.derived v.size_ h).cellOf ((v.states_.map (· i)).getD .EMPTY) (elements i)

/-- The queue whose memory has become `m`. -/
def put (v : BufferValue A T) (h : c.Fits v.size_) (m : Mem (c.derived v.size_ h)) :
    BufferValue A T :=
  { v with
    head_ := m.head_
    tail_ := m.tail_
    states_ := v.states_.map fun states k =>
      if hk : k < v.size_.toNat then (c.derived v.size_ h).stateOf (m.cell ⟨k, hk⟩) else states k
    elements_ := v.elements_.map fun elements k =>
      if hk : k < v.size_.toNat then (c.derived v.size_ h).elementOf (m.cell ⟨k, hk⟩)
      else elements k }

/-- **A call of a queue that owns its buffers**, as the call of the queue
with their contents for its memory. -/
def Serves (v : BufferValue A T) (call : Call T) (r : Reply T) (v' : BufferValue A T) : Prop :=
  ∃ (h : c.Fits v.size_) (elements : ℕ → T) (m : Mem (c.derived v.size_ h)),
    v.elements_ = some elements ∧ (c.derived v.size_ h).object.call (c.mem v h elements) call r m ∧
      v' = c.put v h m

/-- A queue as constructed. -/
def constructed (size : Word) (allocator : A) : BufferValue A T where
  allocator := allocator
  head_ := 0
  tail_ := 0
  size_ := c.size_ size
  states_ := if c.hasStates then some fun _ => .EMPTY else none
  elements_ := some fun _ => c.initialElement

end BufferClass

/-! ## The member functions -/

/-- A member of a class, as it is read and written. -/
structure Member (Q β : Type) where
  get : Q → β
  set : β → Q → Q
  set_get : ∀ q, set (get q) q = q

namespace BufferQueue

variable {A S E : Type}

def allocatorMember : Member (BufferQueue A S E) A :=
  ⟨allocator, fun x q => { q with allocator := x }, fun _ => rfl⟩

def headMember : Member (BufferQueue A S E) Word :=
  ⟨head_, fun x q => { q with head_ := x }, fun _ => rfl⟩

def tailMember : Member (BufferQueue A S E) Word :=
  ⟨tail_, fun x q => { q with tail_ := x }, fun _ => rfl⟩

def sizeMember : Member (BufferQueue A S E) Word :=
  ⟨size_, fun x q => { q with size_ := x }, fun _ => rfl⟩

def statesMember : Member (BufferQueue A S E) (Option S) :=
  ⟨states_, fun x q => { q with states_ := x }, fun _ => rfl⟩

def elementsMember : Member (BufferQueue A S E) (Option E) :=
  ⟨elements_, fun x q => { q with elements_ := x }, fun _ => rfl⟩

/-- The move constructor: the new object, and what it leaves of `b`. -/
def moveConstruct (b : BufferQueue A S E) : BufferQueue A S E × BufferQueue A S E :=
  ({ allocator := b.allocator
     head_ := b.head_
     tail_ := b.tail_
     size_ := b.size_
     states_ := b.states_
     elements_ := b.elements_ },
   { b with size_ := 0, states_ := none, elements_ := none })

end BufferQueue

namespace Buffers

variable {ι A T : Type} [DecidableEq ι]

/-- The objects alive, by their names. -/
abbrev Objects (ι A S E : Type) := ι → Option (BufferQueue A S E)

/-- **The objects and the buffers.** -/
structure World (ι A T : Type) where
  states : Heap A (ℕ → StateE)
  elements : Heap A (ℕ → T)
  objects : Objects ι A ℕ ℕ

section

variable {S E β : Type}

def assign (m : Member (BufferQueue A S E) β) (n : ι) (x : β) (objects : Objects ι A S E) :
    Objects ι A S E :=
  Function.update objects n ((objects n).map (m.set x))

/-- `swap(a.member, b.member)` through a temporary, as `swap_relaxed` and
`std::swap` do it. -/
def swapMember (m : Member (BufferQueue A S E) β) (a b : ι) (objects : Objects ι A S E) :
    Objects ι A S E :=
  match objects a, objects b with
  | some qa, some qb => assign m b (m.get qa) (assign m a (m.get qb) objects)
  | _, _ => objects

/-- `a.swap(b)`. -/
def swap (a b : ι) (objects : Objects ι A S E) : Objects ι A S E :=
  let objects := swapMember BufferQueue.allocatorMember a b objects
  let objects := swapMember BufferQueue.headMember a b objects
  let objects := swapMember BufferQueue.tailMember a b objects
  let objects := swapMember BufferQueue.sizeMember a b objects
  let objects := swapMember BufferQueue.statesMember a b objects
  swapMember BufferQueue.elementsMember a b objects

end

namespace World

variable (c : BufferClass T) (w : World ι A T)

def init : World ι A T := ⟨[], [], fun _ => none⟩

/-- The constructor. -/
def construct (n : ι) (size : Word) (allocator : A) : World ι A T :=
  let size_ := c.size_ size
  let states_ := if c.hasStates then some w.states.length else none
  { states :=
      if c.hasStates then w.states.allocate allocator (BufferClass.stateCount size_) fun _ => .EMPTY
      else w.states
    elements := w.elements.allocate allocator (c.elementCount size_) fun _ => c.initialElement
    objects :=
      Function.update w.objects n
        (some ⟨allocator, 0, 0, size_, states_, some w.elements.length⟩) }

/-- The destructor, of the object `q` named `n`. -/
def destroy (n : ι) (q : BufferQueue A ℕ ℕ) : World ι A T :=
  { states :=
      match q.elements_, q.states_ with
      | some _, some p => w.states.deallocate ⟨p, q.allocator, BufferClass.stateCount q.size_⟩
      | _, _ => w.states
    elements :=
      match q.elements_ with
      | some p => w.elements.deallocate ⟨p, q.allocator, c.elementCount q.size_⟩
      | none => w.elements
    objects := Function.update w.objects n none }

/-- What an object's arrays hold. -/
def view (q : BufferQueue A ℕ ℕ) : BufferValue A T :=
  { q with
    states_ := q.states_.bind w.states.load
    elements_ := q.elements_.bind w.elements.load }

/-- The arrays of an object are written to. -/
def storeAt {X : Type} (heap : Heap A X) : Option ℕ → Option X → Heap A X
  | some p, some x => heap.store p x
  | _, _ => heap

/-- The object `q` named `n` and its arrays become `v`. -/
def write (n : ι) (q : BufferQueue A ℕ ℕ) (v : BufferValue A T) : World ι A T where
  states := storeAt w.states q.states_ v.states_
  elements := storeAt w.elements q.elements_ v.elements_
  objects := Function.update w.objects n (some { q with head_ := v.head_, tail_ := v.tail_ })

end World

/-- An operation. `swap` is the member or the friend function, `call` a
call of a queue that owns its buffers. -/
inductive Op (ι A T : Type)
  | construct (n : ι) (size : Word) (allocator : A)
  | call (n : ι) (call : Call T)
  | swap (a b : ι)
  | moveConstruct (n b : ι)
  | moveAssign (a b : ι)
  | destroy (n : ι)

variable [DecidableEq T] (c : BufferClass T)

/-- **What an operation does.** -/
def perform (w : World ι A T) (op : Op ι A T) (r : Option (Reply T)) (w' : World ι A T) : Prop :=
  match op with
  | .construct n size allocator =>
    w.objects n = none ∧ r = none ∧ w' = w.construct c n size allocator
  | .call n call =>
    ∃ q r' v, w.objects n = some q ∧ c.Serves (w.view q) call r' v ∧ r = some r' ∧
      w' = w.write n q v
  | .swap a b =>
    (w.objects a).isSome ∧ (w.objects b).isSome ∧ r = none ∧
      w' = { w with objects := swap a b w.objects }
  | .moveConstruct n b =>
    w.objects n = none ∧ ∃ q, w.objects b = some q ∧ r = none ∧
      w' = { w with
        objects := Function.update (Function.update w.objects b (some q.moveConstruct.2)) n
          (some q.moveConstruct.1) }
  | .moveAssign a b =>
    -- `b.swap(*this)`
    (w.objects a).isSome ∧ (w.objects b).isSome ∧ r = none ∧
      w' = { w with objects := swap b a w.objects }
  | .destroy n => ∃ q, w.objects n = some q ∧ r = none ∧ w' = w.destroy c n q

/-- The objects, called one after the other. -/
def object : Object (World ι A T) (Op ι A T) (Option (Reply T)) where
  init := .init
  call := perform c

end Buffers

end AtomicQueue
