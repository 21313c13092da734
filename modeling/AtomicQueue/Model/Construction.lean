import AtomicQueue.Model.Buffer
/-!
# Constructors that throw

The constructors of `AtomicQueueB` and `AtomicQueueB2` where an allocation
or the constructor of an element may throw. The members are initialised in
the order `size_`, `states_`, `elements_`, and then the body constructs the
elements one after the other. A constructor that throws has made no object,
so no destructor of the queue runs, and the pointers have none.
-/

namespace AtomicQueue

namespace Construction

/-- Where a constructor can throw. -/
inductive Point
  /-- The allocation of `states_`. -/
  | states_
  /-- The allocation of `elements_`. -/
  | elements_
  /-- The default constructor of the `k`-th element of `AtomicQueueB2`. -/
  | element (k : ℕ)
  deriving DecidableEq

/-- **What the allocators and the element type see**: the buffers, and the
elements that are constructed and not destroyed, each by its array and its
index. -/
structure Memory (A T : Type) where
  states : Heap A (ℕ → StateE)
  elements : Heap A (ℕ → T)
  alive : List (ℕ × ℕ)

variable {A T : Type} (c : BufferClass T) (throws : Point → Bool) (allocator : A) (size_ : Word)

/-- The initialiser of `states_`. -/
def initStates (m : Memory A T) : Except Point (Option ℕ) × Memory A T :=
  if c.hasStates then
    if throws .states_ then (.error .states_, m)
    else
      (.ok (some m.states.length),
        { m with
          states := m.states.allocate allocator (BufferClass.stateCount size_) fun _ => .EMPTY })
  else (.ok none, m)

/-- The initialiser of `elements_`. -/
def initElements (m : Memory A T) : Except Point ℕ × Memory A T :=
  if throws .elements_ then (.error .elements_, m)
  else
    (.ok m.elements.length,
      { m with
        elements :=
          m.elements.allocate allocator (c.elementCount size_) fun _ => c.initialElement })

/-- The elements of the array `p` from the `k`-th on, so many, are
constructed. -/
def constructElements (p : ℕ) : ℕ → ℕ → Memory A T → Except Point Unit × Memory A T
  | 0, _, m => (.ok (), m)
  | n + 1, k, m =>
    if throws (.element k) then (.error (.element k), m)
    else constructElements p n (k + 1) { m with alive := m.alive ++ [(p, k)] }

/-- Whether the construction of an element throws: `uninitialized_fill_n` of
atomic elements does not. -/
def elementThrows : Point → Bool :=
  match c.elements with
  | .atomic _ => fun _ => false
  | .states _ => throws

/-- **The constructor**: the object or the exception, and the memory as it
leaves it. -/
def construct (size : Word) (m : Memory A T) : Except Point (BufferQueue A ℕ ℕ) × Memory A T :=
  let size_ := c.size_ size
  match initStates c throws allocator size_ m with
  | (.error e, m) => (.error e, m)
  | (.ok states_, m) =>
    match initElements c throws allocator size_ m with
    -- nothing deallocates what `states_` points to
    | (.error e, m) => (.error e, m)
    | (.ok elements_, m) =>
      match constructElements (elementThrows c throws) elements_ size_.toNat 0 m with
      | (.error e, m) => (.error e, m)
      | (.ok (), m) => (.ok ⟨allocator, 0, 0, size_, states_, some elements_⟩, m)

end Construction

end AtomicQueue
