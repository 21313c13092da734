import AtomicQueue.Model.Ring
/-!
# One slot: `do_push` and `do_pop`

`AtomicQueueCommon` calls `do_push` and `do_pop` of its `Derived` class
with the position claimed. There are two kinds of slot, atomic elements
with a reserved value `NIL` and elements guarded by a state byte, and
each is accessed in two ways, by plain loads and stores where there is
one producer and one consumer (`spsc_`), else by read-modify-writes.

A `Layout` is one kind of slot accessed in one way: its memory, the
points of the code of `do_push` and `do_pop` between two accesses to that
memory, and what each access does. Every access is one step; the
assignment to and the move out of a non-atomic element are two steps
each, their begin and their end.
-/

namespace AtomicQueue

/-- After a step of `do_push`: another point of it, or its return. -/
inductive PushOut (P : Type)
  | next (p : P)
  | done

/-- After a step of `do_pop`: another point of it, or its return. -/
inductive PopOut (P T : Type)
  | next (p : P)
  | done (element : T)

/-- **A kind of slot and its access code.** -/
structure Layout (T : Type) where
  /-- The memory of one slot. -/
  Cell : Type
  /-- The points of `do_push`, -/
  Push : Type
  /-- and those of `do_pop`. -/
  Pop : Type
  /-- A slot as constructed. -/
  fresh : Cell
  /-- What may be pushed: the assertion of `do_push`. -/
  admits : T → Bool
  pushEntry : Push
  popEntry : Pop
  /-- A step of `do_push(element, …)`. With `weak` a
  `compare_exchange_weak` fails whatever it finds. -/
  pushStep (weak : Bool) (element : T) : Cell → Push → Cell × PushOut Push
  popStep (weak : Bool) : Cell → Pop → Cell × PopOut Pop T
  /-- The points past the access that won the slot. -/
  pushOwns : Push → Bool
  popOwns : Pop → Bool
  /-- The slot is in the state that `do_push` waits for, -/
  awaitsPush : Cell → Bool
  /-- and that `do_pop` waits for. -/
  awaitsPop : Cell → Bool

/-! ## Atomic elements -/

namespace AtomicElements

variable {T : Type} [DecidableEq T] (nil_ : T) (maximizeThroughput_ : Bool)

/-- `load` and `store` are the code with `spsc_`, the others without. -/
inductive Push
  | load
  | store
  | compareExchange
  | pause
  deriving DecidableEq

inductive Pop (T : Type)
  | load
  | store (element : T)
  | exchange
  | pause
  deriving DecidableEq

def pushStep (weak : Bool) (element qElement : T) : Push → T × PushOut Push
  | .load => (qElement, .next (if qElement ≠ nil_ then .load else .store))
  | .store => (element, .done)
  | .compareExchange =>
    if qElement = nil_ ∧ weak = false then (element, .done) else (qElement, .next .pause)
  | .pause =>
    (qElement, .next (if maximizeThroughput_ ∧ qElement ≠ nil_ then .pause else .compareExchange))

def popStep (qElement : T) : Pop T → T × PopOut (Pop T) T
  | .load => (qElement, .next (if qElement ≠ nil_ then .store qElement else .load))
  | .store element => (nil_, .done element)
  | .exchange => (nil_, if qElement ≠ nil_ then .done qElement else .next .pause)
  | .pause =>
    (qElement, .next (if maximizeThroughput_ ∧ qElement = nil_ then .pause else .exchange))

/-- `AtomicQueueCommon::do_push` and `do_pop` on `std::atomic<T>` slots. -/
def layout (spsc_ : Bool) : Layout T where
  Cell := T
  Push := Push
  Pop := Pop T
  fresh := nil_
  admits element := element ≠ nil_
  pushEntry := if spsc_ then .load else .compareExchange
  popEntry := if spsc_ then .load else .exchange
  pushStep := pushStep nil_ maximizeThroughput_
  popStep _ := popStep nil_ maximizeThroughput_
  pushOwns p := p = .store
  popOwns
    | .store _ => true
    | _ => false
  awaitsPush qElement := qElement = nil_
  awaitsPop qElement := qElement ≠ nil_

end AtomicElements

/-! ## Elements guarded by a state -/

/-- `StateE`. -/
inductive StateE
  | EMPTY
  | STORED
  | STORING
  | LOADING
  deriving DecidableEq

/-- What the element type leaves open: the element a slot is constructed
with, what a move out leaves behind, and what is in a slot while an
assignment to it is under way. -/
structure ElementType (T : Type) where
  initial : T
  movedFrom : T → T
  torn : T → T → T

namespace StateElements

variable {T : Type}

/-- `states_[i]` and `elements_[i]`. -/
structure Cell (T : Type) where
  state : StateE
  element : T

/-- `load` is the code with `spsc_`, `compareExchange` and `pause` the code
without. `assign` is before the begin and `assigning` before the end of
the assignment, `publish` before the store of `STORED`. -/
inductive Push
  | load
  | compareExchange
  | pause
  | assign
  | assigning
  | publish
  deriving DecidableEq

/-- `move` is before the begin and `moving` before the end of the move
out, `release` before the store of `EMPTY`. -/
inductive Pop (T : Type)
  | load
  | compareExchange
  | pause
  | move
  | moving
  | release (element : T)
  deriving DecidableEq

variable (E : ElementType T) (maximizeThroughput_ : Bool)

def pushStep (weak : Bool) (element : T) (c : Cell T) : Push → Cell T × PushOut Push
  | .load => (c, .next (if c.state ≠ .EMPTY then .load else .assign))
  | .compareExchange =>
    if c.state = .EMPTY ∧ weak = false then ({ c with state := .STORING }, .next .assign)
    else (c, .next .pause)
  | .pause =>
    (c, .next (if maximizeThroughput_ ∧ c.state ≠ .EMPTY then .pause else .compareExchange))
  | .assign => ({ c with element := E.torn c.element element }, .next .assigning)
  | .assigning => ({ c with element := element }, .next .publish)
  | .publish => ({ c with state := .STORED }, .done)

def popStep (weak : Bool) (c : Cell T) : Pop T → Cell T × PopOut (Pop T) T
  | .load => (c, .next (if c.state ≠ .STORED then .load else .move))
  | .compareExchange =>
    if c.state = .STORED ∧ weak = false then ({ c with state := .LOADING }, .next .move)
    else (c, .next .pause)
  | .pause =>
    (c, .next (if maximizeThroughput_ ∧ c.state ≠ .STORED then .pause else .compareExchange))
  | .move => (c, .next .moving)
  | .moving => ({ c with element := E.movedFrom c.element }, .next (.release c.element))
  | .release element => ({ c with state := .EMPTY }, .done element)

def pushOwns : Push → Bool
  | .assign | .assigning | .publish => true
  | _ => false

def popOwns : Pop T → Bool
  | .move | .moving | .release _ => true
  | _ => false

/-- `AtomicQueueCommon::do_push` and `do_pop` on states and elements. -/
def layout (spsc_ : Bool) : Layout T where
  Cell := Cell T
  Push := Push
  Pop := Pop T
  fresh := ⟨.EMPTY, E.initial⟩
  admits _ := true
  pushEntry := if spsc_ then .load else .compareExchange
  popEntry := if spsc_ then .load else .compareExchange
  pushStep := pushStep E maximizeThroughput_
  popStep := popStep E maximizeThroughput_
  pushOwns := pushOwns
  popOwns := popOwns
  awaitsPush c := c.state = .EMPTY
  awaitsPop c := c.state = .STORED

end StateElements

/-! ## The `Derived` class -/

/-- The two kinds of slot. -/
inductive Elements (T : Type)
  /-- `AtomicQueue`, `AtomicQueueB`: `elements_` with the value `nil_`. -/
  | atomic (nil_ : T)
  /-- `AtomicQueue2`, `AtomicQueueB2`: `states_` and `elements_`. -/
  | states (E : ElementType T)

/-- **What `AtomicQueueCommon` reads of its `Derived`.** `total_order_`
chooses a memory order only and is left out. -/
structure Derived (T : Type) where
  ring : Ring
  spsc_ : Bool
  maximizeThroughput_ : Bool
  elements : Elements T

def Derived.layout {T : Type} [DecidableEq T] (D : Derived T) : Layout T :=
  match D.elements with
  | .atomic nil_ => AtomicElements.layout nil_ D.maximizeThroughput_ D.spsc_
  | .states E => StateElements.layout E D.maximizeThroughput_ D.spsc_

end AtomicQueue
