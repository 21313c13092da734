import AtomicQueue.Model.Layout
import AtomicQueue.Common.Machine
/-!
# The queue and its threads

`AtomicQueueCommon`'s `try_push`, `try_pop`, `push`, `pop` and `was_size`,
run by any number of threads. Each load, store and read-modify-write of `head_`,
`tail_` or a slot is one step, and the steps of the threads interleave in
any order over one sequentially consistent memory. `Pc` has a point for
each place of the code between two such steps, with the local variables
alive there.
-/

namespace AtomicQueue

variable {T ι : Type} [DecidableEq T] [DecidableEq ι]

/-- The shared memory. -/
structure Mem (D : Derived T) where
  head_ : Word
  tail_ : Word
  cell : Fin D.ring.slots → D.layout.Cell

/-- A call. `was_empty` and `was_full` are a call of `was_size`, which
loads `head_` and `tail_` in an order the language leaves open. -/
inductive Op (T : Type)
  | tryPush (element : T)
  | tryPop
  | push (element : T)
  | pop
  | wasSize (headFirst : Bool)

/-- **Where a thread is.** `idle` is outside any call. -/
inductive Pc (D : Derived T)
  | idle
  /-- Before the load of `head_`. -/
  | tryPushLoad (element : T)
  /-- Before the load of `tail_` and the test for full. -/
  | tryPushCheck (element : T) (head : Word)
  /-- Before the `compare_exchange_weak` of (with `spsc_`, the store to)
  `head_`. -/
  | tryPushClaim (element : T) (head : Word)
  | tryPopLoad
  | tryPopCheck (tail : Word)
  | tryPopClaim (tail : Word)
  /-- Before the `fetch_add` on (with `spsc_`, the load of) `head_`. -/
  | pushClaim (element : T)
  /-- With `spsc_`, before the store to `head_`. -/
  | pushStore (element : T) (head : Word)
  | popClaim
  | popStore (tail : Word)
  | wasSizeLoad (headFirst : Bool)
  /-- One counter is loaded, the other not yet. -/
  | wasSizeHead (head : Word)
  | wasSizeTail (tail : Word)
  /-- In `do_push`, on slot `i`. -/
  | doPush (element : T) (i : Fin D.ring.slots) (p : D.layout.Push)
  /-- In `do_pop`, on slot `i`. -/
  | doPop (i : Fin D.ring.slots) (p : D.layout.Pop)

/-- What a step did, as far as a caller or a bookkeeper can tell. -/
inductive Event (T : Type) (n : ℕ)
  | call (op : Op T)
  /-- A load, a failed `compare_exchange`, a pause outside the slot. -/
  | silent
  /-- `try_push` or `try_pop` returned `false`. -/
  | refuse
  /-- `was_size` returned `n`. -/
  | sized (n : ℕ)
  | claimPush (element : T)
  | claimPop
  /-- A step of `do_push` on slot `i`: whether it won the slot, and whether
  it was the last, so that the call returned. -/
  | pushAt (element : T) (i : Fin n) (wins ends : Bool)
  /-- A step of `do_pop` on slot `i`: whether it won the slot, and the
  element if the call returned. -/
  | popAt (i : Fin n) (wins : Bool) (result : Option T)

/-- What a thread can do: call, or take its next step, a
`compare_exchange_weak` failing spuriously where `weak` is set. -/
inductive Act (ι T : Type)
  | call (t : ι) (op : Op T)
  | step (t : ι) (weak : Bool)

def Act.thread : Act ι T → ι
  | .call t _ => t
  | .step t _ => t

namespace Derived

variable (D : Derived T)

/-- The first point of a call. A call that fails the assertion on its
element is none. -/
def entry : Op T → Option (Pc D)
  | .tryPush element => if D.layout.admits element then some (.tryPushLoad element) else none
  | .tryPop => some .tryPopLoad
  | .push element => if D.layout.admits element then some (.pushClaim element) else none
  | .pop => some .popClaim
  | .wasSize headFirst => some (.wasSizeLoad headFirst)

/-- What `was_size` makes of the two counters loaded. -/
def wasSizeOf (head tail : Word) : ℕ := (max (asSigned (head - tail)) 0).toNat

/-- The position `head` is claimed: `head_` moves on and `do_push` begins. -/
def claimPush (m : Mem D) (element : T) (head : Word) :
    Mem D × Pc D × Event T D.ring.slots :=
  ({ m with head_ := head + 1 },
    .doPush element (D.ring.slot head) D.layout.pushEntry, .claimPush element)

/-- The position `tail` is claimed. -/
def claimPop (m : Mem D) (tail : Word) : Mem D × Pc D × Event T D.ring.slots :=
  ({ m with tail_ := tail + 1 }, .doPop (D.ring.slot tail) D.layout.popEntry, .claimPop)

def pushWins (p : D.layout.Push) : PushOut D.layout.Push → Bool
  | .next p' => !D.layout.pushOwns p && D.layout.pushOwns p'
  | .done => !D.layout.pushOwns p

def popWins (p : D.layout.Pop) : PopOut D.layout.Pop T → Bool
  | .next p' => !D.layout.popOwns p && D.layout.popOwns p'
  | .done _ => !D.layout.popOwns p

/-- A step inside `do_push`. -/
def stepPush (weak : Bool) (m : Mem D) (element : T) (i : Fin D.ring.slots)
    (p : D.layout.Push) : Mem D × Pc D × Event T D.ring.slots :=
  let r := D.layout.pushStep weak element (m.cell i) p
  let m' := { m with cell := Function.update m.cell i r.1 }
  match r.2 with
  | .next p' => (m', .doPush element i p', .pushAt element i (D.pushWins p (.next p')) false)
  | .done => (m', .idle, .pushAt element i (D.pushWins p .done) true)

/-- A step inside `do_pop`. -/
def stepPop (weak : Bool) (m : Mem D) (i : Fin D.ring.slots) (p : D.layout.Pop) :
    Mem D × Pc D × Event T D.ring.slots :=
  let r := D.layout.popStep weak (m.cell i) p
  let m' := { m with cell := Function.update m.cell i r.1 }
  match r.2 with
  | .next p' => (m', .doPop i p', .popAt i (D.popWins p (.next p')) none)
  | .done element => (m', .idle, .popAt i (D.popWins p (.done element)) (some element))

/-- **The next step of a call**, from memory `m` at point `pc`. -/
def advance (weak : Bool) (m : Mem D) : Pc D → Option (Mem D × Pc D × Event T D.ring.slots)
  | .idle => none
  | .tryPushLoad element => some (m, .tryPushCheck element m.head_, .silent)
  | .tryPushCheck element head =>
    if asSigned (head - m.tail_) ≥ asSigned D.ring.size_ then some (m, .idle, .refuse)
    else some (m, .tryPushClaim element head, .silent)
  | .tryPushClaim element head =>
    -- with `spsc_` a store, which does not look at `head_` again
    if D.spsc_ then some (D.claimPush m element head)
    else if m.head_ = head ∧ weak = false then some (D.claimPush m element head)
    else some (m, .tryPushCheck element m.head_, .silent)
  | .tryPopLoad => some (m, .tryPopCheck m.tail_, .silent)
  | .tryPopCheck tail =>
    if asSigned (m.head_ - tail) ≤ 0 then some (m, .idle, .refuse)
    else some (m, .tryPopClaim tail, .silent)
  | .tryPopClaim tail =>
    if D.spsc_ then some (D.claimPop m tail)
    else if m.tail_ = tail ∧ weak = false then some (D.claimPop m tail)
    else some (m, .tryPopCheck m.tail_, .silent)
  | .pushClaim element =>
    -- a load and a store with `spsc_`, else one `fetch_add`
    if D.spsc_ then some (m, .pushStore element m.head_, .silent)
    else some (D.claimPush m element m.head_)
  | .pushStore element head => some (D.claimPush m element head)
  | .popClaim =>
    if D.spsc_ then some (m, .popStore m.tail_, .silent)
    else some (D.claimPop m m.tail_)
  | .popStore tail => some (D.claimPop m tail)
  | .wasSizeLoad headFirst =>
    some (m, if headFirst then .wasSizeHead m.head_ else .wasSizeTail m.tail_, .silent)
  | .wasSizeHead head => some (m, .idle, .sized (wasSizeOf head m.tail_))
  | .wasSizeTail tail => some (m, .idle, .sized (wasSizeOf m.head_ tail))
  | .doPush element i p => some (D.stepPush weak m element i p)
  | .doPop i p => some (D.stepPop weak m i p)

/-- `was_size`, on a memory that does not change between its two loads. -/
def wasSize (m : Mem D) : ℕ := wasSizeOf m.head_ m.tail_

end Derived

/-- **The queue with its threads.** -/
structure State (D : Derived T) (ι : Type) where
  mem : Mem D
  pc : ι → Pc D

namespace State

variable {D : Derived T}

/-- As constructed, no thread in a call. -/
def init (D : Derived T) (ι : Type) : State D ι where
  mem := { head_ := 0, tail_ := 0, cell := fun _ => D.layout.fresh }
  pc := fun _ => .idle

/-- The step of one thread, with what it did. -/
def step (s : State D ι) : Act ι T → Option (State D ι × Event T D.ring.slots)
  | .call t op =>
    match s.pc t with
    | .idle => (D.entry op).map fun pc => ({ s with pc := Function.update s.pc t pc }, .call op)
    | _ => none
  | .step t weak =>
    (D.advance weak s.mem (s.pc t)).map fun r =>
      ({ mem := r.1, pc := Function.update s.pc t r.2.1 }, r.2.2)

end State

end AtomicQueue
