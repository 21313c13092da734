import AtomicQueue.Model.Queue
import AtomicQueue.Common.Channels.Basic
import AtomicQueue.Common.Tickets
/-!
# The queue with its history

The code keeps two counters modulo `2 ^ 32` and no record of who claimed
what. The statements about its runs speak of the numbers of all claims made,
of the order of calls and returns, and of the push an element came from. The
history records these beside the state, and no step reads it.

Claims are numbered from zero on either counter. A slot is a channel: a
`do_push` that wins the slot puts its number there, and a `do_pop` that
wins it takes the number it finds.
-/

namespace AtomicQueue

/-- A call: when it began, and how many claims had been made on `head_`
and on `tail_` by then. -/
structure Entry where
  time : ℕ
  pushes : ℕ
  pops : ℕ
  deriving DecidableEq

/-- A return of a push, or of a pop, with the number it had claimed. -/
structure Return (ι T : Type) where
  thread : ι
  no : ℕ
  element : T
  call : Entry
  time : ℕ
  deriving DecidableEq

/-- **What has happened so far.** The tickets are of the claims, a push's
with its element; `stored` and `received` hold the calls that returned, in
the order of their returns. -/
structure History (n : ℕ) (ι T : Type) where
  clock : ℕ
  chan : Channels (Fin n) (Ticket ι T) (Ticket ι Unit)
  /-- The latest call of a thread. -/
  entry : ι → Entry
  /-- The number of the latest claim of a thread on `head_`, -/
  pushNo : ι → ℕ
  /-- and on `tail_`. -/
  popNo : ι → ℕ
  stored : List (Return ι T)
  received : List (Return ι T)

namespace History

variable {n : ℕ} {T ι : Type} [DecidableEq ι] (h : History n ι T)

def empty : History n ι T where
  clock := 0
  chan := .empty
  entry _ := ⟨0, 0, 0⟩
  pushNo _ := 0
  popNo _ := 0
  stored := []
  received := []

/-- The claims made on `head_` so far. -/
abbrev pushes : ℕ := h.chan.pushes.length

/-- The claims made on `tail_` so far. -/
abbrev pops : ℕ := h.chan.pops.length

/-- The element of the push with number `k`. -/
def element (k : ℕ) : Option T := h.chan.pushes[k]?.map Ticket.datum

/-- The return of a call of thread `t` at the current time. -/
def returns (t : ι) (no : ℕ) (element : T) : Return ι T :=
  ⟨t, no, element, h.entry t, h.clock + 1⟩

/-- Slot `i` is won by thread `t` in `do_push`. -/
def put (t : ι) (i : Fin n) : Channels (Fin n) (Ticket ι T) (Ticket ι Unit) :=
  h.chan.put i (h.pushNo t)

/-- Slot `i` is won by thread `t` in `do_pop`. -/
def take (t : ι) (i : Fin n) : Channels (Fin n) (Ticket ι T) (Ticket ι Unit) :=
  match h.chan.cell i with
  | some k => h.chan.take i (h.popNo t) k
  | none => h.chan

/-- **One step of thread `t` later.** -/
def record (t : ι) : Event T n → History n ι T
  | .call _ =>
    { h with
      clock := h.clock + 1
      entry := Function.update h.entry t ⟨h.clock + 1, h.pushes, h.pops⟩ }
  | .silent | .refuse | .sized _ => { h with clock := h.clock + 1 }
  | .claimPush element =>
    { h with
      clock := h.clock + 1
      chan := h.chan.push ⟨t, element⟩
      pushNo := Function.update h.pushNo t h.pushes }
  | .claimPop =>
    { h with
      clock := h.clock + 1
      chan := h.chan.pop ⟨t, ()⟩
      popNo := Function.update h.popNo t h.pops }
  | .pushAt element i wins ends =>
    { h with
      clock := h.clock + 1
      chan := if wins then h.put t i else h.chan
      stored := if ends then h.stored ++ [h.returns t (h.pushNo t) element] else h.stored }
  | .popAt i wins result =>
    { h with
      clock := h.clock + 1
      chan := if wins then h.take t i else h.chan
      received := h.received ++ (result.map (h.returns t (h.popNo t))).toList }

end History

/-- **The queue, its threads and what they have done.** -/
structure World {T : Type} [DecidableEq T] (D : Derived T) (ι : Type) extends State D ι where
  hist : History D.ring.slots ι T

namespace World

variable {T ι : Type} [DecidableEq T] [DecidableEq ι] {D : Derived T}

def init (D : Derived T) (ι : Type) [DecidableEq ι] : World D ι where
  toState := State.init D ι
  hist := .empty

def step (w : World D ι) (a : Act ι T) : Option (World D ι) :=
  (w.toState.step a).map fun r => ⟨r.1, w.hist.record a.thread r.2⟩

end World

/-- **The queue as a transition system.** -/
def machine {T : Type} [DecidableEq T] (D : Derived T) (ι : Type) [DecidableEq ι] :
    Machine (World D ι) (Act ι T) where
  init := World.init D ι
  step := World.step

/-! ## Worked runs -/

/-- A queue of two slots. -/
def twoSlots (spsc_ : Bool) (elements : Elements ℕ) : Derived ℕ where
  ring := Ring.ofArray false 2 1 .and (by decide)
  spsc_ := spsc_
  maximizeThroughput_ := true
  elements := elements

/-- A call of thread `t` and its first `n` steps. -/
def Act.run {ι T : Type} (t : ι) (op : Op T) (n : ℕ) : List (Act ι T) :=
  .call t op :: List.replicate n (.step t false)

end AtomicQueue
