import AtomicQueue.Model.Remap
import AtomicQueue.Common.Tickets
/-!
# The ticket lock

`TicketSpinlock`: `lock()` takes a ticket and polls `next_` until it is the
ticket, and either `unlock` moves `next_` on. Each access to the two
counters is one step, and so is a turn of the back-off loop. The history
beside the state numbers the tickets without the wrap, and no step reads
it.
-/

namespace AtomicQueue

variable {ι : Type} [DecidableEq ι]

/-- The atomic members of `TicketSpinlock`. -/
structure TicketSpinlock where
  ticket_ : Word
  next_ : Word
  deriving DecidableEq

namespace TicketSpinlock

/-- **Where a thread is.** `out` is outside the lock, `held` between the
return of `lock()` and the call of an `unlock`, with what `lock()`
returned. -/
inductive Pc
  | out
  /-- Before the `fetch_add` on `ticket_`. -/
  | fetchAdd
  /-- Before the load of `next_`. -/
  | load (ticket : Word)
  /-- In the back-off loop, `position` turns before the end. -/
  | pause (ticket position : Word)
  | held (ticket : Word)
  /-- In `unlock()`, before the load of `next_`. -/
  | unlockLoad
  /-- In `unlock(ticket)`, before the store to `next_`, called by the user
  or by `unlock()`. -/
  | unlockStore (argumentless : Bool) (ticket : Word)
  deriving DecidableEq

/-- What a step did: took a ticket, saw its turn, or released the lock by
storing a value. -/
inductive Event
  | silent
  | take
  | grant
  | release (argumentless : Bool) (next : Word)

/-- What a thread can do: call `lock()` or either `unlock`, the one with a
ticket with the one `lock()` returned, or take its next step. A `LockGuard`
is a `lock()` at its construction and an `unlock(ticket)` at its
destruction. -/
inductive Act (ι : Type)
  | lock (t : ι)
  | unlock (t : ι)
  | unlockTicket (t : ι)
  | step (t : ι)

def Act.thread : Act ι → ι
  | .lock t | .unlock t | .unlockTicket t | .step t => t

/-- **The next step of a call.** -/
def advance (m : TicketSpinlock) : Pc → Option (TicketSpinlock × Pc × Event)
  | .out | .held _ => none
  | .fetchAdd => some ({ m with ticket_ := m.ticket_ + 1 }, .load m.ticket_, .take)
  | .load ticket =>
    let position := ticket - m.next_
    if position = 0 then some (m, .held ticket, .grant)
    else some (m, .pause ticket position, .silent)
  | .pause ticket position =>
    let position := position - 1
    some (m, if position ≠ 0 then .pause ticket position else .load ticket, .silent)
  | .unlockLoad => some (m, .unlockStore true (m.next_ + 1), .silent)
  | .unlockStore argumentless ticket =>
    some ({ m with next_ := ticket + 1 }, .out, .release argumentless (ticket + 1))

/-- The first point of a call. -/
def enter : Act ι → Pc → Option Pc
  | .lock _, .out => some .fetchAdd
  | .unlock _, .held _ => some .unlockLoad
  | .unlockTicket _, .held ticket => some (.unlockStore false ticket)
  | _, _ => none

/-- A release: by which `unlock`, of which ticket, and what it stored. -/
structure Release where
  argumentless : Bool
  no : ℕ
  next : Word
  deriving DecidableEq

/-- **The lock, its threads and what they have done.** -/
structure World (ι : Type) where
  mem : TicketSpinlock
  pc : ι → Pc
  tickets : Tickets ι Unit
  released : List Release

namespace World

variable (w : World ι)

/-- As constructed. -/
def init : World ι := ⟨⟨0, 0⟩, fun _ => .out, .empty, []⟩

/-- Thread `t` moves to `pc`, leaving the counters as `m`. -/
def next (t : ι) (m : TicketSpinlock) (pc : Pc) : Event → World ι
  | .silent => { w with mem := m, pc := Function.update w.pc t pc }
  | .take =>
    { w with mem := m, pc := Function.update w.pc t pc, tickets := w.tickets.take t () }
  | .grant =>
    { w with mem := m, pc := Function.update w.pc t pc, tickets := w.tickets.serve t () }
  | .release argumentless stored =>
    { w with
      mem := m
      pc := Function.update w.pc t pc
      tickets := w.tickets.finish t
      released := w.released ++ [⟨argumentless, w.tickets.no t, stored⟩] }

def step : Act ι → Option (World ι)
  | .step t => (advance w.mem (w.pc t)).map fun r => w.next t r.1 r.2.1 r.2.2
  | a => (enter a (w.pc a.thread)).map fun pc => w.next a.thread w.mem pc .silent

/-- The tickets issued and not yet released. -/
def outstanding : ℕ := w.tickets.issued.length - w.tickets.done.length

end World

/-- **The lock as a transition system.** -/
def machine (ι : Type) [DecidableEq ι] : Machine (World ι) (Act ι) where
  init := .init
  step := World.step

end TicketSpinlock

end AtomicQueue
