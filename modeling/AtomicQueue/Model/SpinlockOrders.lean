import AtomicQueue.Model.Spinlock
import AtomicQueue.Common.Views.Critical
import Mathlib.Algebra.Group.Nat.Defs
/-!
# Calls under a `LockGuard`

`TicketSpinlock` on a memory with orders. The `fetch_add` on `ticket_` is
relaxed, so a thread may have seen nothing of the owners before it when it
has its ticket, and it may load values of `next_` that are out of date. The
load acquires what the store of an `unlock(ticket)` releases.

A call is `lock()`, the accesses to what the lock guards, which is plain
memory, and `unlock(ticket)` as the guard is destructed.
-/

namespace AtomicQueue

open Views Object

namespace TicketSpinlock

variable {N C R ι : Type} {W : N → Type}

/-- The atomic members. -/
inductive Loc
  | ticket_
  | next_
  deriving DecidableEq

/-- Where a thread is with a call that runs under the lock. -/
inductive GuardPc (W : N → Type) (C R : Type)
  | idle
  /-- In `lock()`, before the `fetch_add` on `ticket_`, -/
  | fetchAdd (c : C)
  /-- before the load of `next_`, -/
  | load (c : C) (ticket : Word)
  /-- and in the back-off loop, `position` turns before the end. -/
  | pause (c : C) (ticket position : Word)
  /-- In the scope of the guard, with what is left to do. -/
  | locked (ticket : Word) (body : Body W R)

/-- **The next access**, and what the call returns if it is the last. -/
def code (body : C → Body W R) :
    GuardPc W C R → Option (Instr (fun _ : Loc => Word) W (GuardPc W C R × Option R))
  | .idle => none
  | .fetchAdd c => some (.rmw .ticket_ .relaxed (· + 1) fun ticket => (.load c ticket, none))
  | .load c ticket =>
    some (.load .next_ .acquire fun next =>
      let position := ticket - next
      (if position = 0 then .locked ticket (body c) else .pause c ticket position, none))
  | .pause c ticket position =>
    let position := position - 1
    some (.pause (if position ≠ 0 then .pause c ticket position else .load c ticket, none))
  | .locked ticket (.access n writes f k) =>
    some (.plain n writes f fun y => (.locked ticket (k y), none))
  | .locked ticket (.ret r) => some (.store .next_ (ticket + 1) .release (.idle, some r))

/-- **Threads that call under one `TicketSpinlock`.** -/
structure Guarded (W : N → Type) (C R ι : Type) where
  mem : Memory ι (fun _ : Loc => Word) W
  view : ι → View ι Loc
  pc : ι → GuardPc W C R

namespace Guarded

/-- What a thread can do: call, do something of its own outside any call, or
make its next access. -/
inductive Act (ι C : Type)
  | call (t : ι) (c : C)
  | work (t : ι)
  | step (t : ι) (c : Choice)

/-- A step of thread `t`, with the places of the message it reads and of the
one it stores. -/
def Act.access (t : ι) (c : ℕ × ℕ) : Act ι C := .step t ⟨c.1, c.2, false⟩

/-- Both members `0`, what they guard as constructed. -/
def init (C R ι : Type) (plain : ∀ n, W n) : Guarded W C R ι where
  mem :=
    { msgs := fun _ τ => if τ = 0 then some ⟨0, ⊥⟩ else none
      plain := plain
      log := fun _ => [] }
  view _ := ⊥
  pc _ := .idle

/-- Fewer tickets have been taken than there are: nothing is at this place
of `ticket_`, after which its values come again. -/
def Unturned (s : Guarded W C R ι) : Prop := s.mem.msgs .ticket_ (2 ^ 32) = none

instance (s : Guarded W C R ι) : Decidable s.Unturned :=
  inferInstanceAs (Decidable (s.mem.msgs .ticket_ (2 ^ 32) = none))

variable [DecidableEq ι]

/-- Thread `t` moves to `pc`, leaving memory `m` and having seen `v`. -/
def next (s : Guarded W C R ι) (t : ι) (m : Memory ι (fun _ : Loc => Word) W) (v : View ι Loc)
    (pc : GuardPc W C R) : Guarded W C R ι where
  mem := m
  view := Function.update s.view t v
  pc := Function.update s.pc t pc

def step [DecidableEq N] (body : C → Body W R) (s : Guarded W C R ι) :
    Act ι C → Option (Guarded W C R ι)
  | .call t c =>
    match s.pc t with
    | .idle => some (s.next t s.mem (s.view t) (.fetchAdd c))
    | _ => none
  | .work t =>
    match s.pc t with
    | .idle => some (s.next t s.mem (tick (s.view t) t) .idle)
    | _ => none
  | .step t c =>
    (code body (s.pc t)).bind fun i =>
      (i.exec c t s.mem (s.view t)).map fun r => s.next t r.1 r.2.1 r.2.2.1

/-- What is seen of a step. A call returns as it unlocks. -/
def visible (s : Guarded W C R ι) : Act ι C → List (Visible ι C R)
  | .call t c => [.call t c]
  | .work _ => []
  | .step t _ =>
    match s.pc t with
    | .locked _ (.ret r) => [.reply t r]
    | _ => []

end Guarded

/-- **Calls under the lock, as a transition system.** -/
def guardedMachine [DecidableEq N] (plain : ∀ n, W n) (body : C → Body W R) (ι : Type)
    [DecidableEq ι] : Machine (Guarded W C R ι) (Guarded.Act ι C) where
  init := Guarded.init C R ι plain
  step := Guarded.step body

end TicketSpinlock

end AtomicQueue
