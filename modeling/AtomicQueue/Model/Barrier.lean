import AtomicQueue.Common.Machine
import AtomicQueue.Model.Remap
/-!
# The barrier the threads of a run start from

`Barrier2`: `countdown()` decrements `counter` and polls it until it is
`0`. The decrement is one step and each load of the polling loop another.
-/

namespace AtomicQueue

namespace Barrier2

variable {ι : Type} [DecidableEq ι]

/-- **Where a thread is** in its call of `countdown()`. -/
inductive Pc
  /-- Before the decrement of `counter`. -/
  | decrement
  /-- In the loop, before a load of `counter`. -/
  | load (caller_idx : Word)
  | returned (caller_idx : Word)
  deriving DecidableEq

/-- **The next step of a call.** -/
def advance (counter : Word) : Pc → Option (Word × Pc)
  | .decrement =>
    let caller_idx := counter - 1
    some (caller_idx, .load caller_idx)
  | .load caller_idx =>
    some (counter, if counter ≠ 0 then .load caller_idx else .returned caller_idx)
  | .returned _ => none

/-- The barrier and the threads that call `countdown()`, each once. -/
structure World (ι : Type) where
  counter : Word
  pc : ι → Pc

/-- Thread `t` takes its next step. -/
def World.step (w : World ι) (t : ι) : Option (World ι) :=
  (advance w.counter (w.pc t)).map fun r => ⟨r.1, Function.update w.pc t r.2⟩

/-- **The barrier as a transition system**, with `counter` as given. -/
def machine (ι : Type) [DecidableEq ι] (counter : Word) : Machine (World ι) ι where
  init := ⟨counter, fun _ => .decrement⟩
  step := World.step

end Barrier2

end AtomicQueue
