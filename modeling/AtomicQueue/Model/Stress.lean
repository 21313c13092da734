import AtomicQueue.Common.Double
import AtomicQueue.Concurrent.Shared
import AtomicQueue.Model.Barrier
import Mathlib.Data.BitVec
import Mathlib.Algebra.BigOperators.Group.Finset.Defs
import Mathlib.Data.Fintype.Sum
import Mathlib.Tactic.DeriveFintype
/-!
# The programs that run the queue

The stress test of `tests.cc`, `example.cc` and the throughput benchmark of
`benchmarks.cc` are one program but for a few values: threads that push
`n_msg`, …, `2`, `1`, threads that pop and add up until a message tells them
to stop, and the thread that starts and joins them. In the first two that
thread pushes the messages that stop the consumers, after the producers have
ended; in the third the last message of a producer stops a consumer.

They run the queue of `Model.Queue`, over the same memory: a step is a call,
the next step of a call, or one outside the queue.
-/

namespace AtomicQueue

/-- `uint64_t`. -/
abbrev Word64 := BitVec 64

namespace Stress

/-- **What the programs differ in.** -/
structure Program where
  producers : ℕ
  consumers : ℕ
  /-- How many messages a producer pushes. -/
  n_msg : Word
  /-- The message that stops a consumer, -/
  stop : Word
  /-- and how many of them the main thread pushes. -/
  stops : ℕ
  /-- Whether producers and consumers start from a `Barrier2`. -/
  barrier : Bool
  /-- Whether the queue is one of `RetryDecorator`. -/
  retries : Bool
  /-- Whether a sum starts from `1` and includes the message that stops. -/
  biased : Bool

/-- The threads of a program. -/
inductive Thread (P C : ℕ)
  | producer (i : Fin P)
  | consumer (i : Fin C)
  | main
  deriving DecidableEq, Fintype

/-- **Where a thread is.** At `push`, `stop` and `pop` it is before a call of
the queue or in it. -/
inductive Pc
  | countdown (pc : Barrier2.Pc)
  /-- A producer, with its loop variable. -/
  | push (n : Word)
  /-- A consumer, with its sum. -/
  | pop (sum : Word64)
  | stopped (sum : Word64)
  /-- The main thread, joining the producers, -/
  | joinProducers
  /-- with `left` consumers to stop, -/
  | stop (left : ℕ)
  /-- and joining these. -/
  | joinConsumers
  | done
  deriving DecidableEq

/-- A thread that a join returns for. -/
def Pc.ended : Pc → Bool
  | .stopped _ | .done => true
  | _ => false

namespace Program

variable (p : Program)

abbrev Thread : Type := Stress.Thread p.producers p.consumers

/-- `for(T n = n_msg; n; --n)`, with `n` as given. -/
def pushLoop (n : Word) : Pc := if n ≠ 0 then .push n else .done

/-- `for(auto& consumer : consumers)`, with `left` to go. -/
def stopLoop (left : ℕ) : Pc := if left ≠ 0 then .stop left else .joinConsumers

/-- A thread past the barrier. In the benchmark the loop of a producer is a
`do … while`. -/
def start : p.Thread → Pc
  | .producer _ => if p.biased then .push p.n_msg else pushLoop p.n_msg
  | .consumer _ => .pop (if p.biased then 1 else 0)
  | .main => .joinProducers

def first (t : p.Thread) : Pc :=
  match t with
  | .main => p.start .main
  | t => if p.barrier then .countdown .decrement else p.start t

/-- **The call a thread makes next.** `RetryDecorator` tries. -/
def call : Pc → Option (Op Word)
  | .push n => some (if p.retries then .tryPush n else .push n)
  | .stop _ => some (if p.retries then .tryPush p.stop else .push p.stop)
  | .pop _ => some (if p.retries then .tryPop else .pop)
  | _ => none

/-- **Where a thread goes on** as its call returns. After one refused it
calls again. -/
def resume : Pc → Answer Word → Pc
  | .push n, .done => pushLoop (n - 1)
  | .stop left, .done => stopLoop (left - 1)
  | .pop sum, .element n =>
    if n ≠ p.stop then .pop (sum + n.setWidth 64)
    else .stopped (if p.biased then sum + n.setWidth 64 else sum)
  | pc, _ => pc

/-- `(n_msg + 1) * .5 * n_msg` -/
def producer_sum : Float.Model.UnpackedFloat :=
  let n := p.n_msg.toNat
  Double.mul (Double.mul (Double.ofNat (n + 1)) Double.half) (Double.ofNat n)

/-- **The sum the program expects**, computed in `double`. The benchmark
converts that of one producer and multiplies it as a `long long`. -/
def expected_sum : Word64 :=
  if p.biased then BitVec.ofInt 64 (Double.trunc p.producer_sum) * BitVec.ofNat 64 p.producers
  else BitVec.ofInt 64 (Double.trunc (Double.mul p.producer_sum (Double.ofNat p.producers)))

end Program

/-- **A queue and a program that runs it.** -/
structure World (D : Derived Word) (p : Program) where
  queue : AtomicQueue.World D p.Thread
  /-- The counter of the barrier. -/
  counter : Word
  pc : p.Thread → Pc

/-- What a thread can do: call the queue, take the next step of its call, or
one outside the queue. -/
inductive Act (p : Program)
  | call (t : p.Thread)
  | step (t : p.Thread) (weak : Bool)
  | own (t : p.Thread)

namespace World

variable {D : Derived Word} {p : Program} (s : World D p)

def init (D : Derived Word) (p : Program) : World D p where
  queue := .init D p.Thread
  counter := BitVec.ofNat 32 (p.producers + p.consumers)
  pc := p.first

/-- What the call of thread `t` returns with its next step, if it does. -/
def answer (t : p.Thread) (weak : Bool) : Option (Answer Word) :=
  match s.queue.visible (.step t weak) with
  | [.reply _ r] => some r
  | _ => none

/-- A step outside the queue. -/
def own (t : p.Thread) : Option (Word × Pc) :=
  match s.pc t with
  | .countdown pc =>
    (Barrier2.advance s.counter pc).map fun r =>
      (r.1, match r.2 with
        | .returned _ => p.start t
        | pc => .countdown pc)
  | .joinProducers =>
    if ∀ i, (s.pc (.producer i)).ended = true then some (s.counter, Program.stopLoop p.stops)
    else none
  | .joinConsumers =>
    if ∀ i, (s.pc (.consumer i)).ended = true then some (s.counter, .done) else none
  | _ => none

def step : Act p → Option (World D p)
  | .call t =>
    (p.call (s.pc t)).bind fun op =>
      (s.queue.step (.call t op)).map fun queue => { s with queue }
  | .step t weak =>
    (s.queue.step (.step t weak)).map fun queue =>
      match s.answer t weak with
      | some r => { s with queue, pc := Function.update s.pc t (p.resume (s.pc t) r) }
      | none => { s with queue }
  | .own t => (s.own t).map fun r => { s with counter := r.1, pc := Function.update s.pc t r.2 }

/-- What thread `t` does next. -/
def turn (t : p.Thread) (weak : Bool) : Act p :=
  match s.queue.pc t with
  | .idle => if (p.call (s.pc t)).isSome then .call t else .own t
  | _ => .step t weak

/-- What the main thread adds for a consumer, in whose sum it takes the bias
off. -/
def result (i : Fin p.consumers) : Word64 :=
  match s.pc (.consumer i) with
  | .stopped sum => if p.biased then (if sum ≠ 0 then sum - 1 else 0) else sum
  | _ => 0

/-- **The sum the program checks.** -/
def total : Word64 := ∑ i, s.result i

end World

/-- **A program as a transition system.** -/
def machine (D : Derived Word) (p : Program) : Machine (World D p) (Act p) where
  init := .init D p
  step := World.step

/-- **A program whose threads take turns**, in each of which a thread does
what it does next. -/
def turns (D : Derived Word) (p : Program) : Machine (World D p) (p.Thread × Bool) where
  init := .init D p
  step s a := s.step (s.turn a.1 a.2)

/-! ## The programs -/

/-- `stress` of `tests.cc`. -/
def stress (is_spsc retries : Bool) : Program where
  producers := if is_spsc then 1 else 3
  consumers := if is_spsc then 1 else 3
  n_msg := 1000000
  stop := -1
  stops := if is_spsc then 1 else 3
  barrier := true
  retries := retries
  biased := false

/-- `main` of `example.cc`. -/
def exampleMain : Program where
  producers := 1
  consumers := 2
  n_msg := 1000000
  stop := 0
  stops := 2
  barrier := false
  retries := false
  biased := false

/-- The throughput benchmark, whose main thread is its first producer before
it joins the others. -/
def throughput (n_threads : ℕ) (n_producer_msg : Word) (retries : Bool) : Program where
  producers := n_threads
  consumers := n_threads
  n_msg := n_producer_msg
  stop := 1
  stops := 0
  barrier := true
  retries := retries
  biased := true

end Stress

end AtomicQueue
