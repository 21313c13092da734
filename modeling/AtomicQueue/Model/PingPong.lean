import AtomicQueue.Common.Schedule
import AtomicQueue.Model.Remap
/-!
# The ping-pong benchmark

`ping_pong_sender` and `ping_pong_receiver` of `benchmarks.cc`, from the
start both make together on. A push or a pop of a queue is one step, and
the test that ends a loop another. A push into a full queue and a pop from
an empty one wait.
-/

namespace AtomicQueue

namespace PingPong

/-- `NIL` of a queue of `unsigned`. -/
def NIL : Word := 0

/-- A FIFO queue, with the record of all that was pushed into it. -/
structure Queue where
  capacity : ℕ
  elements : List Word := []
  pushed : List Word := []

def Queue.push (q : Queue) (n : Word) : Option Queue :=
  if q.elements.length < q.capacity then
    some { q with elements := q.elements ++ [n], pushed := q.pushed ++ [n] }
  else none

def Queue.pop (q : Queue) : Option (Word × Queue) :=
  match q.elements with
  | [] => none
  | n :: elements => some (n, { q with elements })

/-- Where `ping_pong_sender` is, with its `n`. -/
inductive Sender
  | push (n : Word)
  | pop
  | test (n : Word)
  | done
  deriving DecidableEq

/-- Where `ping_pong_receiver` is, with its `n`. -/
inductive Receiver
  | pop
  | push (n : Word)
  | test (n : Word)
  | done
  deriving DecidableEq

inductive Thread
  | sender
  | receiver
  deriving DecidableEq

/-- The two threads and their queues. -/
structure World where
  sender : Sender
  receiver : Receiver
  q1 : Queue
  q2 : Queue

/-- `do { q1.push(n); n = q2.pop(); } while(n-- > 1);` -/
def World.pingPongSender (w : World) : Option World :=
  match w.sender with
  | .push n => (w.q1.push n).map fun q1 => { w with sender := .pop, q1 }
  | .pop => w.q2.pop.map fun r => { w with sender := .test r.1, q2 := r.2 }
  -- `n--` compares before it decrements
  | .test n => some { w with sender := if n > 1 then .push (n - 1) else .done }
  | .done => none

/-- `do { n = q1.pop() - 1; q2.push(n); } while(n > 1);` -/
def World.pingPongReceiver (w : World) : Option World :=
  match w.receiver with
  -- here the decrement comes before the push and the test
  | .pop => w.q1.pop.map fun r => { w with receiver := .push (r.1 - 1), q1 := r.2 }
  | .push n => (w.q2.push n).map fun q2 => { w with receiver := .test n, q2 }
  | .test n => some { w with receiver := if n > 1 then .pop else .done }
  | .done => none

def World.step (w : World) : Thread → Option World
  | .sender => w.pingPongSender
  | .receiver => w.pingPongReceiver

/-- `SharedState::n_producer_msg`. -/
def nProducerMsg (n_msg n_threads : ℕ) : Word :=
  BitVec.ofNat 32 ((n_msg + (n_threads - 1)) / n_threads)

/-- **The ping-pong of `n_msg` messages** over empty queues of these
capacities, between one sender and one receiver. -/
def machine (n_msg c1 c2 : ℕ) : Machine World Thread where
  init := ⟨.push (nProducerMsg n_msg 1), .pop, { capacity := c1 }, { capacity := c2 }⟩
  step := World.step

/-- Both loops have ended. -/
def World.Done (w : World) : Prop := w.sender = .done ∧ w.receiver = .done

end PingPong

end AtomicQueue
