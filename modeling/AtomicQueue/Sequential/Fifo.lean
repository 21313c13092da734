import AtomicQueue.Model.Mutex
import AtomicQueue.Common.Object
/-!
# The calls of a queue, and the queue they describe

What the operations are for, with the threads left out: a list of at most
`n` elements, in the order of their pushes. `fifo` says what each call
replies; it says nothing of a `push` onto a full list and of a `pop` from
an empty one, which wait for another thread. The queue classes are objects
that take the same calls: a lock-free queue answers by the steps of one
thread while no other is in a call, a queue behind a mutex at once.
-/

namespace AtomicQueue

variable {T : Type}

/-- A call, `try_pop` with the value of its argument before. -/
inductive Call (T : Type)
  | tryPush (element : T)
  | tryPop (element : T)
  | push (element : T)
  | pop
  | wasSize
  | wasEmpty
  | wasFull
  deriving DecidableEq

/-- A reply. That of `try_push` has its argument where it was not passed
on, that of `try_pop` has its argument after the call. -/
inductive Reply (T : Type)
  | tryPush (ok : Bool) (element : Option T)
  | tryPop (ok : Bool) (element : T)
  | push
  | pop (element : T)
  | size (n : ℕ)
  | flag (b : Bool)
  deriving DecidableEq

/-- A call that appends an element where there is room. -/
def Call.appends : Call T → Bool
  | .tryPush _ | .push _ => true
  | _ => false

/-- `try_push` or `try_pop` returned `false`. -/
def Reply.refused : Reply T → Bool
  | .tryPush ok _ | .tryPop ok _ => !ok
  | _ => false

/-- The elements the reply takes off the list. -/
def Reply.taken : Reply T → ℕ
  | .tryPop true _ | .pop _ => 1
  | _ => 0

/-- **The bounded first-in first-out queue.** -/
def fifo (n : ℕ) (l : List T) : Call T → Option (Reply T × List T)
  | .tryPush x =>
    if l.length < n then some (.tryPush true none, l ++ [x]) else some (.tryPush false (some x), l)
  | .tryPop x =>
    match l with
    | [] => some (.tryPop false x, [])
    | y :: rest => some (.tryPop true y, rest)
  | .push x => if l.length < n then some (.push, l ++ [x]) else none
  | .pop =>
    match l with
    | [] => none
    | y :: rest => some (.pop y, rest)
  | .wasSize => some (.size l.length, l)
  | .wasEmpty => some (.flag (l.length = 0), l)
  | .wasFull => some (.flag (n ≤ l.length), l)

/-- A `try_push` and a `try_pop`, `k` times over, -/
def turns (x y : T) (k : ℕ) : List (Call T) :=
  (List.replicate k [.tryPush x, .tryPop y]).flatten

/-- and their replies on an empty queue. -/
def turnReplies (x : T) (k : ℕ) : List (Reply T) :=
  (List.replicate k [.tryPush true none, .tryPop true x]).flatten

/-- What holds of one turn holds of any number. -/
theorem replies_turns {α : Type*} {spec : α → Call T → Option (Reply T × α)} {a : ℕ → α} {x y : T}
    (h : ∀ k, Object.replies spec (a k) [.tryPush x, .tryPop y] =
      some ([.tryPush true none, .tryPop true x], a (k + 1))) (k : ℕ) :
    Object.replies spec (a 0) (turns x y k) = some (turnReplies x k, a k) := by
  induction k with
  | zero => rfl
  | succ k ih =>
    rw [turns, turnReplies, List.replicate_succ', List.replicate_succ', List.flatten_concat,
      List.flatten_concat, Object.replies_append, ← turns, ih, Option.bind_some, h, Option.map_some,
      turnReplies]

/-! ## The lock-free queues -/

section

variable [DecidableEq T]

/-- The calls a call makes: `was_empty` and `was_full` call `was_size`. -/
def Call.Makes : Call T → Op T → Prop
  | .tryPush x, op => op = .tryPush x
  | .tryPop _, op => op = .tryPop
  | .push x, op => op = .push x
  | .pop, op => op = .pop
  | .wasSize, op | .wasEmpty, op | .wasFull, op => ∃ headFirst, op = .wasSize headFirst

namespace Derived

variable (D : Derived T)

/-- The memory as constructed. -/
def fresh : Mem D := ⟨0, 0, fun _ => D.layout.fresh⟩

/-- The assertion of `do_push` on the element of a call. -/
def Admits : Call T → Prop
  | .tryPush x | .push x => D.layout.admits x = true
  | _ => True

instance : DecidablePred D.Admits
  | .tryPush x | .push x => inferInstanceAs (Decidable (D.layout.admits x = true))
  | .tryPop _ | .pop | .wasSize | .wasEmpty | .wasFull => isTrue trivial

/-- **The points of a call made by one thread alone**, and the memory there,
from memory `m₀`. -/
inductive Within (m₀ : Mem D) (c : Call T) : Mem D → Pc D → Prop
  | begin {op pc} (hop : c.Makes op) (h : D.entry op = some pc) : Within m₀ c m₀ pc
  | step {m pc weak m' pc' e} (hw : Within m₀ c m pc)
      (h : D.advance weak m pc = some (m', pc', e)) (hpc : pc' ≠ .idle) : Within m₀ c m' pc'

/-- What a call replies, by the event it ends with. -/
def reply : Call T → Event T D.ring.slots → Option (Reply T)
  | .tryPush x, .refuse => some (.tryPush false (some x))
  | .tryPush _, .pushAt _ _ _ true => some (.tryPush true none)
  | .tryPop x, .refuse => some (.tryPop false x)
  | .tryPop _, .popAt _ _ (some y) => some (.tryPop true y)
  | .push _, .pushAt _ _ _ true => some .push
  | .pop, .popAt _ _ (some y) => some (.pop y)
  | .wasSize, .sized n => some (.size n)
  | .wasEmpty, .sized n => some (.flag (n = 0))
  | .wasFull, .sized n => some (.flag (D.ring.slots ≤ n))
  | _, _ => none

/-- **A queue called by one thread at a time.** A call is the steps from
its first point to the one that leaves it, spurious failures included. -/
def object : Object (Mem D) (Call T) (Reply T) where
  init := D.fresh
  call m₀ c r m' := ∃ m pc weak e,
    D.Within m₀ c m pc ∧ D.advance weak m pc = some (m', .idle, e) ∧ D.reply c e = some r

/-- A call at this point waits: it has not won its slot, and the slot is
not in the state it waits for. -/
def Waits (m : Mem D) : Pc D → Prop
  | .doPush _ i p => D.layout.pushOwns p = false ∧ D.layout.awaitsPush (m.cell i) = false
  | .doPop i p => D.layout.popOwns p = false ∧ D.layout.awaitsPop (m.cell i) = false
  | _ => False

end Derived

end

/-! ## The queue behind a mutex -/

namespace MutexQueue

variable {R : Ring}

/-- The calls `AtomicQueueMutexT` takes. -/
def Takes : Call T → Prop
  | .tryPush _ | .tryPop _ => True
  | _ => False

def object (R : Ring) (E : ElementType T) : Object (MutexQueue R T) (Call T) (Reply T) where
  init := init E
  call q c r q' :=
    match c with
    | .tryPush x =>
      r = .tryPush (q.tryPush x).1 (if (q.tryPush x).1 then none else some x) ∧ q' = (q.tryPush x).2
    | .tryPop x => r = .tryPop (q.tryPop E x).1 (q.tryPop E x).2.1 ∧ q' = (q.tryPop E x).2.2
    | _ => False

end MutexQueue

/-! ## Worked runs -/

/-- An element type for the runs of the queues. -/
def plain : ElementType ℕ := ⟨0, id, fun _ x => x⟩

/-- Three slots, the index not shuffled. -/
def threeSlots : Ring := .ofArray false 3 16 .and (by decide)

end AtomicQueue
