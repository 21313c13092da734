import AtomicQueue.Model.History
import AtomicQueue.Common.Views.Guard
/-!
# The queue with its memory orders

The same code with the order of each access as the source has it: `X`
(relaxed) on `head_` and `tail_`, `A`, `R` and `AR` on the slots. A load may
return a value that is out of date, and what a thread has seen passes to
another one only through a release and an acquire. The elements beside the
states are plain memory, whose accesses may race.

`total_order_` makes the `fetch_add`s sequentially consistent; here they
acquire and release then, which leaves them more behaviours.
-/

namespace AtomicQueue

open Views

variable {T : Type}

/-! ## The accesses of `do_push` and `do_pop` -/

/-- **The access code of a slot, with its orders.** The memory of a slot is an
atomic location and a plain one. -/
structure Accesses (L : Layout T) where
  Atom : Type
  Plain : Type
  [decEq : DecidableEq Atom]
  atom : Atom
  plain : Plain
  cell : Atom → Plain → L.Cell
  push (element : T) : L.Push → GuardInstr Atom Plain (PushOut L.Push)
  pop : L.Pop → GuardInstr Atom Plain (PopOut L.Pop T)

attribute [instance] Accesses.decEq

namespace AtomicElements

variable [DecidableEq T] (nil_ : T) (maximizeThroughput_ : Bool)

def pushCode (element : T) : Push → GuardInstr T Unit (PushOut Push)
  | .load => .load () .acquire fun q => .next (if q ≠ nil_ then .load else .store)
  | .store => .store () element .release .done
  | .compareExchange => .cas () nil_ element .acqRel .relaxed .done fun _ => .next .pause
  | .pause =>
    if maximizeThroughput_ then
      .load () .relaxed fun q => .next (if q ≠ nil_ then .pause else .compareExchange)
    else .pause (.next .compareExchange)

def popCode : Pop T → GuardInstr T Unit (PopOut (Pop T) T)
  | .load => .load () .acquire fun q => .next (if q ≠ nil_ then .store q else .load)
  | .store element => .store () nil_ .release (.done element)
  | .exchange =>
    .rmw () .acqRel (fun _ => nil_) fun q => if q ≠ nil_ then .done q else .next .pause
  | .pause =>
    if maximizeThroughput_ then
      .load () .relaxed fun q => .next (if q = nil_ then .pause else .exchange)
    else .pause (.next .exchange)

def accesses (spsc_ : Bool) : Accesses (layout nil_ maximizeThroughput_ spsc_) where
  Atom := T
  Plain := Unit
  atom := nil_
  plain := ()
  cell q _ := q
  push := pushCode nil_ maximizeThroughput_
  pop := popCode nil_ maximizeThroughput_

end AtomicElements

namespace StateElements

variable (E : ElementType T) (maximizeThroughput_ : Bool)

/-- The assignment writes the element from its begin to its end. -/
def pushCode (element : T) : Push → GuardInstr StateE T (PushOut Push)
  | .load => .load () .acquire fun s => .next (if s ≠ .EMPTY then .load else .assign)
  | .compareExchange =>
    .cas () .EMPTY .STORING .acquire .relaxed (.next .assign) fun _ => .next .pause
  | .pause =>
    if maximizeThroughput_ then
      .load () .relaxed fun s => .next (if s ≠ .EMPTY then .pause else .compareExchange)
    else .pause (.next .compareExchange)
  | .assign => .plain () true (fun old => E.torn old element) fun _ => .next .assigning
  | .assigning => .plain () true (fun _ => element) fun _ => .next .publish
  | .publish => .store () .STORED .release .done

/-- So does the move out, which may change the element it moves from. -/
def popCode : Pop T → GuardInstr StateE T (PopOut (Pop T) T)
  | .load => .load () .acquire fun s => .next (if s ≠ .STORED then .load else .move)
  | .compareExchange =>
    .cas () .STORED .LOADING .acquire .relaxed (.next .move) fun _ => .next .pause
  | .pause =>
    if maximizeThroughput_ then
      .load () .relaxed fun s => .next (if s ≠ .STORED then .pause else .compareExchange)
    else .pause (.next .compareExchange)
  | .move => .plain () true id fun _ => .next .moving
  | .moving => .plain () true E.movedFrom fun element => .next (.release element)
  | .release element => .store () .EMPTY .release (.done element)

def accesses (spsc_ : Bool) : Accesses (layout E maximizeThroughput_ spsc_) where
  Atom := StateE
  Plain := T
  atom := .EMPTY
  plain := E.initial
  cell s element := ⟨s, element⟩
  push := pushCode E maximizeThroughput_
  pop := popCode E maximizeThroughput_

end StateElements

/-! ## The accesses of the calls -/

/-- The atomic locations of a queue. -/
inductive Loc (n : ℕ)
  | head
  | tail
  | slot (i : Fin n)
  deriving DecidableEq

variable [DecidableEq T]

namespace Derived

variable (D : Derived T)

def accesses : Accesses D.layout :=
  match D with
  | ⟨_, spsc_, maximizeThroughput_, .atomic nil_⟩ =>
    AtomicElements.accesses nil_ maximizeThroughput_ spsc_
  | ⟨_, spsc_, maximizeThroughput_, .states E⟩ =>
    StateElements.accesses E maximizeThroughput_ spsc_

/-- What the atomic locations hold, -/
abbrev Value : Loc D.ring.slots → Type
  | .head | .tail => Word
  | .slot _ => D.accesses.Atom

instance : ∀ ℓ : Loc D.ring.slots, DecidableEq (D.Value ℓ)
  | .head | .tail => inferInstanceAs (DecidableEq Word)
  | .slot _ => D.accesses.decEq

/-- and what is beside them in the slots. -/
abbrev Plain : Fin D.ring.slots → Type := fun _ => D.accesses.Plain

/-- The order of the `fetch_add`s. -/
def claimOrder (totalOrder_ : Bool) : Order := if totalOrder_ then .acqRel else .relaxed

/-- The position `head` is claimed, and `do_push` begins. -/
def claimedPush (element : T) (head : Word) : Pc D × Event T D.ring.slots :=
  (.doPush element (D.ring.slot head) D.layout.pushEntry, .claimPush element)

/-- The position `tail` is claimed. -/
def claimedPop (tail : Word) : Pc D × Event T D.ring.slots :=
  (.doPop (D.ring.slot tail) D.layout.popEntry, .claimPop)

/-- After a step inside `do_push`. -/
def pushed (element : T) (i : Fin D.ring.slots) (p : D.layout.Push) :
    PushOut D.layout.Push → Pc D × Event T D.ring.slots
  | .next p' => (.doPush element i p', .pushAt element i (D.pushWins p (.next p')) false)
  | .done => (.idle, .pushAt element i (D.pushWins p .done) true)

/-- After a step inside `do_pop`. -/
def popped (i : Fin D.ring.slots) (p : D.layout.Pop) :
    PopOut D.layout.Pop T → Pc D × Event T D.ring.slots
  | .next p' => (.doPop i p', .popAt i (D.popWins p (.next p')) none)
  | .done element => (.idle, .popAt i (D.popWins p (.done element)) (some element))

/-- **The next access of a call**, at point `pc`. -/
def code (totalOrder_ : Bool) :
    Pc D → Option (Instr D.Value D.Plain (Pc D × Event T D.ring.slots))
  | .idle => none
  | .tryPushLoad element =>
    some (.load .head .relaxed fun head => (.tryPushCheck element head, .silent))
  | .tryPushCheck element head =>
    some (.load .tail .relaxed fun tail =>
      if asSigned (head - tail) ≥ asSigned D.ring.size_ then (.idle, .refuse)
      else (.tryPushClaim element head, .silent))
  | .tryPushClaim element head =>
    if D.spsc_ then some (.store .head (head + 1) .relaxed (D.claimedPush element head))
    else some (.cas .head head (head + 1) .relaxed .relaxed (D.claimedPush element head)
      fun head' => (.tryPushCheck element head', .silent))
  | .tryPopLoad => some (.load .tail .relaxed fun tail => (.tryPopCheck tail, .silent))
  | .tryPopCheck tail =>
    some (.load .head .relaxed fun head =>
      if asSigned (head - tail) ≤ 0 then (.idle, .refuse) else (.tryPopClaim tail, .silent))
  | .tryPopClaim tail =>
    if D.spsc_ then some (.store .tail (tail + 1) .relaxed (D.claimedPop tail))
    else some (.cas .tail tail (tail + 1) .relaxed .relaxed (D.claimedPop tail)
      fun tail' => (.tryPopCheck tail', .silent))
  | .pushClaim element =>
    if D.spsc_ then some (.load .head .relaxed fun head => (.pushStore element head, .silent))
    else some (.rmw .head (claimOrder totalOrder_) (· + 1) (D.claimedPush element))
  | .pushStore element head =>
    some (.store .head (head + 1) .relaxed (D.claimedPush element head))
  | .popClaim =>
    if D.spsc_ then some (.load .tail .relaxed fun tail => (.popStore tail, .silent))
    else some (.rmw .tail (claimOrder totalOrder_) (· + 1) D.claimedPop)
  | .popStore tail => some (.store .tail (tail + 1) .relaxed (D.claimedPop tail))
  | .wasSizeLoad true => some (.load .head .relaxed fun head => (.wasSizeHead head, .silent))
  | .wasSizeLoad false => some (.load .tail .relaxed fun tail => (.wasSizeTail tail, .silent))
  | .wasSizeHead head =>
    some (.load .tail .relaxed fun tail => (.idle, .sized (wasSizeOf head tail)))
  | .wasSizeTail tail =>
    some (.load .head .relaxed fun head => (.idle, .sized (wasSizeOf head tail)))
  | .doPush element i p =>
    some ((D.accesses.push element p).embed (V := D.Value) (W := D.Plain) (.slot i) i
      (D.pushed element i p))
  | .doPop i p =>
    some ((D.accesses.pop p).embed (V := D.Value) (W := D.Plain) (.slot i) i (D.popped i p))

end Derived

/-! ## The machine -/

/-- What a thread can do: call, do something of its own outside any call, or
make its next access, with what the memory leaves open. -/
inductive Weak.Act (ι T : Type)
  | call (t : ι) (op : Op T)
  | work (t : ι)
  | step (t : ι) (c : Choice)

/-- **The queue on a memory with orders**, and what each thread has seen.
`sent k` is what the thread of push `k` had seen when the push returned, and
`got k` that of pop `k`. -/
structure Weak (D : Derived T) (ι : Type) where
  mem : Memory ι D.Value D.Plain
  view : ι → View ι (Loc D.ring.slots)
  pc : ι → Pc D
  hist : History D.ring.slots ι T
  sent : ℕ → View ι (Loc D.ring.slots)
  got : ℕ → View ι (Loc D.ring.slots)

namespace Weak

variable {ι : Type} [DecidableEq ι] {D : Derived T}

/-- The values as constructed. -/
def initial (D : Derived T) : ∀ ℓ, D.Value ℓ
  | .head | .tail => (0 : Word)
  | .slot _ => D.accesses.atom

def init (D : Derived T) (ι : Type) [DecidableEq ι] : Weak D ι where
  mem :=
    { msgs := fun ℓ τ => if τ = 0 then some ⟨initial D ℓ, ⊥⟩ else none
      plain := fun _ => D.accesses.plain
      log := fun _ => [] }
  view _ := ⊥
  pc _ := .idle
  hist := .empty
  sent _ := ⊥
  got _ := ⊥

/-- Thread `t` moves to `pc`, leaving memory `m` and having seen `v`. -/
def next (s : Weak D ι) (t : ι) (m : Memory ι D.Value D.Plain) (v : View ι (Loc D.ring.slots))
    (pc : Pc D) (e : Event T D.ring.slots) : Weak D ι where
  mem := m
  view := Function.update s.view t v
  pc := Function.update s.pc t pc
  hist := s.hist.record t e
  sent :=
    match e with
    | .pushAt _ _ _ true => Function.update s.sent (s.hist.pushNo t) v
    | _ => s.sent
  got :=
    match e with
    | .popAt _ _ (some _) => Function.update s.got (s.hist.popNo t) v
    | _ => s.got

def step (totalOrder_ : Bool) (s : Weak D ι) : Act ι T → Option (Weak D ι)
  | .call t op =>
    match s.pc t with
    | .idle => (D.entry op).map fun pc => s.next t s.mem (s.view t) pc (.call op)
    | _ => none
  | .work t =>
    match s.pc t with
    | .idle => some { s with view := Function.update s.view t (tick (s.view t) t) }
    | _ => none
  | .step t c =>
    (D.code totalOrder_ (s.pc t)).bind fun i =>
      (i.exec c t s.mem (s.view t)).map fun r => s.next t r.1 r.2.1 r.2.2.1 r.2.2.2

end Weak

/-- **The queue on a memory with orders, as a transition system.** -/
def weakMachine (D : Derived T) (totalOrder_ : Bool) (ι : Type) [DecidableEq ι] :
    Machine (Weak D ι) (Weak.Act ι T) where
  init := Weak.init D ι
  step := Weak.step totalOrder_

end AtomicQueue
