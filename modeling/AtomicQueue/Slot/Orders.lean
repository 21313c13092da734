import AtomicQueue.Model.Orders
import AtomicQueue.Slot.Spec
/-!
# What the accesses to a slot are

The atomic location of a slot guards its element, with two sides, `do_push`
and `do_pop`. `Shaped` says that their accesses have the shapes of such a
pair, and that on one memory that all threads see they are the steps of
`pushStep` and `popStep`.
-/

namespace AtomicQueue

open Views

variable {T : Type}

/-- Where a step of `do_push` goes on, if it does not return. -/
def PushOut.point {P : Type} : PushOut P → Option P
  | .next p => some p
  | .done => none

def PopOut.point {P : Type} : PopOut P T → Option P
  | .next p => some p
  | .done _ => none

/-- **The accesses are those of the slot's code**, and of these shapes. -/
structure Shaped {L : Layout T} {spsc : Bool} (A : Accesses L) (S : Spec L spsc) where
  awaitsPush : A.Atom → Bool
  awaitsPop : A.Atom → Bool
  awaitsPush_cell : ∀ a b, L.awaitsPush (A.cell a b) = awaitsPush a
  awaitsPop_cell : ∀ a b, L.awaitsPop (A.cell a b) = awaitsPop a
  fresh : A.cell A.atom A.plain = L.fresh
  push_run : ∀ weak x a b p, L.pushStep weak x (A.cell a b) p =
    (A.cell (((A.push x p).run weak ⟨fun _ => a, fun _ => b⟩).1.value ())
      (((A.push x p).run weak ⟨fun _ => a, fun _ => b⟩).1.plain ()),
      ((A.push x p).run weak ⟨fun _ => a, fun _ => b⟩).2)
  pop_run : ∀ weak a b p, L.popStep weak (A.cell a b) p =
    (A.cell (((A.pop p).run weak ⟨fun _ => a, fun _ => b⟩).1.value ())
      (((A.pop p).run weak ⟨fun _ => a, fun _ => b⟩).1.plain ()),
      ((A.pop p).run weak ⟨fun _ => a, fun _ => b⟩).2)
  push_shape : ∀ {x p}, S.PushPoint p →
    Shape spsc L.pushOwns PushOut.point awaitsPush
      (fun a => awaitsPush a = true ∨ awaitsPop a = true) p (A.push x p)
  pop_shape : ∀ {p}, S.PopPoint p →
    Shape spsc L.popOwns PopOut.point awaitsPop
      (fun a => awaitsPush a = true ∨ awaitsPop a = true) p (A.pop p)
  /-- Among several producers a slot won by one is not awaited by another. -/
  push_locked : ∀ {c p x}, spsc = false → S.Holds c (.push p x) → L.awaitsPush c = false
  pop_locked : ∀ {c p x}, spsc = false → S.Holds c (.pop p x) → L.awaitsPop c = false

/-! ## Atomic elements -/

namespace AtomicElements

variable [DecidableEq T] {nil_ : T} {maximizeThroughput_ spsc_ : Bool}

/-- The accesses of `do_push`, on one memory that all threads see, do the
step of `pushStep`, -/
theorem push_run (weak : Bool) (x a : T) (b : Unit) (p : Push) :
    pushStep nil_ maximizeThroughput_ weak x a p =
      (((pushCode nil_ maximizeThroughput_ x p).run weak ⟨fun _ => a, fun _ => b⟩).1.value (),
        ((pushCode nil_ maximizeThroughput_ x p).run weak ⟨fun _ => a, fun _ => b⟩).2) := by
  cases p with
  | load | store => rfl
  | compareExchange =>
    rw [pushStep, pushCode, Instr.run]
    split <;> rfl
  | pause => cases maximizeThroughput_ <;> simp [pushStep, pushCode, Instr.run]

/-- and those of `do_pop` that of `popStep`. -/
theorem pop_run (weak : Bool) (a : T) (b : Unit) (p : Pop T) :
    popStep nil_ maximizeThroughput_ a p =
      (((popCode nil_ maximizeThroughput_ p).run weak ⟨fun _ => a, fun _ => b⟩).1.value (),
        ((popCode nil_ maximizeThroughput_ p).run weak ⟨fun _ => a, fun _ => b⟩).2) := by
  cases p with
  | load | store | exchange => rfl
  | pause => cases maximizeThroughput_ <;> simp [popStep, popCode, Instr.run]

/-- **`do_push` by shape.** A load only looks, the compare-exchange claims
the slot for its one step, and the store of a single producer gives it
back. -/
theorem push_shape {x : T} {p : Push} (hp : PushPoint spsc_ p) :
    Shape spsc_ (layout nil_ maximizeThroughput_ spsc_).pushOwns PushOut.point
      (fun a => decide (a = nil_))
      (fun a => decide (a = nil_) = true ∨ decide (a ≠ nil_) = true) p
      (pushCode nil_ maximizeThroughput_ x p) := by
  cases p with
  | load =>
    refine .look rfl fun a => ⟨_, rfl, fun h => ⟨hp, rfl, ?_⟩⟩
    by_cases ha : a = nil_
    · exact decide_eq_true ha
    · rw [if_pos ha] at h
      cases h
  | store => exact .release rfl rfl rfl
  | compareExchange =>
    exact .claim hp rfl (Or.inl (decide_eq_true rfl)) rfl (fun _ => rfl) fun _ => ⟨_, rfl, rfl⟩
  | pause =>
    cases maximizeThroughput_ with
    | false => exact .pause rfl rfl rfl
    | true =>
      refine .look rfl fun a => ⟨_, rfl, fun h => ?_⟩
      split at h <;> cases h

/-- **`do_pop` by shape.** The exchange puts `NIL` in place of whatever it
finds. -/
theorem pop_shape {p : Pop T} (hp : PopPoint spsc_ p) :
    Shape spsc_ (layout nil_ maximizeThroughput_ spsc_).popOwns PopOut.point
      (fun a => decide (a ≠ nil_))
      (fun a => decide (a = nil_) = true ∨ decide (a ≠ nil_) = true) p
      (popCode nil_ maximizeThroughput_ p) := by
  cases p with
  | load =>
    refine .look rfl fun a => ⟨_, rfl, fun h => ⟨hp, rfl, ?_⟩⟩
    by_cases ha : a ≠ nil_
    · exact decide_eq_true ha
    · rw [if_neg ha] at h
      cases h
  | store element => exact .release rfl rfl rfl
  | exchange =>
    refine .swap hp rfl (fun a => ?_) rfl rfl
    by_cases ha : a = nil_
    · exact Or.inl (decide_eq_true ha)
    · exact Or.inr (decide_eq_true ha)
  | pause =>
    cases maximizeThroughput_ with
    | false => exact .pause rfl rfl rfl
    | true =>
      refine .look rfl fun a => ⟨_, rfl, fun h => ?_⟩
      split at h <;> cases h

variable (nil_ maximizeThroughput_ spsc_)

def shaped : Shaped (accesses nil_ maximizeThroughput_ spsc_)
    (spec nil_ maximizeThroughput_ spsc_) where
  awaitsPush (a : T) := decide (a = nil_)
  awaitsPop (a : T) := decide (a ≠ nil_)
  awaitsPush_cell _ _ := rfl
  awaitsPop_cell _ _ := rfl
  fresh := rfl
  push_run := push_run
  pop_run := pop_run
  push_shape := push_shape
  pop_shape := pop_shape
  push_locked hspsc h := absurd (hspsc.symm.trans h.1) (by decide)
  pop_locked hspsc h := absurd (hspsc.symm.trans h.1) (by decide)

end AtomicElements

/-! ## Elements guarded by a state -/

namespace StateElements

variable {E : ElementType T} {maximizeThroughput_ spsc_ : Bool}

/-- The accesses to the state and to the element together do the step of
`pushStep`, -/
theorem push_run (weak : Bool) (x : T) (a : StateE) (b : T) (p : Push) :
    pushStep E maximizeThroughput_ weak x ⟨a, b⟩ p =
      (⟨((pushCode E maximizeThroughput_ x p).run weak ⟨fun _ => a, fun _ => b⟩).1.value (),
        ((pushCode E maximizeThroughput_ x p).run weak ⟨fun _ => a, fun _ => b⟩).1.plain ()⟩,
        ((pushCode E maximizeThroughput_ x p).run weak ⟨fun _ => a, fun _ => b⟩).2) := by
  cases p with
  | load | assign | assigning | publish => rfl
  | compareExchange =>
    rw [pushStep, pushCode, Instr.run]
    split <;> rfl
  | pause => cases maximizeThroughput_ <;> simp [pushStep, pushCode, Instr.run]

theorem pop_run (weak : Bool) (a : StateE) (b : T) (p : Pop T) :
    popStep E maximizeThroughput_ weak ⟨a, b⟩ p =
      (⟨((popCode E maximizeThroughput_ p).run weak ⟨fun _ => a, fun _ => b⟩).1.value (),
        ((popCode E maximizeThroughput_ p).run weak ⟨fun _ => a, fun _ => b⟩).1.plain ()⟩,
        ((popCode E maximizeThroughput_ p).run weak ⟨fun _ => a, fun _ => b⟩).2) := by
  cases p with
  | load | move | moving | release => rfl
  | compareExchange =>
    rw [popStep, popCode, Instr.run]
    split <;> rfl
  | pause => cases maximizeThroughput_ <;> simp [popStep, popCode, Instr.run]

/-- **`do_push` by shape.** The element is accessed only while the slot is
held, between the claim and the release of the state. -/
theorem push_shape {x : T} {p : Push} (hp : PushPoint spsc_ p) :
    Shape spsc_ (layout E maximizeThroughput_ spsc_).pushOwns PushOut.point
      (fun a => decide (a = StateE.EMPTY))
      (fun a => decide (a = StateE.EMPTY) = true ∨ decide (a = StateE.STORED) = true) p
      (pushCode E maximizeThroughput_ x p) := by
  cases p with
  | load =>
    refine .look rfl fun a => ⟨_, rfl, fun h => ⟨hp, rfl, ?_⟩⟩
    by_cases ha : a = .EMPTY
    · exact decide_eq_true ha
    · rw [if_pos ha] at h
      cases h
  | compareExchange =>
    refine .claim hp rfl (Or.inl (by decide)) rfl ?_ fun _ => ⟨_, rfl, rfl⟩
    intro h
    cases h
  | pause =>
    cases maximizeThroughput_ with
    | false => exact .pause rfl rfl rfl
    | true =>
      refine .look rfl fun a => ⟨_, rfl, fun h => ?_⟩
      split at h <;> cases h
  | assign | assigning => exact .hold rfl fun _ => ⟨_, rfl, rfl⟩
  | publish => exact .release rfl rfl rfl

/-- **`do_pop` by shape**, with the element moved out in between. -/
theorem pop_shape {p : Pop T} (hp : PopPoint spsc_ p) :
    Shape spsc_ (layout E maximizeThroughput_ spsc_).popOwns PopOut.point
      (fun a => decide (a = StateE.STORED))
      (fun a => decide (a = StateE.EMPTY) = true ∨ decide (a = StateE.STORED) = true) p
      (popCode E maximizeThroughput_ p) := by
  cases p with
  | load =>
    refine .look rfl fun a => ⟨_, rfl, fun h => ⟨hp, rfl, ?_⟩⟩
    by_cases ha : a = .STORED
    · exact decide_eq_true ha
    · rw [if_pos ha] at h
      cases h
  | compareExchange =>
    refine .claim hp rfl (Or.inr (by decide)) rfl ?_ fun _ => ⟨_, rfl, rfl⟩
    intro h
    cases h
  | pause =>
    cases maximizeThroughput_ with
    | false => exact .pause rfl rfl rfl
    | true =>
      refine .look rfl fun a => ⟨_, rfl, fun h => ?_⟩
      split at h <;> cases h
  | move | moving => exact .hold rfl fun _ => ⟨_, rfl, rfl⟩
  | release element => exact .release rfl rfl rfl

variable (E maximizeThroughput_ spsc_)

def shaped : Shaped (accesses E maximizeThroughput_ spsc_)
    (spec E maximizeThroughput_ spsc_) where
  awaitsPush (a : StateE) := decide (a = .EMPTY)
  awaitsPop (a : StateE) := decide (a = .STORED)
  awaitsPush_cell _ _ := rfl
  awaitsPop_cell _ _ := rfl
  fresh := rfl
  push_run := push_run
  pop_run := pop_run
  push_shape := push_shape
  pop_shape := pop_shape
  push_locked hspsc h := by
    have hstate := h.1
    rw [if_neg (by simp [hspsc])] at hstate
    exact decide_eq_false (by rw [hstate]; decide)
  pop_locked hspsc h := by
    have hstate := h.1
    rw [if_neg (by simp [hspsc])] at hstate
    exact decide_eq_false (by rw [hstate]; decide)

end StateElements

/-- **The accesses of a queue class are of these shapes.** -/
def Derived.shaped [DecidableEq T] (D : Derived T) : Shaped D.accesses D.spec :=
  match D with
  | ⟨_, spsc_, maximizeThroughput_, .atomic nil_⟩ =>
    AtomicElements.shaped nil_ maximizeThroughput_ spsc_
  | ⟨_, spsc_, maximizeThroughput_, .states E⟩ =>
    StateElements.shaped E maximizeThroughput_ spsc_

end AtomicQueue
