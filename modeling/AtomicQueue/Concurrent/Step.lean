import AtomicQueue.Model.History
import AtomicQueue.Slot.Spec
/-!
# Every step of the queue

What a step can do, said once: it begins a call, or reads a counter and
perhaps returns (`Quiet`), or claims a position, or is a step of
`do_push` or `do_pop` on a slot. The invariants are each kept by the cases
of `Change`, and none opens the code of the operations again.
-/

namespace AtomicQueue

variable {T ι : Type} [DecidableEq T] [DecidableEq ι] {D : Derived T}

/-- **The first point of a call.** -/
inductive Begins : Op T → Pc D → Prop
  | tryPush {x} (hx : D.layout.admits x = true) : Begins (.tryPush x) (.tryPushLoad x)
  | tryPop : Begins .tryPop .tryPopLoad
  | push {x} (hx : D.layout.admits x = true) : Begins (.push x) (.pushClaim x)
  | pop : Begins .pop .popClaim
  | wasSize {headFirst} : Begins (.wasSize headFirst) (.wasSizeLoad headFirst)

/-- A call that may be made begins at the first point of its code. -/
theorem begins_of_entry {op : Op T} {pc : Pc D} (h : D.entry op = some pc) : Begins op pc := by
  cases op with
  | tryPush x =>
    obtain ⟨hx, heq⟩ := Option.ite_none_right_eq_some.mp h
    cases heq
    exact .tryPush hx
  | push x =>
    obtain ⟨hx, heq⟩ := Option.ite_none_right_eq_some.mp h
    cases heq
    exact .push hx
  | tryPop =>
    cases h
    exact .tryPop
  | pop =>
    cases h
    exact .pop
  | wasSize headFirst =>
    cases h
    exact .wasSize

/-- **A step that claims nothing and accesses no slot.** -/
inductive Quiet (m : Mem D) : Pc D → Pc D → Event T D.ring.slots → Prop
  | tryPushLoad (x : T) : Quiet m (.tryPushLoad x) (.tryPushCheck x m.head_) .silent
  | pushFull {x head} (h : asSigned D.ring.size_ ≤ asSigned (head - m.tail_)) :
      Quiet m (.tryPushCheck x head) .idle .refuse
  | pushRoom {x head} (h : asSigned (head - m.tail_) < asSigned D.ring.size_) :
      Quiet m (.tryPushCheck x head) (.tryPushClaim x head) .silent
  | pushRetry {x head} (hspsc : D.spsc_ = false) :
      Quiet m (.tryPushClaim x head) (.tryPushCheck x m.head_) .silent
  | tryPopLoad : Quiet m .tryPopLoad (.tryPopCheck m.tail_) .silent
  | popEmpty {tail} (h : asSigned (m.head_ - tail) ≤ 0) : Quiet m (.tryPopCheck tail) .idle .refuse
  | popSome {tail} (h : 0 < asSigned (m.head_ - tail)) :
      Quiet m (.tryPopCheck tail) (.tryPopClaim tail) .silent
  | popRetry {tail} (hspsc : D.spsc_ = false) :
      Quiet m (.tryPopClaim tail) (.tryPopCheck m.tail_) .silent
  | pushLoad {x} (hspsc : D.spsc_ = true) : Quiet m (.pushClaim x) (.pushStore x m.head_) .silent
  | popLoad (hspsc : D.spsc_ = true) : Quiet m .popClaim (.popStore m.tail_) .silent
  | sizeHead : Quiet m (.wasSizeLoad true) (.wasSizeHead m.head_) .silent
  | sizeTail : Quiet m (.wasSizeLoad false) (.wasSizeTail m.tail_) .silent
  | sizedHead {head} : Quiet m (.wasSizeHead head) .idle (.sized (Derived.wasSizeOf head m.tail_))
  | sizedTail {tail} : Quiet m (.wasSizeTail tail) .idle (.sized (Derived.wasSizeOf m.head_ tail))

/-- **A step that claims position `head`** for element `x`. -/
inductive ClaimsPush (m : Mem D) : Pc D → T → Word → Prop
  | tryPush {x head} (h : D.spsc_ = true ∨ m.head_ = head) :
      ClaimsPush m (.tryPushClaim x head) x head
  | push {x} (hspsc : D.spsc_ = false) : ClaimsPush m (.pushClaim x) x m.head_
  | store {x head} : ClaimsPush m (.pushStore x head) x head

/-- **A step that claims position `tail`.** -/
inductive ClaimsPop (m : Mem D) : Pc D → Word → Prop
  | tryPop {tail} (h : D.spsc_ = true ∨ m.tail_ = tail) : ClaimsPop m (.tryPopClaim tail) tail
  | pop (hspsc : D.spsc_ = false) : ClaimsPop m .popClaim m.tail_
  | store {tail} : ClaimsPop m (.popStore tail) tail

namespace Mem

variable (m : Mem D)

/-- The memory with `head_` changed, -/
def setHead (head : Word) : Mem D := { m with head_ := head }

/-- with `tail_` changed, -/
def setTail (tail : Word) : Mem D := { m with tail_ := tail }

/-- and with one slot changed. -/
def set (i : Fin D.ring.slots) (c : D.layout.Cell) : Mem D :=
  { m with cell := Function.update m.cell i c }

/-- Only `head_` is changed, -/
@[simp] theorem setHead_head (head : Word) : (m.setHead head).head_ = head := rfl
@[simp] theorem setHead_tail (head : Word) : (m.setHead head).tail_ = m.tail_ := rfl
@[simp] theorem setHead_cell (head : Word) : (m.setHead head).cell = m.cell := rfl

/-- only `tail_`, -/
@[simp] theorem setTail_head (tail : Word) : (m.setTail tail).head_ = m.head_ := rfl
@[simp] theorem setTail_tail (tail : Word) : (m.setTail tail).tail_ = tail := rfl
@[simp] theorem setTail_cell (tail : Word) : (m.setTail tail).cell = m.cell := rfl

variable {i j : Fin D.ring.slots} {c : D.layout.Cell}

/-- or one slot, and neither counter. -/
@[simp] theorem set_head : (m.set i c).head_ = m.head_ := rfl
@[simp] theorem set_tail : (m.set i c).tail_ = m.tail_ := rfl
@[simp] theorem set_cell_self : (m.set i c).cell i = c := Function.update_self ..

/-- A slot changed twice is as the second change left it. -/
@[simp] theorem set_set (c' : D.layout.Cell) : (m.set i c).set i c' = m.set i c' := by
  simp [set]

/-- A slot set to what it holds. -/
theorem set_eq_self : m.set i (m.cell i) = m := by
  simp [set]

/-- The other slots are as they were. -/
theorem set_cell_of_ne (h : j ≠ i) : (m.set i c).cell j = m.cell j := Function.update_of_ne h ..

end Mem

namespace World

variable (w : World D ι)

/-- Thread `t` moves to `pc`, leaving memory `m`. -/
def next (t : ι) (m : Mem D) (pc : Pc D) (e : Event T D.ring.slots) : World D ι :=
  ⟨⟨m, Function.update w.pc t pc⟩, w.hist.record t e⟩

variable {w} {t t' : ι} {m : Mem D} {pc : Pc D} {e : Event T D.ring.slots}

/-- The memory is the one the step left, -/
@[simp] theorem next_mem : (w.next t m pc e).mem = m := rfl

/-- the event is recorded, -/
@[simp] theorem next_hist : (w.next t m pc e).hist = w.hist.record t e := rfl

theorem next_pc : (w.next t m pc e).pc = Function.update w.pc t pc := rfl

/-- its thread has moved, -/
@[simp] theorem next_pc_self : (w.next t m pc e).pc t = pc := Function.update_self ..

/-- and the others have not. -/
theorem next_pc_of_ne (h : t' ≠ t) : (w.next t m pc e).pc t' = w.pc t' :=
  Function.update_of_ne h ..

end World

/-- **Everything a step can do.** -/
inductive Change (w : World D ι) : Act ι T → World D ι → Prop
  | call {t op pc} (hidle : w.pc t = .idle) (hentry : D.entry op = some pc) :
      Change w (.call t op) (w.next t w.mem pc (.call op))
  | quiet {t weak pc e} (h : Quiet w.mem (w.pc t) pc e) :
      Change w (.step t weak) (w.next t w.mem pc e)
  | claimPush {t weak x head} (h : ClaimsPush w.mem (w.pc t) x head) :
      Change w (.step t weak) (w.next t (w.mem.setHead (head + 1))
        (.doPush x (D.ring.slot head) D.layout.pushEntry) (.claimPush x))
  | claimPop {t weak tail} (h : ClaimsPop w.mem (w.pc t) tail) :
      Change w (.step t weak) (w.next t (w.mem.setTail (tail + 1))
        (.doPop (D.ring.slot tail) D.layout.popEntry) .claimPop)
  | pushNext {t weak x i p p'} (hpc : w.pc t = .doPush x i p)
      (h : (D.layout.pushStep weak x (w.mem.cell i) p).2 = .next p') :
      Change w (.step t weak) (w.next t (w.mem.set i (D.layout.pushStep weak x (w.mem.cell i) p).1)
        (.doPush x i p') (.pushAt x i (D.pushWins p (.next p')) false))
  | pushDone {t weak x i p} (hpc : w.pc t = .doPush x i p)
      (h : (D.layout.pushStep weak x (w.mem.cell i) p).2 = .done) :
      Change w (.step t weak) (w.next t (w.mem.set i (D.layout.pushStep weak x (w.mem.cell i) p).1)
        .idle (.pushAt x i (D.pushWins p .done) true))
  | popNext {t weak i p p'} (hpc : w.pc t = .doPop i p)
      (h : (D.layout.popStep weak (w.mem.cell i) p).2 = .next p') :
      Change w (.step t weak) (w.next t (w.mem.set i (D.layout.popStep weak (w.mem.cell i) p).1)
        (.doPop i p') (.popAt i (D.popWins p (.next p')) none))
  | popDone {t weak i p x} (hpc : w.pc t = .doPop i p)
      (h : (D.layout.popStep weak (w.mem.cell i) p).2 = .done x) :
      Change w (.step t weak) (w.next t (w.mem.set i (D.layout.popStep weak (w.mem.cell i) p).1)
        .idle (.popAt i (D.popWins p (.done x)) (some x)))

variable {w w' : World D ι} {a : Act ι T}

/-- The steps of the calls, outside the slots. -/
theorem change_of_advance {t : ι} {weak : Bool} {m : Mem D} {pc : Pc D}
    {e : Event T D.ring.slots} (h : D.advance weak w.mem (w.pc t) = some (m, pc, e)) :
    Change w (.step t weak) (w.next t m pc e) := by
  cases hpc : w.pc t with
  | idle => rw [hpc] at h; cases h
  | tryPushLoad x =>
    rw [hpc] at h
    cases h
    exact .quiet (hpc ▸ .tryPushLoad x)
  | tryPushCheck x head =>
    rw [hpc, Derived.advance] at h
    split at h <;> cases h
    · exact .quiet (hpc ▸ .pushFull ‹_›)
    · exact .quiet (hpc ▸ .pushRoom (lt_of_not_ge ‹_›))
  | tryPushClaim x head =>
    rw [hpc, Derived.advance] at h
    split at h
    · cases h
      exact .claimPush (hpc ▸ .tryPush (Or.inl ‹_›))
    · -- the exchange succeeds, or fails and reloads `head`
      split at h <;> cases h
      · exact .claimPush (hpc ▸ .tryPush (Or.inr (And.left ‹_›)))
      · exact .quiet (hpc ▸ .pushRetry (eq_false_of_ne_true ‹_›))
  | tryPopLoad =>
    rw [hpc] at h
    cases h
    exact .quiet (hpc ▸ .tryPopLoad)
  | tryPopCheck tail =>
    rw [hpc, Derived.advance] at h
    split at h <;> cases h
    · exact .quiet (hpc ▸ .popEmpty ‹_›)
    · exact .quiet (hpc ▸ .popSome (lt_of_not_ge ‹_›))
  | tryPopClaim tail =>
    rw [hpc, Derived.advance] at h
    split at h
    · cases h
      exact .claimPop (hpc ▸ .tryPop (Or.inl ‹_›))
    · split at h <;> cases h
      · exact .claimPop (hpc ▸ .tryPop (Or.inr (And.left ‹_›)))
      · exact .quiet (hpc ▸ .popRetry (eq_false_of_ne_true ‹_›))
  | pushClaim x =>
    rw [hpc, Derived.advance] at h
    split at h <;> cases h
    · exact .quiet (hpc ▸ .pushLoad ‹_›)
    · exact .claimPush (hpc ▸ .push (eq_false_of_ne_true ‹_›))
  | pushStore x head =>
    rw [hpc] at h
    cases h
    exact .claimPush (hpc ▸ .store)
  | popClaim =>
    rw [hpc, Derived.advance] at h
    split at h <;> cases h
    · exact .quiet (hpc ▸ .popLoad ‹_›)
    · exact .claimPop (hpc ▸ .pop (eq_false_of_ne_true ‹_›))
  | popStore tail =>
    rw [hpc] at h
    cases h
    exact .claimPop (hpc ▸ .store)
  | wasSizeLoad headFirst =>
    rw [hpc, Derived.advance] at h
    cases headFirst <;> cases h
    · exact .quiet (hpc ▸ .sizeTail)
    · exact .quiet (hpc ▸ .sizeHead)
  | wasSizeHead head =>
    rw [hpc] at h
    cases h
    exact .quiet (hpc ▸ .sizedHead)
  | wasSizeTail tail =>
    rw [hpc] at h
    cases h
    exact .quiet (hpc ▸ .sizedTail)
  | doPush x i p =>
    rw [hpc, Derived.advance, Option.some.injEq] at h
    simp only [Derived.stepPush] at h
    split at h <;> cases h
    · exact .pushNext hpc ‹_›
    · exact .pushDone hpc ‹_›
  | doPop i p =>
    rw [hpc, Derived.advance, Option.some.injEq] at h
    simp only [Derived.stepPop] at h
    split at h <;> cases h
    · exact .popNext hpc ‹_›
    · exact .popDone hpc ‹_›

/-- **Every step is one of these.** -/
theorem change_of_step (h : (machine D ι).step w a = some w') : Change w a w' := by
  obtain ⟨⟨s, e⟩, hs, rfl⟩ := Option.map_eq_some_iff.mp h
  cases a with
  | call t op =>
    cases hpc : w.pc t <;> simp only [State.step, hpc] at hs <;> try cases hs
    obtain ⟨pc, hentry, heq⟩ := Option.map_eq_some_iff.mp hs
    cases heq
    exact .call hpc hentry
  | step t weak =>
    obtain ⟨⟨m, pc, e⟩, hadv, heq⟩ := Option.map_eq_some_iff.mp hs
    cases heq
    exact change_of_advance hadv

/-- The other threads stay where they are. -/
theorem Change.pc_of_ne (h : Change w a w') {t : ι} (ht : t ≠ a.thread) : w'.pc t = w.pc t := by
  cases h <;> exact World.next_pc_of_ne ht

end AtomicQueue
