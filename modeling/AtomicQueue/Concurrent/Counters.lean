import AtomicQueue.Concurrent.Record
import AtomicQueue.Common.Wrap
/-!
# The counters and who moves them

`head_` and `tail_` are the numbers of claims made, modulo `2 ^ 32`, and a
thread in `do_push` or `do_pop` is on the slot of the position it claimed.
With `spsc_` the code keeps this by there being one producer and one
consumer, whose copies of the counters cannot go out of date.
-/

namespace AtomicQueue

variable {T ι : Type} [DecidableEq T] [DecidableEq ι] {D : Derived T}
variable {w w' : World D ι} {a : Act ι T} {t t' : ι}

/-! ## Who pushes and who pops -/

/-- The element of the push under way. -/
def Pc.offers : Pc D → Option T
  | .tryPushLoad x | .tryPushCheck x _ | .tryPushClaim x _ | .pushClaim x | .pushStore x _
  | .doPush x _ _ => some x
  | _ => none

/-- Whether a pop is under way. -/
def Pc.popping : Pc D → Bool
  | .tryPopLoad | .tryPopCheck _ | .tryPopClaim _ | .popClaim | .popStore _ | .doPop _ _ => true
  | _ => false

/-- **One producer and one consumer**: all pushes are called by thread
`P`, all pops by thread `C`. -/
def OneEach (P C : ι) : Act ι T → Prop
  | .call t (.tryPush _) | .call t (.push _) => t = P
  | .call t .tryPop | .call t .pop => t = C
  | _ => True

instance (P C : ι) (a : Act ι T) : Decidable (OneEach P C a) :=
  match a with
  | .call t (.tryPush _) | .call t (.push _) => inferInstanceAs (Decidable (t = P))
  | .call t .tryPop | .call t .pop => inferInstanceAs (Decidable (t = C))
  | .call _ (.wasSize _) | .step _ _ => inferInstanceAs (Decidable True)

/-- The condition on runs of a class with `spsc_`. -/
def Proper (D : Derived T) (ok : World D ι → Act ι T → World D ι → Prop) : Prop :=
  D.spsc_ = true → ∃ P C, ∀ w a w', ok w a w' → OneEach P C a

/-- With `spsc_`, no two threads push and no two threads pop. -/
structure Sole (w : World D ι) : Prop where
  push_eq : D.spsc_ = true → ∀ t t', (w.pc t).offers ≠ none → (w.pc t').offers ≠ none → t = t'
  pop_eq : D.spsc_ = true → ∀ t t', (w.pc t).popping = true → (w.pc t').popping = true → t = t'

/-- No quiet step begins to push, -/
theorem Quiet.offers {m : Mem D} {pc pc' : Pc D} {e : Event T D.ring.slots} (h : Quiet m pc pc' e)
    {x : T} (hx : pc'.offers = some x) : pc.offers = some x := by
  cases h <;> first | exact hx | cases hx

/-- or to pop. -/
theorem Quiet.popping {m : Mem D} {pc pc' : Pc D} {e : Event T D.ring.slots}
    (h : Quiet m pc pc' e) (hpop : pc'.popping = true) : pc.popping = true := by
  cases h <;> first | exact hpop | cases hpop

/-- Who claims on `head_` pushes the element, -/
theorem ClaimsPush.offers {m : Mem D} {pc : Pc D} {x : T} {head : Word}
    (h : ClaimsPush m pc x head) : pc.offers = some x := by
  cases h <;> rfl

/-- and who claims on `tail_` pops. -/
theorem ClaimsPop.popping {m : Mem D} {pc : Pc D} {tail : Word} (h : ClaimsPop m pc tail) :
    pc.popping = true := by
  cases h <;> rfl

/-- A thread that pushes pushed before, or called. -/
theorem Change.offers (h : Change w a w') {x : T} (hx : (w'.pc t').offers = some x) :
    (w.pc t').offers = some x ∨
      ∃ op pc, a = .call t' op ∧ D.entry op = some pc ∧ pc.offers = some x := by
  by_cases ht : t' = a.thread
  · subst ht
    cases h <;> simp only [Act.thread, World.next_pc_self] at hx ⊢
    case call op pc hidle hentry => exact Or.inr ⟨op, pc, rfl, hentry, hx⟩
    case quiet h => exact Or.inl (h.offers hx)
    case claimPush h => exact Or.inl (h.offers.trans hx)
    case pushNext hpc _ => exact Or.inl (by rw [hpc]; exact hx)
    all_goals cases hx
  · exact Or.inl (by rwa [h.pc_of_ne ht] at hx)

/-- A thread that pops has popped before, or has just called. -/
theorem Change.popping (h : Change w a w') (hpop : (w'.pc t').popping = true) :
    (w.pc t').popping = true ∨
      ∃ op pc, a = .call t' op ∧ D.entry op = some pc ∧ pc.popping = true := by
  by_cases ht : t' = a.thread
  · subst ht
    cases h <;> simp only [Act.thread, World.next_pc_self] at hpop ⊢
    case call op pc hidle hentry => exact Or.inr ⟨op, pc, rfl, hentry, hpop⟩
    case quiet h => exact Or.inl (h.popping hpop)
    case claimPop h => exact Or.inl h.popping
    case popNext hpc _ => exact Or.inl (by rw [hpc]; exact hpop)
    all_goals cases hpop
  · exact Or.inl (by rwa [h.pc_of_ne ht] at hpop)

/-- Only calls of `try_push` and `push` push, and elements that the class
admits; -/
theorem entry_offers {op : Op T} {pc : Pc D} {x : T} (h : D.entry op = some pc)
    (hx : pc.offers = some x) : D.layout.admits x = true ∧ (op = .tryPush x ∨ op = .push x) := by
  cases begins_of_entry h with
  | tryPush hadm =>
    cases hx
    exact ⟨hadm, Or.inl rfl⟩
  | push hadm =>
    cases hx
    exact ⟨hadm, Or.inr rfl⟩
  | tryPop | pop | wasSize => cases hx

/-- only those of `try_pop` and `pop` pop. -/
theorem entry_popping {op : Op T} {pc : Pc D} (h : D.entry op = some pc)
    (hpop : pc.popping = true) : op = .tryPop ∨ op = .pop := by
  cases begins_of_entry h with
  | tryPop => exact Or.inl rfl
  | pop => exact Or.inr rfl
  | tryPush | push | wasSize => cases hpop

/-- One producer's calls are one thread's pushes. -/
theorem offers_of_run {P C : ι} {ok : World D ι → Act ι T → World D ι → Prop}
    (hok : ∀ w a w', ok w a w' → OneEach P C a) (hr : (machine D ι).Run ok w) :
    ∀ t, (w.pc t).offers ≠ none → t = P := by
  refine hr.invariant (I := fun w => ∀ t, (w.pc t).offers ≠ none → t = P)
    (fun t h => absurd rfl h) ?_
  intro w a w' _ ih hs hstep t hne
  obtain ⟨x, hx⟩ := Option.ne_none_iff_exists'.mp hne
  rcases (change_of_step hs).offers hx with hold | ⟨op, pc, rfl, hentry, hpc⟩
  · exact ih t (by rw [hold]; simp)
  · have hP := hok _ _ _ hstep
    rcases (entry_offers hentry hpc).2 with rfl | rfl <;> exact hP

/-- With one consumer only that one ever pops. -/
theorem popping_of_run {P C : ι} {ok : World D ι → Act ι T → World D ι → Prop}
    (hok : ∀ w a w', ok w a w' → OneEach P C a) (hr : (machine D ι).Run ok w) :
    ∀ t, (w.pc t).popping = true → t = C := by
  refine hr.invariant (I := fun w => ∀ t, (w.pc t).popping = true → t = C)
    (fun t h => by cases h) ?_
  intro w a w' _ ih hs hstep t hpop
  rcases (change_of_step hs).popping hpop with hold | ⟨op, pc, rfl, hentry, hpc⟩
  · exact ih t hold
  · have hC := hok _ _ _ hstep
    rcases entry_popping hentry hpc with rfl | rfl <;> exact hC

theorem sole_of_run {ok : World D ι → Act ι T → World D ι → Prop} (hok : Proper D ok)
    (hr : (machine D ι).Run ok w) : Sole w := by
  refine ⟨fun hspsc t t' ht ht' => ?_, fun hspsc t t' ht ht' => ?_⟩ <;>
    obtain ⟨P, C, hPC⟩ := hok hspsc
  · exact (offers_of_run hPC hr t ht).trans (offers_of_run hPC hr t' ht').symm
  · exact (popping_of_run hPC hr t ht).trans (popping_of_run hPC hr t' ht').symm

/-- **Every element pushed passed the assertion of `do_push`.** -/
theorem admits_of_run {ok : World D ι → Act ι T → World D ι → Prop}
    (hr : (machine D ι).Run ok w) :
    ∀ t x, (w.pc t).offers = some x → D.layout.admits x = true := by
  refine hr.invariant (I := fun w => ∀ t x, (w.pc t).offers = some x → D.layout.admits x = true)
    (fun t x h => by cases h) ?_
  intro w a w' _ ih hs _ t x hx
  rcases (change_of_step hs).offers hx with hold | ⟨op, pc, rfl, hentry, hpc⟩
  · exact ih t x hold
  · exact (entry_offers hentry hpc).1

/-! ## The counters -/

/-- What the local variables of a thread are worth. With `spsc_` a copy
of a counter is up to date, and the store of the claim comes only there. -/
def Local (m : Mem D) (h : History D.ring.slots ι T) (t : ι) : Pc D → Prop
  | .tryPushCheck _ head | .tryPushClaim _ head => D.spsc_ = true → head = m.head_
  | .tryPopCheck tail | .tryPopClaim tail => D.spsc_ = true → tail = m.tail_
  | .pushStore _ head => D.spsc_ = true ∧ head = m.head_
  | .popStore tail => D.spsc_ = true ∧ tail = m.tail_
  | .doPush _ i p => D.ring.slotOf (h.pushNo t) = i ∧ D.spec.PushPoint p
  | .doPop i p => D.ring.slotOf (h.popNo t) = i ∧ D.spec.PopPoint p
  | _ => True

/-- **The counters are the numbers of claims**, and every thread is where
its claim sends it. -/
structure Counted (w : World D ι) : Prop where
  head_eq : w.mem.head_ = BitVec.ofNat 32 w.hist.pushes
  tail_eq : w.mem.tail_ = BitVec.ofNat 32 w.hist.pops
  thread : ∀ t, Local w.mem w.hist t (w.pc t)

omit [DecidableEq ι] in
/-- A thread's variables keep their worth while another steps. -/
theorem Local.frame {m m' : Mem D} {h h' : History D.ring.slots ι T} {pc : Pc D}
    (hl : Local m h t pc) (hpush : h'.pushNo t = h.pushNo t) (hpop : h'.popNo t = h.popNo t)
    (hhead : D.spsc_ = true → pc.offers ≠ none → m'.head_ = m.head_)
    (htail : D.spsc_ = true → pc.popping = true → m'.tail_ = m.tail_) : Local m' h' t pc := by
  cases pc with
  | tryPushCheck x head | tryPushClaim x head =>
    intro hspsc
    rw [hhead hspsc (by simp [Pc.offers])]
    exact hl hspsc
  | tryPopCheck tail | tryPopClaim tail =>
    intro hspsc
    rw [htail hspsc rfl]
    exact hl hspsc
  | pushStore x head =>
    exact ⟨hl.1, by rw [hhead hl.1 (by simp [Pc.offers])]; exact hl.2⟩
  | popStore tail => exact ⟨hl.1, by rw [htail hl.1 rfl]; exact hl.2⟩
  | doPush x i p => exact ⟨by rw [hpush]; exact hl.1, hl.2⟩
  | doPop i p => exact ⟨by rw [hpop]; exact hl.1, hl.2⟩
  | _ => trivial

omit [DecidableEq ι] in
theorem Local.entry {m : Mem D} {h : History D.ring.slots ι T} {op : Op T} {pc : Pc D}
    (hentry : D.entry op = some pc) : Local m h t pc := by
  cases begins_of_entry hentry <;> trivial

omit [DecidableEq ι] in
theorem Local.quiet {m : Mem D} {h h' : History D.ring.slots ι T} {pc pc' : Pc D}
    {e : Event T D.ring.slots} (hl : Local m h t pc) (hq : Quiet m pc pc' e) :
    Local m h' t pc' := by
  cases hq with
  | tryPushLoad | tryPopLoad | pushRetry | popRetry => exact fun _ => rfl
  | pushRoom | popSome => exact hl
  | pushLoad hspsc | popLoad hspsc => exact ⟨hspsc, rfl⟩
  | _ => trivial

omit [DecidableEq ι] in
/-- **The position claimed is the current one.** -/
theorem Local.head_eq {m : Mem D} {h : History D.ring.slots ι T} {pc : Pc D} {x : T} {head : Word}
    (hl : Local m h t pc) (hc : ClaimsPush m pc x head) : head = m.head_ := by
  cases hc with
  | tryPush hor =>
    rcases hor with hspsc | heq
    · exact hl hspsc
    · exact heq.symm
  | push hspsc => rfl
  | store => exact hl.2

omit [DecidableEq ι] in
theorem Local.tail_eq {m : Mem D} {h : History D.ring.slots ι T} {pc : Pc D} {tail : Word}
    (hl : Local m h t pc) (hc : ClaimsPop m pc tail) : tail = m.tail_ := by
  cases hc with
  | tryPop hor =>
    rcases hor with hspsc | heq
    · exact hl hspsc
    · exact heq.symm
  | pop hspsc => rfl
  | store => exact hl.2

/-- A step that leaves the counters to itself keeps the other threads'
variables. -/
theorem Counted.threads (hC : Counted w) {m : Mem D} {pc : Pc D} {e : Event T D.ring.slots}
    (hself : Local m (w.hist.record t e) t pc)
    (hhead : ∀ t', t' ≠ t → D.spsc_ = true → (w.pc t').offers ≠ none → m.head_ = w.mem.head_)
    (htail : ∀ t', t' ≠ t → D.spsc_ = true → (w.pc t').popping = true → m.tail_ = w.mem.tail_) :
    ∀ t', Local m (w.hist.record t e) t' ((w.next t m pc e).pc t') := by
  intro t'
  rcases eq_or_ne t' t with rfl | hne
  · rw [World.next_pc_self]
    exact hself
  · rw [World.next_pc_of_ne hne]
    exact (hC.thread t').frame (History.record_pushNo_of_ne e hne)
      (History.record_popNo_of_ne e hne) (hhead t' hne) (htail t' hne)

/-- The cases that leave both counters alone. -/
theorem Counted.next (hC : Counted w) {m : Mem D} {pc : Pc D} {e : Event T D.ring.slots}
    (hhead : m.head_ = w.mem.head_) (htail : m.tail_ = w.mem.tail_)
    (hpush : (w.hist.record t e).chan.pushes = w.hist.chan.pushes)
    (hpop : (w.hist.record t e).chan.pops = w.hist.chan.pops)
    (hself : Local m (w.hist.record t e) t pc) : Counted (w.next t m pc e) where
  head_eq := by
    rw [World.next_mem, World.next_hist, History.pushes, hpush, hhead]
    exact hC.head_eq
  tail_eq := by
    rw [World.next_mem, World.next_hist, History.pops, hpop, htail]
    exact hC.tail_eq
  thread := hC.threads hself (fun _ _ _ _ => hhead) (fun _ _ _ _ => htail)

/-- **Every step keeps the counters counted.** -/
theorem Counted.step (hC : Counted w) (hS : Sole w) (h : Change w a w') : Counted w' := by
  cases h with
  | call hidle hentry => exact hC.next rfl rfl rfl rfl (.entry hentry)
  | @quiet t weak pc e hq =>
    have hrec : (w.hist.record t e).chan = w.hist.chan := by rw [History.record_quiet hq]
    exact hC.next rfl rfl (by rw [hrec]) (by rw [hrec]) ((hC.thread t).quiet hq)
  | @claimPush t weak x head hc =>
    have hhead : head = BitVec.ofNat 32 w.hist.pushes := by
      rw [(hC.thread t).head_eq hc, hC.head_eq]
    refine ⟨?_, hC.tail_eq, hC.threads ⟨?_, D.spec.pushEntry_point⟩ ?_ fun _ _ _ _ => rfl⟩
    · rw [World.next_mem, Mem.setHead_head, hhead, ← Wrap.ofNat_succ, World.next_hist,
        History.record_claimPush_pushes]
    · rw [hhead, Ring.slotOf]
      simp [History.record]
    · -- with one producer no other thread has a copy to go out of date
      intro t' hne hspsc hoff
      exact absurd (hS.push_eq hspsc t' t hoff (by rw [hc.offers]; simp)) hne
  | @claimPop t weak tail hc =>
    have htail : tail = BitVec.ofNat 32 w.hist.pops := by
      rw [(hC.thread t).tail_eq hc, hC.tail_eq]
    refine ⟨hC.head_eq, ?_, hC.threads ⟨?_, D.spec.popEntry_point⟩ (fun _ _ _ _ => rfl) ?_⟩
    · rw [World.next_mem, Mem.setTail_tail, htail, ← Wrap.ofNat_succ, World.next_hist,
        History.record_claimPop_pops]
    · rw [htail, Ring.slotOf]
      simp [History.record]
    · intro t' hne hspsc hpop
      exact absurd (hS.pop_eq hspsc t' t hpop hc.popping) hne
  | @pushNext t weak x i p p' hpc h =>
    have hl := hC.thread t
    rw [hpc] at hl
    exact hC.next rfl rfl History.record_pushAt_pushes History.record_pushAt_pops
      ⟨hl.1, D.spec.push_point hl.2 h⟩
  | pushDone hpc h =>
    exact hC.next rfl rfl History.record_pushAt_pushes History.record_pushAt_pops trivial
  | @popNext t weak i p p' hpc h =>
    have hl := hC.thread t
    rw [hpc] at hl
    exact hC.next rfl rfl History.record_popAt_pushes History.record_popAt_pops
      ⟨hl.1, D.spec.pop_point hl.2 h⟩
  | popDone hpc h =>
    exact hC.next rfl rfl History.record_popAt_pushes History.record_popAt_pops trivial

theorem counted_init : Counted (World.init D ι) := by
  refine ⟨rfl, rfl, fun t => ?_⟩
  change Local _ _ t .idle
  trivial

/-- **Every run keeps the counters exact.** -/
theorem counted_of_run {ok : World D ι → Act ι T → World D ι → Prop} (hok : Proper D ok)
    (hr : (machine D ι).Run ok w) : Counted w :=
  hr.invariant counted_init fun _ _ _ hr hC hs _ =>
    hC.step (sole_of_run hok hr) (change_of_step hs)

end AtomicQueue
