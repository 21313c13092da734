import AtomicQueue.Common.Helping
import AtomicQueue.Concurrent.Moves
import AtomicQueue.Concurrent.Checksum
/-!
# The programs end

A thread can poll a slot, a counter or a full queue for as long as others
let it, so no measure falls with every step. But while a program has not
ended some thread has work to do that no other can take from it: at the
barrier, on a slot it has won or can win, or with a claim for which there is
room or an element. Were there none, all calls in flight would wait, for
pops that are behind or for pushes that are; then the consumers have stopped
and so has everyone, or all messages have been received and so they have.
-/

namespace AtomicQueue

namespace Stress

variable {D : Derived Word} {p : Program} {s s' : World D p} {t u : p.Thread}

/-! ## What has been done -/

/-- How far a thread is. -/
def Pc.stage : Pc → ℕ
  | .countdown .decrement => 0
  | .countdown _ => 1
  | .push _ | .pop _ | .joinProducers => 2
  | .stop _ => 3
  | .joinConsumers => 4
  | .stopped _ | .done => 5

/-- There are five stages after the first. -/
theorem Pc.stage_le (pc : Pc) : pc.stage ≤ 5 := by
  cases pc with
  | countdown b => cases b <;> simp [Pc.stage]
  | _ => simp [Pc.stage]

theorem two_le_stage_start (t : p.Thread) : 2 ≤ (p.start t).stage := by
  cases t with
  | producer i =>
    change 2 ≤ (if p.biased = true then Pc.push p.n_msg else Program.pushLoop p.n_msg).stage
    rw [Program.pushLoop]
    split
    · exact le_rfl
    · split <;> simp [Pc.stage]
  | consumer i | main => exact le_rfl

theorem three_le_stage_stopLoop (left : ℕ) : 3 ≤ (Program.stopLoop left).stage := by
  rw [Program.stopLoop]
  split <;> simp [Pc.stage]

/-- No answer sets a thread back. -/
theorem stage_resume (pc : Pc) (r : Answer Word) : pc.stage ≤ (p.resume pc r).stage := by
  cases pc with
  | push n =>
    cases r with
    | done =>
      rw [Program.resume, Program.pushLoop]
      split <;> simp [Pc.stage]
    | _ => exact le_rfl
  | stop left =>
    cases r with
    | done => exact three_le_stage_stopLoop _
    | _ => exact le_rfl
  | pop sum =>
    cases r with
    | element n =>
      rw [Program.resume]
      split <;> simp [Pc.stage]
    | _ => exact le_rfl
  | _ => cases r <;> exact le_rfl

/-- What the calls and the threads have done. -/
def World.count (s : World D p) : ℕ := s.queue.events + ∑ t, (s.pc t).stage

/-- One thread's part of a sum changes. -/
theorem sum_update {ι β : Type} [Fintype ι] [DecidableEq ι] (g : β → ℕ) (f : ι → β) (t : ι)
    (b : β) :
    ∑ u, g (Function.update f t b u) + g (f t) = ∑ u, g (f u) + g b := by
  have hupdate : ∀ u, g (Function.update f t b u) = Function.update (fun u => g (f u)) t (g b) u :=
    fun u => Function.apply_update (fun _ => g) f t b u
  rw [Finset.sum_congr rfl fun u _ => hupdate u, Finset.sum_update_of_mem (Finset.mem_univ t),
    ← Finset.sum_sdiff (Finset.subset_univ {t}), Finset.sum_singleton]
  omega

/-! ## What a step does -/

def Act.thread : Act p → p.Thread
  | .call t | .step t _ | .own t => t

/-- **A step of thread `t` that adds nothing.** -/
structure Waits (s s' : World D p) (t : p.Thread) : Prop where
  still : Still s.queue s'.queue
  pc : s'.pc = s.pc
  counter : s'.counter = s.counter
  other : ∀ u, u ≠ t → s'.queue.pc u = s.queue.pc u

/-- **Every step adds to what has been done or leaves it alone.** -/
theorem count_lt_or (hS : Sound s.queue) (hP : Placed s) {a : Act p}
    (h : (machine D p).step s a = some s') : s.count < s'.count ∨ Waits s s' a.thread := by
  cases a with
  | call t =>
    obtain ⟨op, hop, hrest⟩ := Option.bind_eq_some_iff.mp h
    obtain ⟨queue, hq, rfl⟩ := Option.map_eq_some_iff.mp hrest
    have hc := AtomicQueue.change_of_step hq
    rcases hS.events_lt_or hc with hlt | hstill
    · exact Or.inl (Nat.add_lt_add_right hlt _)
    · exact Or.inr ⟨hstill, rfl, rfl, fun u hu => hc.pc_of_ne hu⟩
  | step t weak =>
    obtain ⟨queue, hq, rfl⟩ := step_eq h
    have hc := AtomicQueue.change_of_step hq
    have hdoes := hP.does hc
    generalize s.answer t weak = r at hdoes
    have hsum : ∑ u, (s.pc u).stage ≤ ∑ u, (s.after t r u).stage := by
      cases r with
      | none => exact le_rfl
      | some r =>
        have hupdate := sum_update Pc.stage s.pc t (p.resume (s.pc t) r)
        have hle := stage_resume (p := p) (s.pc t) r
        rw [World.after]
        omega
    rcases hS.events_lt_or hc with hlt | hstill
    · exact Or.inl (Nat.add_lt_add_of_lt_of_le hlt hsum)
    · refine Or.inr ⟨hstill, ?_, rfl, fun u hu => hc.pc_of_ne hu⟩
      cases hdoes with
      | goes | claims => rfl
      | refused =>
        rw [World.after, resume_refused]
        exact Function.update_eq_self t s.pc
      -- a return adds to it
      | pushed hidle hpushing =>
        have hslot := (hstill.slots t).1
        rw [hidle] at hslot
        cases hpc : s.queue.pc t <;> rw [hpc] at hpushing hslot <;> cases hpushing
        cases hslot
      | popped hidle hpopping hclaimed hpopped =>
        have hlen := congrArg List.length (congrFun hpopped t)
        rw [Function.update_self, AtomicQueue.World.popped, AtomicQueue.World.popped,
          hstill.received] at hlen
        simp at hlen
  | own t =>
    obtain ⟨⟨counter, pc⟩, hown, rfl⟩ := Option.map_eq_some_iff.mp h
    have hupdate := sum_update Pc.stage s.pc t pc
    have hlt : (s.pc t).stage < pc.stage →
        s.count < World.count { s with counter, pc := Function.update s.pc t pc } := by
      intro hstage
      rw [World.count, World.count]
      dsimp only
      omega
    cases own_of_eq hown with
    | decrement hpc => exact Or.inl (hlt (by rw [hpc]; exact Nat.zero_lt_one))
    | pass hpc hc => exact Or.inl (hlt (by rw [hpc]; exact two_le_stage_start t))
    | joinProducers hpc hall => exact Or.inl (hlt (by rw [hpc]; exact three_le_stage_stopLoop _))
    | joinConsumers hpc hall => exact Or.inl (hlt (by rw [hpc]; decide))
    | wait hpc hc =>
      refine Or.inr ⟨⟨rfl, rfl, rfl, rfl, rfl, fun _ h => h, fun _ => ⟨rfl, rfl⟩⟩, ?_, rfl,
        fun _ _ => rfl⟩
      rw [← hpc]
      exact Function.update_eq_self t s.pc

/-! ## The barrier -/

/-- A thread that has still to decrement the counter. -/
def Pc.outside (pc : Pc) : ℕ := if pc = .countdown .decrement then 1 else 0

/-- **While a thread is at the barrier its counter is the number of those
still to come**, modulo the range of a word. -/
def Arriving (s : World D p) : Prop :=
  ∀ t b, s.pc t = .countdown b →
    (∀ i, b ≠ .returned i) ∧ s.counter = BitVec.ofNat 32 (∑ u, (s.pc u).outside)

/-- A thread past its barrier does not count down. -/
theorem not_countdown_of_stage {pc : Pc} (h : 2 ≤ pc.stage) (b : Barrier2.Pc) :
    pc ≠ .countdown b := by
  rintro rfl
  cases b <;> simp [Pc.stage] at h

theorem outside_of_stage {pc : Pc} (h : 2 ≤ pc.stage) : pc.outside = 0 :=
  if_neg (not_countdown_of_stage h _)

theorem arriving_init : Arriving (World.init D p) := by
  intro t b hpc
  obtain ⟨heq, -, hbarrier⟩ := (first_eq t).resolve_right fun heq =>
    not_countdown_of_stage (two_le_stage_start t) b (heq.symm.trans hpc)
  have houtside : ∀ t : p.Thread, t ≠ .main → (p.first t).outside = 1 := by
    intro t ht
    cases t with
    | main => exact absurd rfl ht
    | producer i | consumer i => exact if_pos (if_pos hbarrier)
  refine ⟨fun i hi => ?_, ?_⟩
  · rw [hi] at hpc
    cases heq.symm.trans hpc
  change BitVec.ofNat 32 (p.producers + p.consumers) = BitVec.ofNat 32 (∑ u, (p.first u).outside)
  rw [sum_thread, Finset.sum_congr rfl fun i _ => houtside (.producer i) (by simp),
    Finset.sum_congr rfl fun i _ => houtside (.consumer i) (by simp)]
  simp [Program.first, Program.start, Pc.outside]

/-- Past the barrier or in the loop of it, a thread has decremented the
counter. -/
theorem Arriving.update (h : Arriving s) {counter : Word} {pc : Pc}
    {queue : AtomicQueue.World D p.Thread}
    (hout : (s.pc t).outside = 0) (hout' : pc.outside = 0) (hcounter : counter = s.counter)
    (hpc : ∀ b, pc = .countdown b → (∀ i, b ≠ .returned i) ∧ ∃ b', s.pc t = .countdown b') :
    Arriving (⟨queue, counter, Function.update s.pc t pc⟩ : World D p) := by
  intro u b hb
  have hsum := sum_update Pc.outside s.pc t pc
  have hold : (∀ i, b ≠ .returned i) ∧ ∃ v b', s.pc v = .countdown b' := by
    dsimp only at hb
    rcases eq_or_ne u t with rfl | hne
    · rw [Function.update_self] at hb
      obtain ⟨hret, b', hb'⟩ := hpc b hb
      exact ⟨hret, u, b', hb'⟩
    · rw [Function.update_of_ne hne] at hb
      exact ⟨(h u b hb).1, u, b, hb⟩
  obtain ⟨hret, v, b', hb'⟩ := hold
  refine ⟨hret, ?_⟩
  rw [hcounter, (h v b' hb').2]
  dsimp only
  congr 1
  omega

/-- **Every step keeps the arrivals counted.** -/
theorem Arriving.change (h : Arriving s) (hP : Placed s) (hc : Change s s') : Arriving s' := by
  cases hc with
  | call hop hq => exact h
  | @step t weak queue hq =>
    cases hr : s.answer t weak with
    | none => exact h
    | some r =>
      -- a thread in a call is past the barrier
      have hpast : 2 ≤ (s.pc t).stage := by
        have hcalls := ((hP.matched t).calling (step_ne_idle hq))
        cases hpc : s.pc t <;> try simp [Pc.stage]
        rw [AtomicQueue.Pc.Calling, hcalls.2.1, hcalls.2.2, hpc] at hcalls
        simp [Program.offers, Pc.popping] at hcalls
      have hnext := hpast.trans (stage_resume (p := p) (s.pc t) r)
      exact h.update (outside_of_stage hpast) (outside_of_stage hnext) rfl
        fun b hb => absurd hb (not_countdown_of_stage hnext b)
  | @own t counter pc hown =>
    cases own_of_eq hown with
    | decrement hpc =>
      intro u b hb
      have hsum := sum_update Pc.outside s.pc t (.countdown (.load (s.counter - 1)))
      have hone : (s.pc t).outside = 1 := if_pos hpc
      have hzero : (Pc.countdown (.load (s.counter - 1))).outside = 0 := if_neg (by simp)
      have hcounter := (h t _ hpc).2
      have hless : ∑ u, (s.pc u).outside =
          ∑ u, (Function.update s.pc t (.countdown (.load (s.counter - 1))) u).outside + 1 := by
        omega
      rw [hless, BitVec.ofNat_add] at hcounter
      refine ⟨fun i hi => ?_, (congrArg (· - 1) hcounter).trans (BitVec.add_sub_cancel _ _)⟩
      dsimp only at hb
      rcases eq_or_ne u t with rfl | hne
      · rw [Function.update_self, hi] at hb
        cases hb
      · rw [Function.update_of_ne hne] at hb
        exact (h u b hb).1 i hi
    | @wait i hpc hc =>
      refine h.update (by rw [hpc]; rfl) rfl rfl fun b hb => ⟨fun j hj => ?_, _, hpc⟩
      rw [hj] at hb
      cases hb
    | pass hpc hc =>
      exact h.update (by rw [hpc]; rfl) (outside_of_stage (two_le_stage_start t)) rfl
        fun b hb => absurd hb (not_countdown_of_stage (two_le_stage_start t) b)
    | joinProducers hpc hall =>
      have hstage : 2 ≤ (Program.stopLoop p.stops).stage :=
        le_trans (by decide) (three_le_stage_stopLoop p.stops)
      exact h.update (by rw [hpc]; rfl) (outside_of_stage hstage) rfl
        fun b hb => absurd hb (not_countdown_of_stage hstage b)
    | joinConsumers hpc hall =>
      exact h.update (by rw [hpc]; rfl) rfl rfl fun b hb => by cases hb

/-! ## Who helps -/

/-- **Thread `t` has work that no other can take from it.** -/
inductive Helps (s : World D p) (t : p.Thread) : Prop
  | moves (h : s.queue.Moves t)
  | push (hoffers : p.offers (s.pc t) ≠ none) (hslot : (s.queue.pc t).pushSlot = none)
      (hroom : s.queue.hist.pushes < s.queue.hist.pops + D.ring.slots)
  | pop (hpopping : (s.pc t).popping = true) (hslot : (s.queue.pc t).popSlot = none)
      (hsome : s.queue.hist.pops < s.queue.hist.pushes)
  | own {counter pc} (h : s.own t = some (counter, pc)) (hup : (s.pc t).stage < pc.stage)

/-- The turns of thread `t` to the next that adds to what has been done. -/
def World.near (s : World D p) (t : p.Thread) : ℕ := (s.queue.pc t).near s.queue.mem

/-- A thread that helps goes on to while others add nothing. -/
theorem Helps.of_waits (h : Helps s t) (hw : Waits s s' u) (hne : t ≠ u) :
    Helps s' t ∧ s'.near t = s.near t := by
  have hpc := hw.other t hne
  refine ⟨?_, by rw [World.near, World.near, hpc, Pc.near_congr hw.still.head hw.still.tail]⟩
  cases h with
  | moves h => exact .moves (h.of_still hw.still hpc)
  | push hoffers hslot hroom =>
    refine .push (by rwa [hw.pc]) (by rwa [hpc]) ?_
    rw [History.pushes, History.pops, hw.still.chan]
    exact hroom
  | pop hpopping hslot hsome =>
    refine .pop (by rwa [hw.pc]) (by rwa [hpc]) ?_
    rw [History.pushes, History.pops, hw.still.chan]
    exact hsome
  | @own counter pc h hup =>
    have hown : s'.own t = some (counter, pc) := by
      rw [← h, World.own, World.own, hw.pc, hw.counter]
    exact .own hown (by rwa [hw.pc])

/-- **A program that its queue can carry**: its messages may be pushed, the
slots are a power of two, and the counters tell how far pushes are ahead. -/
structure Carried (D : Derived Word) (p : Program) : Prop extends Stops D p where
  powerOfTwo : D.ring.PowerOfTwo
  admits : ∀ x ∈ p.messages, D.layout.admits x = true
  size : D.ring.slots + (p.producers + p.consumers + 1) < 2 ^ 31

/-- The producers, the consumers and the main thread. -/
theorem card_thread : Fintype.card p.Thread = p.producers + p.consumers + 1 := by
  rw [← Finset.card_univ, Finset.card_eq_sum_ones, sum_thread]
  simp

/-- The difference of the counters is that of the counts: no program makes
claims enough for them to turn apart. -/
theorem Steady.asSigned_sub (h : Steady s) (hp : Carried D p) :
    asSigned (s.queue.mem.head_ - s.queue.mem.tail_) =
      (s.queue.hist.pushes : ℤ) - s.queue.hist.pops :=
  h.sound.asSigned_sub (by rw [card_thread]; exact hp.size)

/-- **A turn of a thread in a call** takes its next step. -/
theorem Steady.turn_step (h : Steady s) (hne : s.queue.pc t ≠ .idle)
    (hnear : ∀ m pc e, D.advance false s.queue.mem (s.queue.pc t) = some (m, pc, e) →
      Still s.queue (s.queue.next t m pc e) → pc.near m < s.near t ∧
        ∀ s' : World D p, Waits s s' t → s'.queue = s.queue.next t m pc e → Helps s' t) :
    ∃ s', (turns D p).step s (t, false) = some s' ∧
      (s.count < s'.count ∨ Waits s s' t ∧ Helps s' t ∧ s'.near t < s.near t) := by
  obtain ⟨m, pc, e, hadv, hstep⟩ := exists_step false hne
  have hturn : s.turn t false = .step t false := by
    cases hpc : s.queue.pc t <;> first | exact absurd hpc hne | simp only [World.turn, hpc]
  have hnext : (machine D p).step s (.step t false) =
      some { s with queue := s.queue.next t m pc e, pc := s.after t (s.answer t false) } := by
    change (s.queue.step (.step t false)).map _ = _
    rw [show s.queue.step (.step t false) = some (s.queue.next t m pc e) from hstep]
    cases s.answer t false <;> rfl
  refine ⟨_, (congrArg s.step hturn).trans hnext, ?_⟩
  rcases count_lt_or (a := .step t false) h.sound h.placed hnext with hlt | hw
  · exact Or.inl hlt
  · obtain ⟨hlt, hhelps⟩ := hnear m pc e hadv hw.still
    refine Or.inr ⟨hw, hhelps _ hw rfl, ?_⟩
    rw [World.near, World.next_mem, World.next_pc_self]
    exact hlt

/-- **A turn of a thread before a call** begins it. -/
theorem Steady.turn_call (h : Steady s) (hidle : s.queue.pc t = .idle) {op : Op Word}
    {pc : AtomicQueue.Pc D} (hop : p.call (s.pc t) = some op) (hentry : D.entry op = some pc)
    (hhelps : ∀ s' : World D p, Waits s s' t → Helps s' t) :
    ∃ s', (turns D p).step s (t, false) = some s' ∧
      (s.count < s'.count ∨ Waits s s' t ∧ Helps s' t ∧ s'.near t < s.near t) := by
  have hturn : s.turn t false = .call t := by
    simp only [World.turn, hidle, hop, Option.isSome_some, if_true]
  have hnext : (machine D p).step s (.call t) =
      some { s with queue := s.queue.next t s.queue.mem pc (.call op) } := by
    change (p.call (s.pc t)).bind _ = _
    rw [hop, Option.bind_some]
    change ((s.queue.toState.step (.call t op)).map _).map _ = _
    rw [State.step, hidle, hentry]
    rfl
  refine ⟨_, (congrArg s.step hturn).trans hnext, ?_⟩
  rcases count_lt_or (a := .call t) h.sound h.placed hnext with hlt | hw
  · exact Or.inl hlt
  · refine Or.inr ⟨hw, hhelps _ hw, ?_⟩
    rw [World.near, World.near, World.next_mem, World.next_pc_self, hidle]
    cases begins_of_entry hentry <;> simp [Pc.near]

/-- A thread with a message calls a push, -/
theorem call_of_offers {pc : Pc} {x : Word} (hx : p.offers pc = some x) :
    p.call pc = some (if p.retries then .tryPush x else .push x) := by
  cases pc <;> cases hx <;> rfl

/-- and one that waits for a message a pop. -/
theorem call_of_popping {pc : Pc} (h : pc.popping = true) :
    p.call pc = some (if p.retries then .tryPop else .pop) := by
  cases pc <;> cases h
  rfl

/-- What a thread is to push is one of the messages. -/
theorem Steady.mem_messages (h : Steady s) (hidle : s.queue.pc t = .idle) {x : Word}
    (hx : p.offers (s.pc t) = some x) : x ∈ p.messages := by
  have hscript := h.accounted t
  rw [hidle, left_idle, todo_of_offers (h.placed.role t) hx] at hscript
  rw [← sum_script, Multiset.mem_sum]
  refine ⟨t, Finset.mem_univ t, ?_⟩
  rw [Multiset.mem_coe, ← hscript]
  simp

/-! ## A turn of a thread that helps -/

/-- **A turn at a slot that is ready** is progress, -/
theorem Steady.turn_moves (h : Steady s) (hm : s.queue.Moves t) :
    ∃ s', (turns D p).step s (t, false) = some s' ∧
      (s.count < s'.count ∨ Waits s s' t ∧ Helps s' t ∧ s'.near t < s.near t) := by
  have hne : s.queue.pc t ≠ .idle := by
    intro hidle
    have hslot := hm.slot
    rw [hidle] at hslot
    simp [Pc.pushSlot, Pc.popSlot] at hslot
  refine h.turn_step hne fun m pc e hadv hstill => ?_
  rcases h.sound.moves_step hm (change_of_advance hadv) with hlt | ⟨-, hmoves, hnear⟩
  · exact absurd hstill.events hlt.ne'
  · rw [World.next_pc_self, World.next_mem] at hnear
    exact ⟨hnear, fun s' _ hq => .moves (hq ▸ hmoves)⟩

/-- **so is one of a producer while there is room**, -/
theorem Steady.turn_push (h : Steady s) (hp : Carried D p) (hoffers : p.offers (s.pc t) ≠ none)
    (hslot : (s.queue.pc t).pushSlot = none)
    (hroom : s.queue.hist.pushes < s.queue.hist.pops + D.ring.slots) :
    ∃ s', (turns D p).step s (t, false) = some s' ∧
      (s.count < s'.count ∨ Waits s s' t ∧ Helps s' t ∧ s'.near t < s.near t) := by
  have hhelps : ∀ s' : World D p, Waits s s' t → Helps s' t := fun s' hw => by
    refine .push (by rwa [hw.pc]) ((hw.still.slots t).1.trans hslot) ?_
    rw [History.pushes, History.pops, hw.still.chan]
    exact hroom
  by_cases hidle : s.queue.pc t = .idle
  · obtain ⟨x, hx⟩ := Option.ne_none_iff_exists'.mp hoffers
    have hadm := hp.admits x (h.mem_messages hidle hx)
    have hop := call_of_offers hx
    cases hretries : p.retries <;> rw [hretries] at hop
    · exact h.turn_call hidle hop (if_pos hadm) hhelps
    · exact h.turn_call hidle hop (if_pos hadm) hhelps
  · refine h.turn_step hidle fun m pc e hadv hstill => ?_
    have hcalls := (h.placed.matched t).calling hidle
    have hsigned : asSigned (s.queue.mem.head_ - s.queue.mem.tail_) < asSigned D.ring.size_ := by
      have hsize := hp.size
      rw [h.asSigned_sub hp, Ring.asSigned_size (by omega)]
      omega
    rcases near_push hadv (by rwa [hcalls.2.1]) hslot hsigned with hclaims | ⟨rfl, hlt⟩
    · have hsame := (hstill.slots t).1
      rw [World.next_pc_self, hslot] at hsame
      exact absurd hsame hclaims
    · exact ⟨hlt, fun s' hw _ => hhelps s' hw⟩

/-- **one of a consumer while there is an element**, -/
theorem Steady.turn_pop (h : Steady s) (hp : Carried D p) (hpopping : (s.pc t).popping = true)
    (hslot : (s.queue.pc t).popSlot = none)
    (hsome : s.queue.hist.pops < s.queue.hist.pushes) :
    ∃ s', (turns D p).step s (t, false) = some s' ∧
      (s.count < s'.count ∨ Waits s s' t ∧ Helps s' t ∧ s'.near t < s.near t) := by
  have hhelps : ∀ s' : World D p, Waits s s' t → Helps s' t := fun s' hw => by
    refine .pop (by rwa [hw.pc]) ((hw.still.slots t).2.trans hslot) ?_
    rw [History.pushes, History.pops, hw.still.chan]
    exact hsome
  by_cases hidle : s.queue.pc t = .idle
  · have hop := call_of_popping (p := p) hpopping
    cases hretries : p.retries <;> rw [hretries] at hop
    · exact h.turn_call hidle hop rfl hhelps
    · exact h.turn_call hidle hop rfl hhelps
  · refine h.turn_step hidle fun m pc e hadv hstill => ?_
    have hcalls := (h.placed.matched t).calling hidle
    have hsigned : 0 < asSigned (s.queue.mem.head_ - s.queue.mem.tail_) := by
      rw [h.asSigned_sub hp]
      omega
    rcases near_pop hadv (by rwa [hcalls.2.2]) hslot hsigned with hclaims | ⟨rfl, hlt⟩
    · have hsame := (hstill.slots t).2
      rw [World.next_pc_self, hslot] at hsame
      exact absurd hsame hclaims
    · exact ⟨hlt, fun s' hw _ => hhelps s' hw⟩

/-- **and one of a thread outside the queue.** -/
theorem Steady.turn_own (h : Steady s) {counter : Word} {pc : Pc}
    (hown : s.own t = some (counter, pc)) (hup : (s.pc t).stage < pc.stage) :
    ∃ s', (turns D p).step s (t, false) = some s' ∧ s.count < s'.count := by
  have hcall : p.call (s.pc t) = none := by
    rcases own_cases hown with ⟨b, hpc, -⟩ | ⟨hpc, -⟩ | ⟨hpc, -⟩ <;> rw [hpc] <;> rfl
  have hturn : s.turn t false = .own t := by
    simp only [World.turn, h.placed.idle_of_own hown, hcall]
    rfl
  have hnext : (machine D p).step s (.own t) =
      some { s with counter, pc := Function.update s.pc t pc } := by
    change (s.own t).map _ = _
    rw [hown]
    rfl
  refine ⟨_, (congrArg s.step hturn).trans hnext, ?_⟩
  have hupdate := sum_update Pc.stage s.pc t pc
  rw [World.count, World.count]
  dsimp only
  omega

/-- **A turn of a thread that helps** adds to what has been done or brings
the thread nearer. -/
theorem Steady.turn_of_helps (h : Steady s) (hp : Carried D p) (hhelps : Helps s t) :
    ∃ s', (turns D p).step s (t, false) = some s' ∧
      (s.count < s'.count ∨ Waits s s' t ∧ Helps s' t ∧ s'.near t < s.near t) := by
  cases hhelps with
  | moves hm => exact h.turn_moves hm
  | push hoffers hslot hroom => exact h.turn_push hp hoffers hslot hroom
  | pop hpopping hslot hsome => exact h.turn_pop hp hpopping hslot hsome
  | own hown hup =>
    obtain ⟨s', hs', hlt⟩ := h.turn_own hown hup
    exact ⟨s', hs', Or.inl hlt⟩

/-! ## Where nobody helps -/

/-- A program has ended when all its threads have. -/
def World.Ended (s : World D p) : Prop := ∀ t, (s.pc t).ended = true

/-- Whoever is on a slot to push is pushing. -/
theorem Placed.offers_of_pushSlot (h : Placed s) {i : Fin D.ring.slots}
    (hslot : (s.queue.pc t).pushSlot = some i) : p.offers (s.pc t) ≠ none := by
  obtain ⟨x, q, hpc⟩ := Pc.pushSlot_eq.mp hslot
  rw [← ((h.matched t).calling (by rw [hpc]; simp)).2.1, hpc]
  exact Option.some_ne_none x

/-- No consumer has received two messages that stop it. -/
theorem Tallied.count_le (h : Tallied s) (i : Fin p.consumers) :
    Multiset.count p.stop (s.queue.popped (.consumer i) : Multiset Word) ≤ 1 := by
  have ht := h (.consumer i)
  rw [Multiset.coe_count]
  cases hpc : s.pc (.consumer i) <;> rw [hpc] at ht
  case pop sum =>
    rw [List.count_eq_zero_of_not_mem ht.1]
    exact Nat.zero_le 1
  case stopped sum => exact ht.1.le
  all_goals
    rw [show s.queue.popped (.consumer i) = [] from ht]
    exact Nat.zero_le 1

section

variable (hno : ∀ t, ¬ Helps s t)
include hno

theorem not_moves (t : p.Thread) : ¬ s.queue.Moves t := fun h => hno t (.moves h)

/-- Nobody is at the barrier, -/
theorem not_countdown (h : Arriving s) (t : p.Thread) (b : Barrier2.Pc) :
    s.pc t ≠ .countdown b := by
  intro ht
  have harrived : ∀ u, s.pc u ≠ .countdown .decrement := fun u hu => by
    have hown : s.own u = some (s.counter - 1, .countdown (.load (s.counter - 1))) := by
      rw [World.own, hu]
      rfl
    exact hno u (.own hown (by rw [hu]; exact Nat.zero_lt_one))
  cases b with
  | decrement => exact harrived t ht
  | returned i => exact (h t _ ht).1 i rfl
  | load i =>
    have hzero : s.counter = 0 := by
      have houtside : ∀ u, (s.pc u).outside = 0 := fun u => if_neg (harrived u)
      rw [(h t _ ht).2, Finset.sum_eq_zero fun u _ => houtside u]
      rfl
    have hown : s.own t = some (s.counter, p.start t) := by
      rw [World.own, ht]
      simp only [Barrier2.advance, hzero]
      rfl
    exact hno t (.own hown (by rw [ht]; exact two_le_stage_start t))

/-- whoever is to push finds no room, -/
theorem Steady.le_of_offers (h : Steady s) (hp : Carried D p) (ht : p.offers (s.pc t) ≠ none) :
    s.queue.hist.pops + D.ring.slots ≤ s.queue.hist.pushes := by
  cases hslot : (s.queue.pc t).pushSlot with
  | none => exact not_lt.mp fun hroom => hno t (.push ht hslot hroom)
  | some i => exact (pops_lt_of_pushSlot (not_moves hno) h.sound h.chan hp.powerOfTwo hslot).le

/-- and whoever is to pop finds no element. -/
theorem Steady.le_of_popping (h : Steady s) (ht : (s.pc t).popping = true) :
    s.queue.hist.pushes ≤ s.queue.hist.pops := by
  cases hslot : (s.queue.pc t).popSlot with
  | none => exact not_lt.mp fun hsome => hno t (.pop ht hslot hsome)
  | some i => exact (pushes_lt_of_popSlot (not_moves hno) h.sound h.chan hslot).le

/-- Producers with nothing to push have ended, -/
theorem Steady.producer_done (h : Steady s) (hA : Arriving s)
    (hoffers : ∀ t, p.offers (s.pc t) = none) (i : Fin p.producers) :
    s.pc (.producer i) = .done := by
  have hrole := h.placed.role (.producer i)
  have hoffers := hoffers (.producer i)
  have hpast := not_countdown hno hA (.producer i)
  cases hpc : s.pc (.producer i) with
  | countdown b => exact absurd hpc (hpast b)
  | push n =>
    rw [hpc] at hoffers
    cases hoffers
  | done => rfl
  | _ =>
    rw [hpc] at hrole
    cases hrole

/-- the main thread has joined them, -/
theorem Steady.main_joined (h : Steady s) (hA : Arriving s)
    (hoffers : ∀ t, p.offers (s.pc t) = none) :
    s.pc .main = .joinConsumers ∨ s.pc .main = .done := by
  have hrole := h.placed.role .main
  have hoffers' := hoffers .main
  cases hpc : s.pc .main with
  | joinConsumers => exact Or.inl rfl
  | done => exact Or.inr rfl
  | stop left =>
    rw [hpc] at hoffers'
    cases hoffers'
  | joinProducers =>
    have hown : s.own .main = some (s.counter, Program.stopLoop p.stops) := by
      rw [World.own, hpc]
      refine if_pos fun i => ?_
      rw [h.producer_done hno hA hoffers i]
      rfl
    exact absurd (.own hown (by rw [hpc]; exact three_le_stage_stopLoop _)) (hno .main)
  | _ =>
    rw [hpc] at hrole
    cases hrole

/-- and nothing is left to push. -/
theorem Steady.left_eq_nil (h : Steady s) (hA : Arriving s)
    (hoffers : ∀ t, p.offers (s.pc t) = none) (t : p.Thread) :
    p.left t (s.queue.pc t) (s.pc t) = [] := by
  cases t with
  | consumer i => exact h.placed.left_consumer i
  | producer i =>
    rw [h.producer_done hno hA hoffers i]
    exact ite_self _
  | main =>
    rcases h.main_joined hno hA hoffers with hpc | hpc <;> rw [hpc] <;> exact ite_self _

/-- **Nobody is popping**: with pushes behind, nobody is pushing, so all
messages have been received, one that stops for each consumer. -/
theorem Steady.not_popping (h : Steady s) (hA : Arriving s) (hp : Carried D p) (t : p.Thread) :
    (s.pc t).popping = false := by
  by_contra hpopping
  have hpopping := eq_true_of_ne_false hpopping
  have hle := h.le_of_popping hno hpopping
  have hpos : 0 < D.ring.slots := D.ring.size_pos
  have hoffers : ∀ u, p.offers (s.pc u) = none := fun u => by
    by_contra hu
    have := h.le_of_offers hno hp hu
    omega
  have hpush : ∀ u, (s.queue.pc u).pushSlot = none := fun u => by
    by_contra hslot
    obtain ⟨i, hi⟩ := Option.ne_none_iff_exists'.mp hslot
    exact h.placed.offers_of_pushSlot hi (hoffers u)
  have hreceived := received_eq_of_pushes_le (not_moves hno) h.sound h.chan hpush hle
  have hpushed := h.accounted.sum
  rw [Finset.sum_congr rfl fun u _ => congrArg _ (h.left_eq_nil hno hA hoffers u), Multiset.coe_nil,
    Finset.sum_const_zero, add_zero] at hpushed
  -- each consumer has received at most one, and the one popping none
  have hcount := hp.count_messages
  rw [← hpushed, ← hreceived, ← h.tallied.sum_popped h.placed, Multiset.count_sum'] at hcount
  have hone : ∀ i, Multiset.count p.stop (s.queue.popped (.consumer i) : Multiset Word) ≤ 1 :=
    fun i => h.tallied.count_le i
  obtain ⟨j, sum, rfl, hpc⟩ := h.placed.consumer_of_popping hpopping
  have hzero : Multiset.count p.stop (s.queue.popped (.consumer j) : Multiset Word) = 0 := by
    have ht := h.tallied (.consumer j)
    rw [hpc] at ht
    exact Multiset.count_eq_zero.mpr ht.1
  have hlt : ∑ i, Multiset.count p.stop (s.queue.popped (.consumer i) : Multiset Word) <
      ∑ _i : Fin p.consumers, 1 :=
    Finset.sum_lt_sum (fun i _ => hone i) ⟨j, Finset.mem_univ j, by omega⟩
  rw [hcount, Finset.sum_const, Finset.card_univ, Fintype.card_fin, nsmul_eq_mul, Nat.cast_id,
    mul_one] at hlt
  exact lt_irrefl _ hlt

/-- **All have ended.** -/
theorem Steady.ended (h : Steady s) (hA : Arriving s) (hp : Carried D p) : s.Ended := by
  have hstopped : s.Stopped := fun i => by
    have hrole := h.placed.role (.consumer i)
    have hnot := h.not_popping hno hA hp (.consumer i)
    have hpast := not_countdown hno hA (.consumer i)
    cases hpc : s.pc (.consumer i) with
    | countdown b => exact absurd hpc (hpast b)
    | pop sum =>
      rw [hpc] at hnot
      cases hnot
    | stopped sum => rfl
    | _ =>
      rw [hpc] at hrole
      cases hrole
  have hleft := h.placed.left_eq_nil hp.toStops (h.not_mem_left hp.toStops hstopped)
  have hquiet := h.quiescent hp.toStops hstopped
  have hoffers : ∀ t, p.offers (s.pc t) = none := fun t => by
    by_contra ht
    obtain ⟨x, hx⟩ := Option.ne_none_iff_exists'.mp ht
    have hpushing : (s.queue.pc t).pushing = false := by
      cases hpc : s.queue.pc t with
      | doPush y i q => exact absurd (Or.inl (by rw [hpc]; rfl)) (hquiet t i)
      | _ => rfl
    have htodo := hleft t
    rw [left_of_not_pushing hpushing, todo_of_offers (h.placed.role t) hx] at htodo
    cases htodo
  intro t
  cases t with
  | consumer i => exact hstopped i
  | producer i =>
    rw [h.producer_done hno hA hoffers i]
    rfl
  | main =>
    rcases h.main_joined hno hA hoffers with hpc | hpc
    · have hown : s.own .main = some (s.counter, .done) := by
        rw [World.own, hpc]
        exact if_pos hstopped
      exact absurd (.own hown (by rw [hpc]; decide)) (hno .main)
    · rw [hpc]
      rfl

end

/-- **A program that has not ended has a thread with work to do.** -/
theorem Steady.exists_helps (h : Steady s) (hA : Arriving s) (hp : Carried D p) (hend : ¬ s.Ended) :
    ∃ t, Helps s t := by
  by_contra hno
  exact hend (h.ended (fun t ht => hno ⟨t, ht⟩) hA hp)

/-! ## What there is to do -/

/-- **There is an end to what the calls do**: a bound by the messages and
the threads, of which each may claim a pop that is never served. -/
theorem Steady.count_le (h : Steady s) :
    s.count ≤ 6 * p.messages.card + 6 * Fintype.card p.Thread := by
  have hpushes : s.queue.hist.pushes ≤ p.messages.card := by
    have := h.accounted.pushes_add
    omega
  have hpops := h.sound.pops_le
  have hputs : s.queue.hist.chan.puts.length ≤ s.queue.hist.pushes := by
    have hsub := List.subperm_of_subset h.sound.chan.puts_nodup fun k hk =>
      List.mem_range.mpr (h.sound.chan.puts_lt k hk)
    simpa using hsub.length_le
  have htakes := h.sound.takes_le.2
  have hstored : s.queue.hist.stored.length ≤ s.queue.hist.chan.puts.length := by
    have hsub := (List.subperm_of_subset h.sound.pushTickets.done_nodup
      h.sound.pushTickets.done_served).length_le
    simpa [AtomicQueue.World.pushTickets] using hsub
  have hreceived : s.queue.hist.received.length ≤ s.queue.hist.pushes := by
    have hcard := Multiset.card_le_card h.sound.received_le
    rwa [Multiset.coe_card, Multiset.coe_card, List.length_map, List.length_map] at hcard
  have hstages : ∑ t, (s.pc t).stage ≤ Fintype.card p.Thread * 5 := by
    have hle := Finset.sum_le_card_nsmul Finset.univ (fun t => (s.pc t).stage) 5
      fun t _ => (s.pc t).stage_le
    rwa [Finset.card_univ, nsmul_eq_mul, Nat.cast_id] at hle
  rw [World.count, AtomicQueue.World.events]
  omega

/-- A turn that waits does nothing that counts. -/
theorem Waits.count (h : Waits s s' t) : s'.count = s.count := by
  rw [World.count, World.count, h.still.events, h.pc]

theorem thread_turn (s : World D p) (t : p.Thread) (weak : Bool) : (s.turn t weak).thread = t := by
  rw [World.turn]
  repeat' split
  all_goals rfl

/-! ## Fair schedules -/

/-- What the threads do in turn they can do in any order. -/
theorem reachable_of_turns (hr : (turns D p).Reachable s) : (machine D p).Reachable s := by
  refine Machine.Run.invariant (M := turns D p) .init ?_ hr
  rintro s ⟨t, weak⟩ s' - h hs -
  exact h.step (a := s.turn t weak) hs trivial

theorem arriving_of_run (hp : Stops D p) (hr : (machine D p).Reachable s) : Arriving s :=
  hr.invariant arriving_init fun _ _ _ hr h hs _ =>
    h.change (steady_of_run hp hr).placed (change_of_step hs)

/-- **The threads help a program to its end**, where no exchange fails
spuriously. -/
def helping (hp : Carried D p) :
    Machine.Helping (turns D p) Prod.fst (fun a => a.2 = false) World.Ended where
  count := World.count
  bound := 6 * p.messages.card + 6 * Fintype.card p.Thread
  helps := Helps
  near := World.near
  count_le s hr := (steady_of_run hp.toStops (reachable_of_turns hr)).count_le
  exists_helps s hr hend :=
    (steady_of_run hp.toStops (reachable_of_turns hr)).exists_helps
      (arriving_of_run hp.toStops (reachable_of_turns hr)) hp hend
  turn := by
    rintro s ⟨u, weak⟩ t hr rfl hhelps
    have h := steady_of_run hp.toStops (reachable_of_turns hr)
    rcases eq_or_ne u t with rfl | hne
    · obtain ⟨s', hs', hlt | ⟨hw, hnext, hnear⟩⟩ := h.turn_of_helps hp hhelps
      · rw [Machine.turn_of_step hs']
        exact Or.inl hlt
      · rw [Machine.turn_of_step hs']
        exact Or.inr ⟨hw.count, hnext, hnear.le, fun _ => hnear⟩
    · cases hs : (turns D p).step s (u, false) with
      | none =>
        rw [Machine.turn_of_none hs]
        exact Or.inr ⟨rfl, hhelps, le_rfl, fun heq => absurd heq hne⟩
      | some s' =>
        rw [Machine.turn_of_step hs]
        rcases count_lt_or h.sound h.placed hs with hlt | hw
        · exact Or.inl hlt
        · rw [thread_turn] at hw
          obtain ⟨hnext, hnear⟩ := hhelps.of_waits hw hne.symm
          exact Or.inr ⟨hw.count, hnext, hnear.le, fun heq => absurd heq hne⟩

/-- **The programs end.** If every thread gets turns forever and only
finitely many exchanges fail spuriously, all threads end, with every message
received once and the sum that of the messages. -/
theorem exists_delivered (hp : Carried D p) {sched : ℕ → p.Thread × Bool}
    (hfair : ∀ t k, ∃ k' ≥ k, (sched k').1 = t) (hweak : ∃ k, ∀ j ≥ k, (sched j).2 = false) :
    ∃ k, ((turns D p).follow sched k).Ended ∧ Delivered ((turns D p).follow sched k) := by
  obtain ⟨k, hend⟩ := (helping hp).exists_goal hfair hweak
  have hr := reachable_of_turns ((turns D p).reachable_follow sched k)
  exact ⟨k, hend, (steady_of_run hp.toStops hr).delivered hp.toStops fun i => hend _⟩

/-! ## The programs of the repository -/

/-- A message is from a producer, or stops a consumer. -/
theorem mem_messages {x : Word} (hx : x ∈ p.messages) : x ∈ downFrom p.n_msg ∨ x = p.stop := by
  rcases Multiset.mem_add.mp hx with h | h
  · exact Or.inl (Multiset.mem_of_mem_nsmul h)
  · exact Or.inr (Multiset.eq_of_mem_replicate h)

/-- The stress test, whose queues take all words but `0`. -/
theorem carried_stress (retries : Bool) (hpow : D.ring.PowerOfTwo)
    (hsize : D.ring.slots + 7 < 2 ^ 31) (hadmits : ∀ x : Word, x ≠ 0 → D.layout.admits x = true) :
    Carried D (stress D.spsc_ retries) where
  toStops := stops_stress retries
  powerOfTwo := hpow
  admits x hx := by
    refine hadmits x ?_
    rcases mem_messages hx with h | rfl
    · exact (mem_downFrom.mp h).1
    · exact (by decide : (-1 : Word) ≠ 0)
  size := by
    cases h : D.spsc_ <;> simp only [stress] <;> simp <;> omega

/-- The queue of the example takes all words but `-1`. -/
theorem carried_exampleMain (h : D.spsc_ = false) (hpow : D.ring.PowerOfTwo)
    (hsize : D.ring.slots + 4 < 2 ^ 31) (hadmits : ∀ x : Word, x ≠ -1 → D.layout.admits x = true) :
    Carried D exampleMain where
  toStops := stops_exampleMain h
  powerOfTwo := hpow
  admits x hx := by
    refine hadmits x ?_
    rcases mem_messages hx with h | rfl
    · rintro rfl
      exact absurd (mem_downFrom.mp h).2 (by decide)
    · exact (by decide : (0 : Word) ≠ -1)
  size := hsize

/-- The benchmark, on a queue that takes all words but `0`. -/
theorem carried_throughput {n_threads : ℕ} {n_producer_msg : Word} {retries : Bool}
    (hstops : Stops D (throughput n_threads n_producer_msg retries)) (hpow : D.ring.PowerOfTwo)
    (hsize : D.ring.slots + (n_threads + n_threads + 1) < 2 ^ 31)
    (hadmits : ∀ x : Word, x ≠ 0 → D.layout.admits x = true) :
    Carried D (throughput n_threads n_producer_msg retries) where
  toStops := hstops
  powerOfTwo := hpow
  admits x hx := by
    refine hadmits x ?_
    rcases mem_messages hx with h | rfl
    · exact (mem_downFrom.mp h).1
    · exact (by decide : (1 : Word) ≠ 0)
  size := hsize

/-- The threads of a program, -/
def Program.threads (p : Program) : List p.Thread :=
  .main :: ((List.finRange p.producers).map .producer ++ (List.finRange p.consumers).map .consumer)

/-- which are these, -/
theorem mem_threads (t : p.Thread) : t ∈ p.threads := by
  cases t <;> simp [Program.threads]

/-- one after the other. -/
def roundRobin (p : Program) (n : ℕ) : p.Thread × Bool :=
  (p.threads.getD (n % p.threads.length) .main, false)

/-- Turn after turn every thread is run again and again. -/
theorem roundRobin_fair (t : p.Thread) (k : ℕ) : ∃ k' ≥ k, (roundRobin p k').1 = t := by
  obtain ⟨i, hi, rfl⟩ := List.mem_iff_getElem.mp (mem_threads t)
  refine ⟨p.threads.length * k + i, ?_, ?_⟩
  · exact (Nat.le_mul_of_pos_left k (Nat.zero_lt_of_lt hi)).trans (Nat.le_add_right _ i)
  · rw [roundRobin, Nat.mul_add_mod, Nat.mod_eq_of_lt hi, List.getD_eq_getElem _ _ hi]

/-- Two producers and two consumers, one turn after the other for all of
them. -/
theorem exists_delivered_run :
    ∃ k, ((turns twoWords (throughput 2 2 true)).follow (roundRobin _) k).Ended ∧
      Delivered ((turns twoWords (throughput 2 2 true)).follow (roundRobin _) k) := by
  have hstops : Stops twoWords (throughput 2 2 true) :=
    stops_throughput (by decide) (by decide) nofun (by decide)
  have hp : Carried twoWords (throughput 2 2 true) :=
    carried_throughput hstops ⟨1, rfl⟩ (by decide) fun _ hx => decide_eq_true hx
  exact exists_delivered hp roundRobin_fair ⟨0, fun _ _ => rfl⟩

end Stress

end AtomicQueue
