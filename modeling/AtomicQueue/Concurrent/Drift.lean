import AtomicQueue.Concurrent.Returns
/-!
# Steps on values out of date

A thread may test a counter by a value that is out of date, and wait for a
slot that has long changed. Such a step claims nothing and wins nothing, so
it keeps all that the steps on current values keep, as long as with `spsc_`
the producer knows `head_` and the consumer `tail_`.
-/

namespace AtomicQueue

variable {T ι : Type} [DecidableEq T] [DecidableEq ι] {D : Derived T}
variable {w w' : World D ι} {a : Act ι T} {t : ι}

/-- **A step of thread `t` on values out of date.** -/
inductive Drift (w : World D ι) (t : ι) : World D ι → Prop
  /-- The counters read are those of some memory `m`. -/
  | quiet {m pc e} (h : Quiet m (w.pc t) pc e)
      (hhead : D.spsc_ = true → (w.pc t).offers ≠ none → m.head_ = w.mem.head_)
      (htail : D.spsc_ = true → (w.pc t).popping = true → m.tail_ = w.mem.tail_) :
      Drift w t (w.next t w.mem pc e)
  | pushWait {x i p p'} (hpc : w.pc t = .doPush x i p) (hp : D.layout.pushOwns p = false)
      (hp' : D.layout.pushOwns p' = false) (hpoint : D.spec.PushPoint p') :
      Drift w t (w.next t w.mem (.doPush x i p') (.pushAt x i false false))
  | popWait {i p p'} (hpc : w.pc t = .doPop i p) (hp : D.layout.popOwns p = false)
      (hp' : D.layout.popOwns p' = false) (hpoint : D.spec.PopPoint p') :
      Drift w t (w.next t w.mem (.doPop i p') (.popAt i false none))

/-- A thread that pushes after such a step did before. -/
theorem Drift.offers (h : Drift w t w') {u : ι} {x : T} (hx : (w'.pc u).offers = some x) :
    (w.pc u).offers = some x := by
  rcases eq_or_ne u t with rfl | hne
  · cases h <;> rw [World.next_pc_self] at hx
    case quiet h _ _ => exact h.offers hx
    case pushWait hpc _ _ _ => rw [hpc]; exact hx
    case popWait => cases hx
  · cases h <;> rwa [World.next_pc_of_ne hne] at hx

/-- A thread that drifts does not start to pop. -/
theorem Drift.popping (h : Drift w t w') {u : ι} (hpop : (w'.pc u).popping = true) :
    (w.pc u).popping = true := by
  rcases eq_or_ne u t with rfl | hne
  · cases h <;> rw [World.next_pc_self] at hpop
    case quiet h _ _ => exact h.popping hpop
    case pushWait => cases hpop
    case popWait hpc _ _ _ => rw [hpc]; rfl
  · cases h <;> rwa [World.next_pc_of_ne hne] at hpop

/-- **The counters stay counted**, whatever copies a thread has of them. -/
theorem Counted.drift (hC : Counted w) (h : Drift w t w') : Counted w' := by
  cases h with
  | @quiet m pc e hq hhead htail =>
    have hrec : (w.hist.record t e).chan = w.hist.chan := by rw [History.record_quiet hq]
    refine hC.next rfl rfl (by rw [hrec]) (by rw [hrec]) ?_
    -- what the thread read of `m` it could have read of the memory, where that counts
    have hl : Local m (w.hist.record t e) t pc := by
      refine Local.quiet (h := w.hist) ?_ hq
      exact (hC.thread t).frame rfl rfl hhead htail
    refine hl.frame rfl rfl (fun hspsc hoff => (hhead hspsc ?_).symm)
      fun hspsc hpop => (htail hspsc (hq.popping hpop)).symm
    obtain ⟨x, hx⟩ := Option.ne_none_iff_exists'.mp hoff
    rw [hq.offers hx]
    simp
  | pushWait hpc hp hp' hpoint =>
    have hl := hC.thread t
    rw [hpc] at hl
    exact hC.next rfl rfl rfl rfl ⟨hl.1, hpoint⟩
  | popWait hpc hp hp' hpoint =>
    have hl := hC.thread t
    rw [hpc] at hl
    exact hC.next rfl rfl rfl rfl ⟨hl.1, hpoint⟩

/-- The record of such a step leaves all but the time. -/
theorem Drift.hist (h : Drift w t w') :
    w'.hist = { w.hist with clock := w.hist.clock + 1 } := by
  cases h with
  | quiet h => exact History.record_quiet h
  | pushWait => rfl
  | popWait => simp [History.record]

/-- No thread changes its status among the tickets. -/
theorem Drift.status (h : Drift w t w') (u : ι) :
    (w'.pc u).pushStatus = (w.pc u).pushStatus ∧ (w'.pc u).popStatus = (w.pc u).popStatus := by
  rcases eq_or_ne u t with rfl | hne
  · cases h <;> rw [World.next_pc_self]
    case quiet h _ _ => exact h.status
    case pushWait hpc hp hp' _ => rw [hpc]; simp [Pc.pushStatus, Pc.popStatus, hp, hp']
    case popWait hpc hp hp' _ => rw [hpc]; simp [Pc.pushStatus, Pc.popStatus, hp, hp']
  · cases h <;> rw [World.next_pc_of_ne hne] <;> exact ⟨rfl, rfl⟩

/-- The tickets of the pushes are as they were, -/
theorem Drift.pushTickets (h : Drift w t w') : w'.pushTickets = w.pushTickets := by
  rw [World.pushTickets, World.pushTickets, h.hist]
  simp only [Tickets.mk.injEq, and_true, true_and]
  exact funext fun u => (h.status u).1

/-- and so are those of the pops. -/
theorem Drift.popTickets (h : Drift w t w') : w'.popTickets = w.popTickets := by
  rw [World.popTickets, World.popTickets, h.hist]
  simp only [Tickets.mk.injEq, and_true, true_and]
  exact funext fun u => (h.status u).2

/-- **The slots stay as they are linked to the history.** -/
theorem Slotted.drift (hL : Slotted w) (h : Drift w t w') : Slotted w' := by
  cases h with
  | quiet hq => exact hL.outside hq.owns.1 hq.owns.2 rfl (by rw [History.record_quiet hq])
  | pushWait hpc hp hp' =>
    exact hL.outside (by rw [hpc]; simp [Pc.owns, hp]) (by simp [Pc.owns, hp']) rfl rfl
  | popWait hpc hp hp' =>
    exact hL.outside (by rw [hpc]; simp [Pc.owns, hp]) (by simp [Pc.owns, hp']) rfl rfl

/-- **A step of thread `t`**, on current values or on values out of date. -/
inductive Stepped (w : World D ι) (t : ι) (w' : World D ι) : Prop
  | change {weak} (h : Change w (.step t weak) w')
  | drift (h : Drift w t w')

/-! ## Who pushes and who pops -/

/-- **Thread `P` pushes and thread `C` pops**, and no others. -/
structure Sides (P C : ι) (w : World D ι) : Prop where
  push_eq : ∀ t, (w.pc t).offers ≠ none → t = P
  pop_eq : ∀ t, (w.pc t).popping = true → t = C

variable {P C : ι}

omit [DecidableEq ι] in
/-- Before any call both sides are kept, -/
theorem Sides.of_idle (h : ∀ t, w.pc t = .idle) : Sides P C w :=
  ⟨fun t ht => absurd (by rw [h]; rfl) ht, fun t ht => by rw [h] at ht; cases ht⟩

/-- and each keeps to its threads at a step -/
theorem Sides.change (h : Sides P C w) (hc : Change w a w') (hok : OneEach P C a) :
    Sides P C w' where
  push_eq t ht := by
    obtain ⟨x, hx⟩ := Option.ne_none_iff_exists'.mp ht
    rcases hc.offers hx with hold | ⟨op, pc, rfl, hentry, hpc⟩
    · exact h.push_eq t (by rw [hold]; simp)
    · rcases (entry_offers hentry hpc).2 with rfl | rfl <;> exact hok
  pop_eq t ht := by
    rcases hc.popping ht with hold | ⟨op, pc, rfl, hentry, hpc⟩
    · exact h.pop_eq t hold
    · rcases entry_popping hentry hpc with rfl | rfl <;> exact hok

/-- and at a drift. -/
theorem Sides.drift (h : Sides P C w) (hd : Drift w t w') : Sides P C w' where
  push_eq u hu := by
    obtain ⟨x, hx⟩ := Option.ne_none_iff_exists'.mp hu
    exact h.push_eq u (by rw [hd.offers hx]; simp)
  pop_eq u hu := h.pop_eq u (hd.popping hu)

/-- **Without `spsc_` any thread pushes and pops**, with it one each. -/
inductive Homed (w : World D ι) : Option (ι × ι) → Prop
  | crowd (hspsc : D.spsc_ = false) : Homed w none
  | pair {P C : ι} (hspsc : D.spsc_ = true) (hsides : Sides P C w) : Homed w (some (P, C))

/-- The condition on the calls. -/
def OneEach.Of : Option (ι × ι) → Act ι T → Prop
  | none, _ => True
  | some (P, C), a => OneEach P C a

variable {roles : Option (ι × ι)}

omit [DecidableEq T] [DecidableEq ι] in
theorem OneEach.of_step {weak : Bool} : OneEach.Of roles (.step t weak : Act ι T) := by
  rcases roles with _ | ⟨P, C⟩ <;> trivial

omit [DecidableEq ι] in
/-- With `spsc_` the threads at home are one that pushes and one that
pops. -/
theorem Homed.sole (h : Homed w roles) : Sole w := by
  cases h with
  | crowd hspsc =>
    exact ⟨fun h => absurd (hspsc.symm.trans h) (by decide),
      fun h => absurd (hspsc.symm.trans h) (by decide)⟩
  | pair hspsc hsides =>
    exact ⟨fun _ t u ht hu => (hsides.push_eq t ht).trans (hsides.push_eq u hu).symm,
      fun _ t u ht hu => (hsides.pop_eq t ht).trans (hsides.pop_eq u hu).symm⟩

/-- The threads stay at home at a step -/
theorem Homed.change (h : Homed w roles) (hc : Change w a w') (hok : OneEach.Of roles a) :
    Homed w' roles := by
  cases h with
  | crowd hspsc => exact .crowd hspsc
  | pair hspsc hsides => exact .pair hspsc (hsides.change hc hok)

/-- and at a drift. -/
theorem Homed.drift (h : Homed w roles) (hd : Drift w t w') : Homed w' roles := by
  cases h with
  | crowd hspsc => exact .crowd hspsc
  | pair hspsc hsides => exact .pair hspsc (hsides.drift hd)

/-! ## What every run keeps -/

/-- **A step on values out of date keeps what every run keeps.** -/
theorem Sound.drift (hS : Sound w) (hsole : Sole w') (h : Drift w t w') : Sound w' where
  sole := hsole
  counted := hS.counted.drift h
  pushTickets := by rw [h.pushTickets]; exact hS.pushTickets
  admits u x hx := hS.admits u x (h.offers hx)
  slotted := hS.slotted.drift h
  popTickets := by rw [h.popTickets]; exact hS.popTickets
  chan := by rw [h.hist]; exact hS.chan
  returned := by
    refine ⟨fun r hr => ?_, fun r hr => ?_⟩ <;> rw [h.hist] at hr ⊢
    · exact hS.returned.stored r hr
    · exact hS.returned.received r hr

/-- **So does a step of the queue.** -/
theorem Sound.change (hS : Sound w) (hsole : Sole w') (h : Change w a w') : Sound w' where
  sole := hsole
  counted := hS.counted.step hS.sole h
  pushTickets := by
    rcases h.pushTickets with heq | ⟨b, hb, -⟩
    · rw [heq]
      exact hS.pushTickets
    · exact hS.pushTickets.step hb
  admits u x hx := by
    rcases h.offers hx with hold | ⟨op, pc, -, hentry, hpc⟩
    · exact hS.admits u x hold
    · exact (entry_offers hentry hpc).1
  slotted := hS.slotted_step h
  popTickets := by
    rcases hS.toKept.popTickets h with heq | ⟨b, hb, -⟩
    · rw [heq]
      exact hS.popTickets
    · exact hS.popTickets.step hb
  chan := by
    rcases hS.toKept.channels hS.popTickets h with heq | ⟨b, hb, -⟩
    · rw [heq]
      exact hS.chan
    · exact hS.chan.step hb
  returned := hS.returned.step hS.toKept h

end AtomicQueue
