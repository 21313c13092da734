import AtomicQueue.Concurrent.WeakStep
import AtomicQueue.Concurrent.Fifo
/-!
# What the memory orders are enough for

With the orders of the source no run has a data race, every element comes
out once, and whoever pops it has seen all that the thread that pushed it
had seen. Where nobody is overtaken on a slot, elements come out in order.
-/

namespace AtomicQueue

open Views

namespace Weak

variable {T ι : Type} [DecidableEq T] [DecidableEq ι] {D : Derived T}
variable {s s' : Weak D ι} {t : ι} {P C : ι} {totalOrder_ : Bool}
variable {last : Loc D.ring.slots → ℕ} {top : Tops D ι} {roles : Option (ι × ι)}
variable {ok : Weak D ι → Act ι T → Weak D ι → Prop}

/-- A call of thread `t`, with the places of the messages that it reads and
stores. -/
def Act.run (t : ι) (op : Op T) (places : List (ℕ × ℕ)) : List (Act ι T) :=
  .call t op :: places.map fun c => .step t ⟨c.1, c.2, false⟩

/-! ## No data race -/

/-- **A data race**: thread `t` is about to access an element, and has not
seen an earlier access to it, one of the two a write. -/
def Racing (totalOrder_ : Bool) (s : Weak D ι) (t : ι) : Prop :=
  ∃ i writes f k, D.code totalOrder_ (s.pc t) = some (.plain i writes f k) ∧
    s.mem.Races (s.view t) i writes

omit [DecidableEq ι] in
/-- Only the owner of a slot accesses its element. -/
theorem Good.owns_of_plain (h : Good roles s last top) {i : Fin D.ring.slots} {writes : Bool}
    {f : D.Plain i → D.Plain i} {k : D.Plain i → Pc D × Event T D.ring.slots}
    (hcode : D.code totalOrder_ (s.pc t) = some (.plain i writes f k)) :
    (s.pc t).owns = some i := by
  have hl := h.sound.counted.thread t
  change Local _ _ t (s.pc t) at hl
  cases hpc : s.pc t <;> rw [hpc] at hcode hl <;> simp only [Derived.code] at hcode
  case doPush x j p =>
    have hshape := D.shaped.push_shape (x := x) hl.2
    generalize D.accesses.push x p = I at hcode hshape
    cases hshape <;> cases hcode
    case hold hp _ => rw [Pc.owns_doPush, if_pos hp]
  case doPop j p =>
    have hshape := D.shaped.pop_shape hl.2
    generalize D.accesses.pop p = I at hcode hshape
    cases hshape <;> cases hcode
    case hold hp _ => rw [Pc.owns_doPop, if_pos hp]
  case tryPushClaim | tryPopClaim | pushClaim | popClaim => split at hcode <;> cases hcode
  case wasSizeLoad headFirst => cases headFirst <;> cases hcode
  all_goals cases hcode

/-- **No run has a data race.** -/
theorem not_racing_of_run (hok : Proper D ok) (hr : (weakMachine D totalOrder_ ι).Run ok s)
    (t : ι) : ¬ Racing totalOrder_ s t := by
  rintro ⟨i, writes, f, k, hcode, hrace⟩
  obtain ⟨roles, last, top, h⟩ := good_of_run hok hr
  exact ((h.guarded i).owned t (h.owns_of_plain hcode)).1.not_races hrace

/-- Thread `0` has pushed, and thread `1` has read the state of the slot as it
was before, and again. It is about to move the element out. -/
theorem not_racing_of_run_run :
    ∃ s : Weak (twoSlots true (.states ⟨0, id, fun _ _ => 0⟩)) (Fin 2),
      s.mem.log (0 : Fin 2) = [⟨0, 4, true⟩, ⟨0, 5, true⟩] ∧ (s.pc 1).owns = some (0 : Fin 2) ∧
        ∀ t, ¬ Racing false s t := by
  obtain ⟨s, hr, hs⟩ := (weakMachine (twoSlots true (.states ⟨0, id, fun _ _ => 0⟩)) false
      (Fin 2)).exists_run_of_execWhile (fun _ a _ => OneEach 0 1 a)
    (Act.run 0 (.push 5) [(0, 0), (0, 1), (0, 0), (0, 0), (0, 0), (0, 1)] ++
      Act.run 1 .pop [(0, 0), (0, 1), (0, 0), (1, 0)])
    (fun s => (s.mem.log (0 : Fin 2), (s.pc 1).owns))
    (b := ([⟨0, 4, true⟩, ⟨0, 5, true⟩], some (0 : Fin 2))) (by decide)
  rw [Prod.mk.injEq] at hs
  exact ⟨s, hs.1, hs.2, not_racing_of_run (fun _ => ⟨0, 1, fun _ _ _ h => h⟩) hr⟩

/-! ## What a pop has seen -/

/-- **Each element comes out once, with what its push had seen**: a pop that
returned took the element of a push that returned, of which no other pop
took it, and its thread has seen all that the thread of the push had. -/
theorem handed_over (hok : Proper D ok) (hr : (weakMachine D totalOrder_ ι).Run ok s) :
    ∀ r ∈ s.hist.received, ∃ p ∈ s.hist.stored, (r.no, p.no) ∈ s.hist.chan.takes ∧
      p.element = r.element ∧ s.sent p.no ≤ s.got r.no ∧
        ∀ r' ∈ s.hist.received, (r'.no, p.no) ∈ s.hist.chan.takes → r' = r := by
  intro r hmem
  obtain ⟨roles, last, top, h⟩ := good_of_run hok hr
  obtain ⟨p, hp, htook, hx⟩ := h.sound.source_of_received (w := s.world top) hmem
  exact ⟨p, hp, htook, hx, h.passed.got r hmem p.no htook,
    fun r' hmem' htook' => h.sound.received_unique hmem' hmem htook' htook⟩

/-- Thread `0` does something of its own and pushes `5`; thread `1` pops it and
has seen both steps of the push, and the one before. -/
theorem handed_over_run :
    ∃ s : Weak (twoSlots false (.atomic 0)) (Fin 2),
      s.hist.received.map Return.element = [5] ∧ (s.sent 0).2 0 = 3 ∧
        ∀ r ∈ s.hist.received, ∃ p ∈ s.hist.stored, (r.no, p.no) ∈ s.hist.chan.takes ∧
          p.element = r.element ∧ s.sent p.no ≤ s.got r.no ∧
            ∀ r' ∈ s.hist.received, (r'.no, p.no) ∈ s.hist.chan.takes → r' = r := by
  obtain ⟨s, hr, hs⟩ := (weakMachine (twoSlots false (.atomic 0)) true
      (Fin 2)).exists_run_of_execWhile (fun _ _ _ => True)
    ([.work 0] ++ Act.run 0 (.push 5) [(0, 0), (0, 0)] ++ Act.run 1 .pop [(0, 0), (1, 0)])
    (fun s => (s.hist.received.map Return.element, (s.sent 0).2 0))
    (b := ([5], 3)) (by decide)
  rw [Prod.mk.injEq] at hs
  exact ⟨s, hs.1, hs.2, handed_over (fun h => by cases h) hr⟩

/-! ## First in, first out -/

/-- The threads and what they have done, whatever the memory. -/
abbrev threads (s : Weak D ι) : World D ι := s.world fun ℓ => ⟨initial D ℓ, ⊥⟩

def Act.thread : Act ι T → ι
  | .call t _ | .work t | .step t _ => t

/-- **A step that overtakes nobody** on a slot. -/
def InTurn (s : Weak D ι) (a : Act ι T) (s' : Weak D ι) : Prop :=
  AtomicQueue.InTurn s.threads (.step a.thread false) s'.threads

variable {w w' : World D ι} {a : Act ι T}

instance [Fintype ι] : Decidable (InTurn s a s') :=
  inferInstanceAs (Decidable (AtomicQueue.InTurn s.threads (.step a.thread false) s'.threads))

/-- **The channels step as on one memory**, or not at all. -/
theorem Moved.channels (hS : Sound w) (h : Moved w w' a) :
    ChannelStep w (.step a.thread false) w' := by
  cases h with
  | @call t op hc =>
    refine Or.inl ?_
    cases hc
    rfl
  | work h => exact Or.inl (by rw [h])
  | step h =>
    cases h with
    | @change weak h =>
      have hstep : ChannelStep w (.step _ weak) w' := hS.toKept.channels hS.popTickets h
      exact hstep
    | drift h => exact Or.inl (by rw [h.hist])

/-- **Every run is one of the row of channels**, without overtaking if it
overtakes nobody. -/
theorem ordered_of_run (hok : Proper D ok)
    (hturn : ∀ s a s', (weakMachine D totalOrder_ ι).Run ok s → ok s a s' → InTurn s a s')
    (hr : (weakMachine D totalOrder_ ι).Run ok s) :
    Channels.Ordered D.ring.slotOf s.hist.chan := by
  refine Channels.ordered_of_run
    (hr.map (Channels.machine _ _ D.ring.slotOf) (fun s => s.hist.chan) rfl ?_)
  intro s a s' hr hs hstep
  obtain ⟨top, top', hS, hmoved⟩ := moved_of_run hok hr hs hstep
  rcases hmoved.channels hS with heq | ⟨b, hb, hcond⟩
  · exact Or.inl heq
  · exact Or.inr ⟨b, hb, hcond (hturn s a s' hr hstep)⟩

/-- **Where no operation is overtaken on its slot**, a pop returns the
element of the push with its number. -/
theorem element_of_inTurn (hok : Proper D ok) (hturn : ∀ s a s', ok s a s' → InTurn s a s')
    (hr : (weakMachine D totalOrder_ ι).Run ok s) :
    ∀ r ∈ s.hist.received, s.hist.element r.no = some r.element := by
  obtain ⟨roles, last, top, h⟩ := good_of_run hok hr
  exact received_of_ordered h.sound (ordered_of_run hok (fun s a s' _ => hturn s a s') hr)

/-- Two threads push and two pop, by a `head_` and by a `tail_` out of date. -/
theorem element_of_inTurn_run :
    ∃ s : Weak (twoSlots false (.atomic 0)) (Fin 3),
      s.hist.received.map Return.element = [5, 6] ∧
        ∀ r ∈ s.hist.received, s.hist.element r.no = some r.element := by
  obtain ⟨s, hr, hs⟩ := (weakMachine (twoSlots false (.atomic 0)) false
      (Fin 3)).exists_run_of_execWhile InTurn
    (Act.run 0 (.push 5) [(0, 0), (0, 0)] ++ Act.run 1 (.push 6) [(1, 0), (0, 0)] ++
      Act.run 2 .tryPop [(0, 0), (1, 0), (0, 0), (1, 0)] ++
      Act.run 0 .tryPop [(0, 0), (2, 0), (1, 0), (2, 0), (1, 0), (1, 0)])
    (fun s => s.hist.received.map Return.element) (b := [5, 6]) (by decide)
  exact ⟨s, hs, element_of_inTurn (fun h => by cases h) (fun _ _ _ h => h) hr⟩

/-! ## One producer and one consumer -/

theorem Moved.sides (h : Moved w w' a) (hsides : Sides P C w) (hok : OneEach P C a) :
    Sides P C w' := by
  cases h with
  | call h => exact hsides.change h hok
  | work h => exact h ▸ hsides
  | step h =>
    cases h with
    | change h => exact hsides.change h trivial
    | drift h => exact hsides.drift h

/-- Each side keeps to its thread in every state reached. -/
theorem sides_of_run (hone : ∀ s a s', ok s a s' → OneEach P C a)
    (hr : (weakMachine D totalOrder_ ι).Run ok s) : Sides P C s.threads := by
  refine hr.invariant (I := fun s => Sides P C s.threads) (.of_idle fun _ => rfl) ?_
  intro s a s' hr hsides hs hstep
  obtain ⟨top, top', -, hmoved⟩ := moved_of_run (fun _ => ⟨P, C, hone⟩) hr hs hstep
  have hsides' := hmoved.sides ⟨hsides.push_eq, hsides.pop_eq⟩ (hone _ _ _ hstep)
  exact ⟨hsides'.push_eq, hsides'.pop_eq⟩

/-- The tickets of the pushes step for the one producer alone, -/
theorem Moved.pushTickets (h : Moved w w' a) : w'.pushTickets = w.pushTickets ∨
    ∃ b, Tickets.step w.pushTickets b = some w'.pushTickets ∧ (w.pc b.thread).offers ≠ none := by
  cases h with
  | call h => exact h.pushTickets
  | work h => exact Or.inl (by rw [h])
  | step h =>
    cases h with
    | change h => exact h.pushTickets
    | drift h => exact Or.inl h.pushTickets

/-- and those of the pops for the one consumer. -/
theorem Moved.popTickets (hS : Sound w) (h : Moved w w' a) : w'.popTickets = w.popTickets ∨
    ∃ b, Tickets.step w.popTickets b = some w'.popTickets ∧ (w.pc b.thread).popping = true := by
  cases h with
  | call h => exact hS.toKept.popTickets h
  | work h => exact Or.inl (by rw [h])
  | step h =>
    cases h with
    | change h => exact hS.toKept.popTickets h
    | drift h => exact Or.inl h.popTickets

theorem stored_of_lone (hone : ∀ s a s', ok s a s' → OneEach P C a)
    (hr : (weakMachine D totalOrder_ ι).Run ok s) : Tickets.Lone P s.threads.pushTickets := by
  refine Tickets.lone_of_run
    (hr.map (Tickets.machine ι T) (fun s => s.threads.pushTickets) rfl ?_)
  intro s a s' hr hs hstep
  obtain ⟨top, top', -, hmoved⟩ := moved_of_run (fun _ => ⟨P, C, hone⟩) hr hs hstep
  rcases hmoved.pushTickets with heq | ⟨b, hb, hoff⟩
  · exact Or.inl heq
  · exact Or.inr ⟨b, hb, (sides_of_run hone hr).push_eq _ hoff⟩

theorem received_of_lone (hone : ∀ s a s', ok s a s' → OneEach P C a)
    (hr : (weakMachine D totalOrder_ ι).Run ok s) : Tickets.Lone C s.threads.popTickets := by
  refine Tickets.lone_of_run
    (hr.map (Tickets.machine ι Unit) (fun s => s.threads.popTickets) rfl ?_)
  intro s a s' hr hs hstep
  obtain ⟨top, top', hS, hmoved⟩ := moved_of_run (fun _ => ⟨P, C, hone⟩) hr hs hstep
  rcases hmoved.popTickets hS with heq | ⟨b, hb, hpop⟩
  · exact Or.inl heq
  · exact Or.inr ⟨b, hb, (sides_of_run hone hr).pop_eq _ hpop⟩

/-- **With one thread on each side nobody is overtaken**, -/
theorem ordered_of_oneEach (hone : ∀ s a s', ok s a s' → OneEach P C a)
    (hr : (weakMachine D totalOrder_ ι).Run ok s) :
    Channels.Ordered D.ring.slotOf s.hist.chan := by
  refine ordered_of_run (fun _ => ⟨P, C, hone⟩) (fun s a s' hr _ => ?_) hr
  have hsides := sides_of_run hone hr
  exact (Uncrowded.of_one hsides.push_eq hsides.pop_eq).inTurn _ _

/-- and every pop is paired with the push of its number. -/
theorem paired_of_run (hone : ∀ s a s', ok s a s' → OneEach P C a)
    (hr : (weakMachine D totalOrder_ ι).Run ok s) : Paired s.threads := by
  obtain ⟨roles, last, top, h⟩ := good_of_run (fun _ => ⟨P, C, hone⟩) hr
  have hpaired : Paired (s.world top) := h.sound.paired (ordered_of_oneEach hone hr)
    (stored_of_lone hone hr) (received_of_lone hone hr)
  exact ⟨hpaired.stored_no, hpaired.received_no, hpaired.length_le, hpaired.element_eq⟩

/-- **One producer and one consumer: first in, first out**, with and without
`spsc_`, however out of date the counters and slots that they read. The
elements received are a prefix of those pushed, and with each the consumer
has seen what the producer had. -/
theorem prefix_of_oneEach
    (hr : (weakMachine D totalOrder_ ι).Run (fun _ a _ => OneEach P C a) s) :
    s.hist.received.map Return.element <+: s.hist.stored.map Return.element ∧
      ∀ k < s.hist.received.length, s.sent k ≤ s.got k := by
  have hpaired := paired_of_run (fun _ _ _ h => h) hr
  obtain ⟨roles, last, top, h⟩ := good_of_run (fun _ => ⟨P, C, fun _ _ _ h => h⟩) hr
  refine ⟨hpaired.isPrefix, fun k hk => ?_⟩
  -- the pop with number `k` took the element of the push with number `k`
  have hno : (s.hist.received[k]).no = k := no_of_range hpaired.received_no hk
  obtain ⟨j, htook, -⟩ := h.sound.returned.received _ (List.getElem_mem hk)
  have hgot := h.passed.got _ (List.getElem_mem hk) j htook
  rwa [(ordered_of_oneEach (fun _ _ _ h => h) hr).source_eq _ _ htook, hno] at hgot

/-- The consumer finds the queue empty by a `head_` out of date, and then
pops. -/
theorem prefix_of_oneEach_run :
    ∃ s : Weak (twoSlots true (.atomic 0)) (Fin 2),
      s.hist.received.map Return.element = [5] ∧ s.hist.stored.map Return.element = [5, 6] ∧
        s.hist.received.map Return.element <+: s.hist.stored.map Return.element ∧
          ∀ k < s.hist.received.length, s.sent k ≤ s.got k := by
  obtain ⟨s, hr, hs⟩ := (weakMachine (twoSlots true (.atomic 0)) false
      (Fin 2)).exists_run_of_execWhile (fun _ a _ => OneEach 0 1 a)
    (Act.run 0 (.push 5) [(0, 0), (0, 3), (0, 0), (0, 1)] ++
      Act.run 1 .tryPop [(0, 0), (0, 0)] ++ Act.run 0 (.push 6) [(3, 0), (0, 4), (0, 0), (0, 2)] ++
      Act.run 1 .tryPop [(0, 0), (4, 0), (0, 1), (1, 0), (0, 2)])
    (fun s => (s.hist.received.map Return.element, s.hist.stored.map Return.element))
    (b := ([5], [5, 6])) (by decide)
  rw [Prod.mk.injEq] at hs
  exact ⟨s, hs.1, hs.2, prefix_of_oneEach hr⟩

/-! ## The queue on one memory that all threads see -/

variable {st : Store D.Value D.Plain} {weak : Bool}

/-- The memory of the queue with these values. -/
def memOf (st : Store D.Value D.Plain) : Mem D where
  head_ := st.value .head
  tail_ := st.value .tail
  cell i := D.accesses.cell (st.value (.slot i)) (st.plain i)

omit [DecidableEq ι] in
/-- A slot accessed is one cell of the memory changed. -/
theorem memOf_slot {i : Fin D.ring.slots} {x : D.accesses.Atom} {y : D.accesses.Plain} :
    memOf ((st.set (.slot i) x).setPlain i y) = (memOf st).set i (D.accesses.cell x y) := by
  have hvalue : ∀ ℓ, ℓ ≠ .slot i → (st.set (.slot i) x).value ℓ = st.value ℓ := fun ℓ hne =>
    Function.update_of_ne hne ..
  rw [memOf, Mem.set, Mem.mk.injEq]
  refine ⟨hvalue .head (by simp), hvalue .tail (by simp), funext fun j => ?_⟩
  rcases eq_or_ne j i with rfl | hne
  · simp [Store.set, Store.setPlain]
  · have hplain : ((st.set (.slot i) x).setPlain i y).plain j = st.plain j :=
      Function.update_of_ne hne ..
    rw [Function.update_of_ne hne, hplain]
    exact congrArg (D.accesses.cell · _) (hvalue (.slot j) (by simpa using hne))

/-- **The accesses of the code are its steps**, on one memory that all
threads see. -/
theorem advance_memOf (totalOrder_ : Bool) (pc : Pc D) : D.advance weak (memOf st) pc =
    (D.code totalOrder_ pc).map fun I => (memOf (I.run weak st).1, (I.run weak st).2) := by
  cases pc with
  | tryPushCheck | tryPopCheck =>
    exact (apply_ite (fun r => some (memOf st, r)) _ _ _).symm
  | tryPushClaim | tryPopClaim =>
    simp only [Derived.advance, Derived.code]
    split
    · rfl
    · simp only [memOf, Option.map_some, Instr.run]
      split
      · exact if_pos ‹_›
      · exact if_neg ‹_›
  | pushClaim | popClaim =>
    simp only [Derived.advance, Derived.code]
    split <;> rfl
  | wasSizeLoad headFirst => cases headFirst <;> rfl
  | doPush x i p =>
    have hrun : D.layout.pushStep weak x ((memOf st).cell i) p = _ :=
      D.shaped.push_run weak x (st.value (.slot i)) (st.plain i) p
    simp only [Derived.advance, Derived.code, Option.map_some, Instr.embed_run, memOf_slot,
      Derived.stepPush, hrun]
    generalize (D.accesses.push x p).run weak _ = q
    obtain ⟨store, out⟩ := q
    cases out <;> rfl
  | doPop i p =>
    have hrun : D.layout.popStep weak ((memOf st).cell i) p = _ :=
      D.shaped.pop_run weak (st.value (.slot i)) (st.plain i) p
    simp only [Derived.advance, Derived.code, Option.map_some, Instr.embed_run, memOf_slot,
      Derived.stepPop, hrun]
    generalize (D.accesses.pop p).run weak _ = q
    obtain ⟨store, out⟩ := q
    cases out <;> rfl
  | _ => rfl

/-- A state of the queue on one memory, reached by accesses to the latest
messages. -/
def Reaches (totalOrder_ : Bool) (w : World D ι) (s : Weak D ι)
    (last : Loc D.ring.slots → ℕ) (top : Tops D ι) : Prop :=
  (weakMachine D totalOrder_ ι).Reachable s ∧ Latest s.mem last top ∧ s.world top = w ∧
    ∀ t, (s.view t).1 ≤ last

/-- **Every step on one memory is one on the memory with orders**, of the
latest messages. -/
theorem Reaches.step (h : Reaches totalOrder_ w s last top) {a : AtomicQueue.Act ι T}
    (hstep : (machine D ι).step w a = some w') :
    ∃ s' last' top', Reaches totalOrder_ w' s' last' top' := by
  obtain ⟨hs, hL, rfl, hfront⟩ := h
  obtain ⟨⟨st, e⟩, hst, rfl⟩ := Option.map_eq_some_iff.mp hstep
  have hview : ∀ {v' last'}, v'.1 ≤ last' → last ≤ last' →
      ∀ u, (Function.update s.view a.thread v' u).1 ≤ last' := by
    intro v' last' hv' hle u
    rcases eq_or_ne u a.thread with rfl | hne
    · rwa [Function.update_self]
    · rw [Function.update_of_ne hne]
      exact (hfront u).trans hle
  cases a with
  | call t op =>
    cases hpc : (s.world top).pc t <;> simp only [State.step, hpc] at hst <;> try cases hst
    obtain ⟨pc, hentry, heq⟩ := Option.map_eq_some_iff.mp hst
    cases heq
    refine ⟨s.next t s.mem (s.view t) pc (.call op), last, top,
      .step (a := .call t op) hs ?_ trivial, hL, rfl, hview (hfront t) le_rfl⟩
    change Weak.step totalOrder_ s (.call t op) = _
    rw [Weak.step, show s.pc t = .idle from hpc, hentry]
    rfl
  | step t weak =>
    obtain ⟨q, hadv, heq⟩ := Option.map_eq_some_iff.mp hst
    cases heq
    change D.advance weak (memOf (s.mem.latest top)) (s.pc t) = _ at hadv
    rw [advance_memOf totalOrder_] at hadv
    obtain ⟨I, hcode, rfl⟩ := Option.map_eq_some_iff.mp hadv
    obtain ⟨c, m', v', last', top', hexec, hL', hmem', hv', hle⟩ :=
      hL.follows_run (hfront t) t weak I
    refine ⟨s.next t m' v' (I.run weak (s.mem.latest top)).2.1 (I.run weak (s.mem.latest top)).2.2,
      last', top', .step (a := .step t c) hs ?_ trivial, hL', ?_, hview hv' hle⟩
    · change Weak.step totalOrder_ s (.step t c) = _
      rw [Weak.step, hcode, Option.bind_some, hexec]
      rfl
    · rw [world_next, ← hmem']
      rfl

/-- **Whatever the queue does on one memory that all threads see, it does on
a memory with orders.** -/
theorem exists_weak_of_reachable (totalOrder_ : Bool) (hr : (machine D ι).Reachable w) :
    ∃ s last top, (weakMachine D totalOrder_ ι).Reachable s ∧ Latest s.mem last top ∧
      s.world top = w := by
  have h : ∃ s last top, Reaches totalOrder_ w s last top := by
    refine hr.invariant (I := fun w => ∃ s last top, Reaches totalOrder_ w s last top) ?_ ?_
    · exact ⟨_, _, _, .init, latest_init, world_init, fun _ => bot_le⟩
    · rintro w a w' - ⟨s, last, top, h⟩ hstep -
      exact h.step hstep
  obtain ⟨s, last, top, hs, hL, hw, -⟩ := h
  exact ⟨s, last, top, hs, hL, hw⟩

/-- A push and half a pop. -/
theorem exists_weak_of_reachable_run :
    ∃ w : World (twoSlots true (.states ⟨0, id, fun _ _ => 0⟩)) (Fin 2),
      w.hist.stored.map Return.element = [5] ∧ (w.pc 1).owns = some (0 : Fin 2) ∧
        ∃ s last top, (weakMachine _ false (Fin 2)).Reachable s ∧ Latest s.mem last top ∧
          s.world top = w := by
  obtain ⟨w, hr, hw⟩ := (machine (twoSlots true (.states ⟨0, id, fun _ _ => 0⟩))
      (Fin 2)).exists_run_of_execWhile (fun _ _ _ => True)
    (AtomicQueue.Act.run 0 (.push 5) 6 ++ AtomicQueue.Act.run 1 .pop 3)
    (fun w => (w.hist.stored.map Return.element, (w.pc 1).owns))
    (b := ([5], some (0 : Fin 2))) (by decide)
  rw [Prod.mk.injEq] at hw
  exact ⟨w, hw.1, hw.2, exists_weak_of_reachable false hr⟩

end Weak

end AtomicQueue
