import AtomicQueue.Concurrent.RealTime
/-!
# First in, first out

Where no operation is overtaken on its slot, the pop with number `k`
returns the element of the push with number `k`, so elements come out in
the order of the claims. Nobody can be overtaken where a slot never has
two pushes or two pops in flight, and nobody is where one thread pushes
and one pops.
-/

namespace AtomicQueue

variable {T ι : Type} [DecidableEq T] [DecidableEq ι] {D : Derived T}
variable {w : World D ι}
variable {ok : World D ι → Act ι T → World D ι → Prop}

omit [DecidableEq ι] in
/-- **Without overtaking a pop returns the element pushed at its own
position.** -/
theorem received_of_ordered (hs : Sound w) (ho : Channels.Ordered D.ring.slotOf w.hist.chan) :
    ∀ r ∈ w.hist.received, w.hist.element r.no = some r.element := by
  intro r hr
  obtain ⟨k, hk, hx⟩ := hs.returned.received r hr
  rwa [ho.source_eq r.no k hk] at hx

/-! ## One push and one pop on a slot -/

/-- No slot has two pushes, or two pops, in flight. -/
def Uncrowded (w : World D ι) : Prop :=
  (∀ i t t', (w.pc t).pushSlot = some i → (w.pc t').pushSlot = some i → t = t') ∧
    ∀ i t t', (w.pc t).popSlot = some i → (w.pc t').popSlot = some i → t = t'

instance [Fintype ι] : Decidable (Uncrowded w) := inferInstanceAs (Decidable (_ ∧ _))

/-- What waits for a slot is in flight on it. -/
theorem Pc.pushSlot_of_waits {pc : Pc D} {i : Fin D.ring.slots} (h : pc.pushWaits = some i) :
    pc.pushSlot = some i := by
  cases pc <;> simp_all [Pc.pushWaits, Pc.pushSlot]

theorem Pc.popSlot_of_waits {pc : Pc D} {i : Fin D.ring.slots} (h : pc.popWaits = some i) :
    pc.popSlot = some i := by
  cases pc <;> simp_all [Pc.popWaits, Pc.popSlot]

omit [DecidableEq ι] in
theorem Uncrowded.inTurn (h : Uncrowded w) (a : Act ι T) (w' : World D ι) : InTurn w a w' := by
  refine ⟨fun _ i hi t' ht' => ?_, fun _ i hi t' ht' => ?_⟩
  · rw [h.1 i a.thread t' hi (Pc.pushSlot_of_waits ht')]
  · rw [h.2 i a.thread t' hi (Pc.popSlot_of_waits ht')]

/-- **A queue with uncrowded slots is first in, first out**: the pop that
made the `k`-th claim on `tail_` returns the element of the push that made
the `k`-th claim on `head_`, whatever the size and however often the
counters have wrapped. -/
theorem fifo_of_uncrowded (hspsc : D.spsc_ = false)
    (hr : (machine D ι).Run (fun w _ _ => Uncrowded w) w) :
    ∀ r ∈ w.hist.received, w.hist.element r.no = some r.element := by
  have hok : Proper D fun (w : World D ι) _ _ => Uncrowded w := proper_of_not_spsc hspsc
  refine received_of_ordered (sound_of_run hok hr) (Channels.ordered_of_run ?_)
  exact inTurn_of_run hok (fun w a w' _ h => h.inTurn a w') hr

/-- Two pushes and two pops, on both slots at once. -/
theorem fifo_of_uncrowded_run :
    ∃ w : World (twoSlots false (.states ⟨0, id, fun _ _ => 0⟩)) (Fin 2),
      w.hist.received.map Return.no = [0, 1] ∧ w.hist.received.map Return.element = [5, 6] ∧
        ∀ r ∈ w.hist.received, w.hist.element r.no = some r.element := by
  obtain ⟨w, hr, hw⟩ :=
    (machine (twoSlots false (.states ⟨0, id, fun _ _ => 0⟩)) (Fin 2)).exists_run_of_execWhile
      (fun w _ _ => Uncrowded w)
      (Act.run 0 (.push 5) 5 ++ Act.run 0 (.push 6) 4 ++ Act.run 1 .pop 5 ++ [.step 0 false] ++
        Act.run 1 .tryPop 7)
      (fun w => (w.hist.received.map Return.no, w.hist.received.map Return.element))
      (b := ([0, 1], [5, 6])) (by decide)
  rw [Prod.mk.injEq] at hw
  exact ⟨w, hw.1, hw.2, fifo_of_uncrowded rfl hr⟩

/-! ## One producer and one consumer -/

section

variable {P C : ι}

omit [DecidableEq ι] in
/-- One thread that pushes and one that pops do not crowd a slot. -/
theorem Uncrowded.of_one (hoff : ∀ t, (w.pc t).offers ≠ none → t = P)
    (hpop : ∀ t, (w.pc t).popping = true → t = C) : Uncrowded w := by
  refine ⟨fun i t t' ht ht' => ?_, fun i t t' ht ht' => ?_⟩
  · have hP : ∀ u, (w.pc u).pushSlot = some i → u = P := by
      intro u hu
      obtain ⟨x, p, hpc⟩ := Pc.pushSlot_eq.mp hu
      exact hoff u (by rw [hpc]; simp [Pc.offers])
    rw [hP t ht, hP t' ht']
  · have hC : ∀ u, (w.pc u).popSlot = some i → u = C := by
      intro u hu
      obtain ⟨p, hpc⟩ := Pc.popSlot_eq.mp hu
      exact hpop u (by rw [hpc]; rfl)
    rw [hC t ht, hC t' ht']

/-- With one producer and one consumer nobody is overtaken. -/
theorem inTurn_of_oneEach (hok : ∀ w a w', ok w a w' → OneEach P C a)
    (hr : (machine D ι).Run ok w) (a : Act ι T) (w' : World D ι) : InTurn w a w' :=
  (Uncrowded.of_one (offers_of_run hok hr) (popping_of_run hok hr)).inTurn a w'

omit [DecidableEq T] [DecidableEq ι] in
/-- A list of returns numbered in order has number `k` at place `k`. -/
theorem no_of_range {l : List (Return ι T)} (h : l.map Return.no = List.range l.length) {k : ℕ}
    (hk : k < l.length) : (l[k]).no = k := by
  have := List.getElem_of_eq h (by simpa using hk)
  simpa using this

/-- **What one producer and one consumer keep**: pushes and pops return in
the order of their numbers, no more pops than pushes, and each pop with
the element of its number. -/
structure Paired (w : World D ι) : Prop where
  stored_no : w.hist.stored.map Return.no = List.range w.hist.stored.length
  received_no : w.hist.received.map Return.no = List.range w.hist.received.length
  length_le : w.hist.received.length ≤ w.hist.stored.length
  element_eq : ∀ k (hk : k < w.hist.received.length) (hk' : k < w.hist.stored.length),
    (w.hist.received[k]).element = (w.hist.stored[k]).element

omit [DecidableEq ι] in
theorem Paired.isPrefix (h : Paired w) :
    w.hist.received.map Return.element <+: w.hist.stored.map Return.element := by
  refine List.prefix_iff_getElem.mpr ⟨by simpa using h.length_le, fun k hk => ?_⟩
  rw [List.length_map] at hk
  rw [List.getElem_map, List.getElem_map]
  exact h.element_eq k hk (hk.trans_le h.length_le)

omit [DecidableEq ι] in
theorem Sound.paired (hs : Sound w) (ho : Channels.Ordered D.ring.slotOf w.hist.chan)
    (hpush : Tickets.Lone P w.pushTickets) (hpop : Tickets.Lone C w.popTickets) : Paired w := by
  have hstored : w.hist.stored.map Return.no = List.range w.hist.stored.length := by
    simpa [World.pushTickets] using hpush.done_eq
  have hreceived : w.hist.received.map Return.no = List.range w.hist.received.length := by
    simpa [World.popTickets] using hpop.done_eq
  have hlt : ∀ k < w.hist.received.length, k < w.hist.stored.length := by
    intro k hk
    -- the pop with number `k` took the push with number `k`, which had returned
    obtain ⟨j, hj, -⟩ := hs.returned.received _ (List.getElem_mem hk)
    have hmem := hs.stored_of_taken hs.chan hj
    rw [ho.source_eq _ _ hj, no_of_range hreceived hk, hstored, List.mem_range] at hmem
    exact hmem
  refine ⟨hstored, hreceived, ?_, fun k hk hk' => ?_⟩
  · by_contra hgt
    exact Nat.lt_irrefl _ (hlt w.hist.stored.length (by omega))
  · have hpop := received_of_ordered hs ho _ (List.getElem_mem hk)
    have hpush := hs.returned.stored _ (List.getElem_mem hk')
    rw [no_of_range hreceived hk] at hpop
    rw [no_of_range hstored hk'] at hpush
    rw [History.element, hpush, Option.map_some, Option.some.injEq] at hpop
    exact hpop.symm

theorem paired_of_run (hone : ∀ w a w', ok w a w' → OneEach P C a)
    (hr : (machine D ι).Run ok w) : Paired w := by
  have hok : Proper D ok := fun _ => ⟨P, C, hone⟩
  exact (sound_of_run hok hr).paired
    (Channels.ordered_of_run
      (inTurn_of_run hok (fun w a w' hr _ => inTurn_of_oneEach hone hr a w') hr))
    (stored_of_lone hone hr) (received_of_lone hone hr)

/-- **Nothing is lost or overwritten**: an element pushed and not received
is in its slot, or in the hands of the consumer that is taking it. -/
theorem kept_of_stored (hone : ∀ w a w', ok w a w' → OneEach P C a)
    (hr : (machine D ι).Run ok w) {k : ℕ} (hk : k < w.hist.stored.length)
    (hnot : w.hist.received.length ≤ k) :
    D.spec.Holds (w.mem.cell (D.ring.slotOf k)) (.free (some (w.hist.stored[k]).element)) ∨
      ∃ p, w.pc C = .doPop (D.ring.slotOf k) p ∧
        D.spec.Holds (w.mem.cell (D.ring.slotOf k)) (.pop p (w.hist.stored[k]).element) := by
  have hok : Proper D ok := fun _ => ⟨P, C, hone⟩
  have hs := sound_of_run hok hr
  have ho := Channels.ordered_of_run
    (inTurn_of_run hok (fun w a w' hr _ => inTurn_of_oneEach hone hr a w') hr)
  have hpair := paired_of_run hone hr
  have hdone : k ∈ w.hist.stored.map Return.no := by
    rw [hpair.stored_no, List.mem_range]
    exact hk
  have hx : w.hist.element k = some (w.hist.stored[k]).element := by
    have hpush := hs.returned.stored _ (List.getElem_mem hk)
    rw [no_of_range hpair.stored_no hk] at hpush
    rw [History.element, hpush, Option.map_some]
  obtain ⟨φ, hφ, hl⟩ := hs.slotted (D.ring.slotOf k)
  by_cases htaken : k ∈ w.hist.chan.takes.map Prod.snd
  · obtain ⟨⟨m, k'⟩, hm, rfl⟩ := List.mem_map.mp htaken
    obtain rfl := ho.source_eq m k' hm
    -- its pop has not returned, so the consumer is in the slot
    obtain ⟨t, i, p, hpc, hno⟩ := pop_pending hs.popTickets (hs.chan.takes_lt _ _ hm)
      (by rw [hpair.received_no, List.mem_range]; omega)
    obtain rfl : t = C := popping_of_run hone hr t (by rw [hpc]; rfl)
    have hslot := hs.slotOf_popNo hpc
    rw [hno] at hslot
    subst hslot
    have hp := (pop_claim hs.popTickets hpc).2.1.mp (by rw [hno]; exact List.mem_map_of_mem hm)
    obtain ⟨x, k, rfl, -, -, htook, hx'⟩ := hl.of_pop_owner hpc hp
    rw [hno] at htook
    rw [ho.source_eq _ _ htook, hx, Option.some.injEq] at hx'
    exact Or.inr ⟨p, hpc, by rwa [hx']⟩
  · have hcell := (hs.chan.cell_iff _ k).mpr ⟨hs.pushTickets.done_served k hdone, rfl, htaken⟩
    cases hl with
    | empty hfree hcell' => rw [hcell] at hcell'; cases hcell'
    | full hfree hcell' hx' =>
      rw [hcell, Option.some.injEq] at hcell'
      rw [← hcell', hx, Option.some.injEq] at hx'
      exact Or.inl (by rwa [hx'])
    | push hpc hp hsole hcell' =>
      -- a push that has returned has left the slot
      rw [hcell, Option.some.injEq] at hcell'
      exact absurd (hcell' ▸ hdone) (push_claim hs.pushTickets hpc).2.2
    | pop hpc hp hsole hcell' htook hx' => rw [hcell] at hcell'; cases hcell'

/-- **One producer and one consumer: first in, first out on every path**,
for every size, either kind of slot, with and without `spsc_`. The values
received are a prefix of the values pushed, and those that follow are
still in the queue. -/
theorem oneProducerOneConsumer_fifo
    (hr : (machine D ι).Run (fun _ a _ => OneEach P C a) w) :
    w.hist.received.map Return.element <+: w.hist.stored.map Return.element ∧
      ∀ k (hk : k < w.hist.stored.length), w.hist.received.length ≤ k →
        D.spec.Holds (w.mem.cell (D.ring.slotOf k)) (.free (some (w.hist.stored[k]).element)) ∨
          ∃ p, w.pc C = .doPop (D.ring.slotOf k) p ∧
            D.spec.Holds (w.mem.cell (D.ring.slotOf k)) (.pop p (w.hist.stored[k]).element) := by
  have hpair := paired_of_run (fun _ _ _ h => h) hr
  refine ⟨?_, fun k hk hnot => kept_of_stored (fun _ _ _ h => h) hr hk hnot⟩
  refine List.prefix_iff_getElem.mpr ⟨by simpa using hpair.length_le, fun k hk => ?_⟩
  rw [List.length_map] at hk
  rw [List.getElem_map, List.getElem_map]
  exact hpair.element_eq k hk (hk.trans_le hpair.length_le)

/-- Two pushes and a pop, with plain loads and stores. -/
theorem oneProducerOneConsumer_fifo_run :
    ∃ w : World (twoSlots true (.atomic 0)) (Fin 2),
      w.hist.received.map Return.element = [5] ∧ w.hist.stored.map Return.element = [5, 6] ∧
        w.hist.received.map Return.element <+: w.hist.stored.map Return.element := by
  obtain ⟨w, hr, hw⟩ := (machine (twoSlots true (.atomic 0)) (Fin 2)).exists_run_of_execWhile
    (fun _ a _ => OneEach 0 1 a)
    (Act.run 0 (.push 5) 4 ++ Act.run 1 .tryPop 5 ++ Act.run 0 (.tryPush 6) 5)
    (fun w => (w.hist.received.map Return.element, w.hist.stored.map Return.element))
    (b := ([5], [5, 6])) (by decide)
  rw [Prod.mk.injEq] at hw
  exact ⟨w, hw.1, hw.2, (oneProducerOneConsumer_fifo hr).1⟩

end

/-! ## Any number of producers and consumers -/

/-- The operations of the totally ordered mode. -/
def Blocking : Act ι T → Prop
  | .call _ (.push _) | .call _ .pop => True
  | .call _ _ => False
  | .step _ _ => True

instance (a : Act ι T) : Decidable (Blocking a) :=
  match a with
  | .call _ (.push _) | .call _ .pop | .step _ _ => inferInstanceAs (Decidable True)
  | .call _ (.tryPush _) | .call _ .tryPop | .call _ (.wasSize _) =>
    inferInstanceAs (Decidable False)

/-- **No consumer sees two elements of one producer reversed**: where a
thread pushed with `a` and, once `a` had returned, with `b`, no thread
popped the element of `b` and, in a later call, that of `a`. -/
def ProducerOrder (w : World D ι) : Prop :=
  ∀ a ∈ w.hist.stored, ∀ b ∈ w.hist.stored, a.thread = b.thread → a.time < b.call.time →
    ∀ c ∈ w.hist.received, ∀ d ∈ w.hist.received, c.thread = d.thread → c.time < d.call.time →
      ¬ ((c.no, b.no) ∈ w.hist.chan.takes ∧ (d.no, a.no) ∈ w.hist.chan.takes)

/-- **Without overtaking, producers' orders are kept**, by pushes and pops
of any kind. -/
theorem producerOrder_of_inTurn (hspsc : D.spsc_ = false)
    (hturn : ∀ w a w', ok w a w' → InTurn w a w') (hr : (machine D ι).Run ok w) :
    ProducerOrder w := by
  have hok : Proper D ok := proper_of_not_spsc hspsc
  have ho := Channels.ordered_of_run (inTurn_of_run hok (fun w a w' _ => hturn w a w') hr)
  rintro a ha b hb - hab c hc d hd - hcd ⟨hcb, hda⟩
  -- the pops have the numbers of the pushes, which are in the order of time
  have hpush := (pushTime_of_run hr).before a ha b hb hab
  have hpop := (popTime_of_run hok hr).before c hc d hd hcd
  rw [ho.source_eq _ _ hcb, ho.source_eq _ _ hda] at hpush
  omega

/-- **In the totally ordered mode, without overtaking, producers' orders
are kept.** -/
theorem push_pop_producerOrder (hspsc : D.spsc_ = false)
    (hr : (machine D ι).Run (fun w a w' => Blocking a ∧ InTurn w a w') w) : ProducerOrder w :=
  producerOrder_of_inTurn hspsc (fun _ _ _ h => h.2) hr

/-- A run in turn in which one thread pushes twice and another pops twice. -/
theorem push_pop_producerOrder_run :
    ∃ w : World (twoSlots false (.atomic 0)) (Fin 2),
      w.hist.stored.map Return.element = [1, 2] ∧ w.hist.received.map Return.element = [1, 2] ∧
        ProducerOrder w := by
  obtain ⟨w, hr, hw⟩ := (machine (twoSlots false (.atomic 0)) (Fin 2)).exists_run_of_execWhile
    (fun w a w' => Blocking a ∧ InTurn w a w')
    (Act.run 1 .pop 2 ++ Act.run 0 (.push 1) 2 ++ Act.run 0 (.push 2) 2 ++
      List.replicate 2 (.step 1 false) ++ Act.run 1 .pop 2)
    (fun w => (w.hist.stored.map Return.element, w.hist.received.map Return.element))
    (b := ([1, 2], [1, 2])) (by decide)
  rw [Prod.mk.injEq] at hw
  exact ⟨w, hw.1, hw.2, push_pop_producerOrder rfl hr⟩

/-- **A consumer that overtakes a stalled one sees a producer's elements
reversed.** On two slots, thread `0` pushes `1` and then `2`. Thread `1`
claims position `0` for its pop and stalls before the exchange, thread `2`
pops `2` at position `1`, and then, at position `2`, `1`. -/
theorem producerOrder_fails :
    ¬ ∀ w : World (twoSlots false (.atomic 0)) (Fin 3),
      (machine (twoSlots false (.atomic 0)) (Fin 3)).Run (fun _ a _ => Blocking a) w →
        ProducerOrder w := by
  intro hall
  obtain ⟨w, hr, hw⟩ := (machine (twoSlots false (.atomic 0)) (Fin 3)).exists_run_of_execWhile
    (fun _ a _ => Blocking a)
    (Act.run 0 (.push 1) 2 ++ Act.run 0 (.push 2) 2 ++ Act.run 1 .pop 1 ++
      Act.run 2 .pop 2 ++ Act.run 2 .pop 2)
    (fun w => (w.hist.stored, w.hist.received, w.hist.chan.takes))
    (b := ([⟨0, 0, 1, ⟨1, 0, 0⟩, 3⟩, ⟨0, 1, 2, ⟨4, 1, 0⟩, 6⟩],
      [⟨2, 1, 2, ⟨9, 2, 1⟩, 11⟩, ⟨2, 2, 1, ⟨12, 2, 2⟩, 14⟩], [(1, 1), (2, 0)])) (by decide)
  rw [Prod.mk.injEq, Prod.mk.injEq] at hw
  have := hall w hr
  rw [ProducerOrder, hw.1, hw.2.1, hw.2.2] at this
  revert this
  decide

end AtomicQueue
