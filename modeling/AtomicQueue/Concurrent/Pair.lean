import AtomicQueue.Concurrent.Linearizable
/-!
# One producer and one consumer

With one thread that pushes and one that pops nobody is overtaken, and the
counts of claims cannot part: a push claimed waits at most for the pops, so
the pushes are at most a lap and one ahead, and the pops at most one. So the
queue is linearizable as it stands, with and without `spsc_`.
-/

namespace AtomicQueue

open Object (Visible Linearizable)

variable {T ι : Type} [DecidableEq T] [DecidableEq ι] {D : Derived T}
variable {w w' : World D ι} {a : Act ι T} {t : ι} {P C : ι}
variable {ok : World D ι → Act ι T → World D ι → Prop}

/-- The claims not returned are one at most. -/
theorem pushes_le_stored (hone : ∀ w a w', ok w a w' → OneEach P C a)
    (hr : (machine D ι).Run ok w) : w.hist.pushes ≤ w.hist.stored.length + 1 := by
  have hlone := stored_of_lone hone hr
  have hlen : w.pushTickets.done.length = w.hist.stored.length := List.length_map ..
  by_cases hout : w.pushTickets.status P = .out
  · have := hlone.of_out hout
    change w.hist.pushes = _ at this
    omega
  · have := (hlone.of_busy hout).1
    change w.hist.pushes = _ at this
    omega

/-- The one consumer has at most one pop that has not returned. -/
theorem pops_le_received (hone : ∀ w a w', ok w a w' → OneEach P C a)
    (hr : (machine D ι).Run ok w) : w.hist.pops ≤ w.hist.received.length + 1 := by
  have hlone := received_of_lone hone hr
  have hlen : w.popTickets.done.length = w.hist.received.length := List.length_map ..
  by_cases hout : w.popTickets.status C = .out
  · have := hlone.of_out hout
    change w.hist.pops = _ at this
    omega
  · have := (hlone.of_busy hout).1
    change w.hist.pops = _ at this
    omega

/-- The counts of claims are a lap and one apart at most. -/
structure World.Balanced (w : World D ι) : Prop where
  pushes_le : w.hist.pushes ≤ w.hist.pops + D.ring.slots + 1
  pops_le : w.hist.pops ≤ w.hist.pushes + 1

/-- **The counts stay balanced**: all but the latest push have won their
slots, so there was room for them, and all but the latest pop have won
theirs, so there were elements for them. -/
theorem balanced_of_oneEach (hone : ∀ w a w', ok w a w' → OneEach P C a)
    (hr : (machine D ι).Run ok w) (hturn : w.Unturned) : w.Balanced := by
  have hok : Proper D ok := fun _ => ⟨P, C, hone⟩
  have hS := sound_of_run hok hr
  have ho := Channels.ordered_of_run
    (inTurn_of_run hok (fun w a w' hr _ => inTurn_of_oneEach hone hr a w') hr)
  have hpair := paired_of_run hone hr
  have hpushes := pushes_le_stored hone hr
  have hpops := pops_le_received hone hr
  constructor
  · rcases Nat.eq_zero_or_pos w.hist.stored.length with hzero | hpos
    · omega
    · have hmem : w.hist.stored.length - 1 ∈ w.hist.stored.map Return.no := by
        rw [hpair.stored_no, List.mem_range]
        omega
      have hlt := hS.put_entered ho hturn (hS.pushTickets.done_served _ hmem)
      rw [History.entered] at hlt
      omega
  · rcases Nat.eq_zero_or_pos w.hist.received.length with hzero | hpos
    · omega
    · have hmem : w.hist.received.length - 1 ∈ w.hist.received.map Return.no := by
        rw [hpair.received_no, List.mem_range]
        omega
      have hlt := hS.take_left ho (hS.popTickets.done_served _ hmem)
      rw [History.left] at hlt
      omega

/-! ## During a call -/

/-- The counts at the call of a thread were balanced, and its own counter has
not moved while it has not decided. -/
structure World.Paced (w : World D ι) : Prop where
  entry : ∀ t, (w.hist.entry t).pushes ≤ (w.hist.entry t).pops + D.ring.slots + 1 ∧
    (w.hist.entry t).pops ≤ (w.hist.entry t).pushes + 1
  push_own : ∀ t, (w.pc t).tryingPush = true → (w.hist.entry t).pushes = w.hist.pushes
  pop_own : ∀ t, (w.pc t).tryingPop = true → (w.hist.entry t).pops = w.hist.pops

/-- A thread that still has to decide had to before the step. -/
theorem Quiet.tryingPush {m : Mem D} {pc pc' : Pc D} {e : Event T D.ring.slots}
    (h : Quiet m pc pc' e) (ht : pc'.tryingPush = true) : pc.tryingPush = true := by
  cases h <;> first | rfl | cases ht

theorem Quiet.tryingPop {m : Mem D} {pc pc' : Pc D} {e : Event T D.ring.slots}
    (h : Quiet m pc pc' e) (ht : pc'.tryingPop = true) : pc.tryingPop = true := by
  cases h <;> first | rfl | cases ht

/-- Who tries to push pushes, -/
theorem Pc.offers_of_tryingPush {pc : Pc D} (h : pc.tryingPush = true) : pc.offers ≠ none := by
  cases pc <;> first | exact Option.some_ne_none _ | cases h

/-- and who tries to pop pops. -/
theorem Pc.popping_of_tryingPop {pc : Pc D} (h : pc.tryingPop = true) : pc.popping = true := by
  cases pc <;> first | rfl | cases h

/-- A step that claims nothing and is no call. -/
theorem World.Paced.next (h : w.Paced) {m : Mem D} {pc : Pc D} {e : Event T D.ring.slots}
    (hentry : (w.hist.record t e).entry = w.hist.entry)
    (hpushes : (w.hist.record t e).chan.pushes = w.hist.chan.pushes)
    (hpops : (w.hist.record t e).chan.pops = w.hist.chan.pops)
    (hpush : pc.tryingPush = true → (w.pc t).tryingPush = true)
    (hpop : pc.tryingPop = true → (w.pc t).tryingPop = true) : (w.next t m pc e).Paced where
  entry u := by
    rw [World.next_hist, hentry]
    exact h.entry u
  push_own u hu := by
    rw [World.next_hist, hentry, History.pushes, hpushes]
    exact h.push_own u (World.of_next (P := fun pc => pc.tryingPush = true) hpush u hu)
  pop_own u hu := by
    rw [World.next_hist, hentry, History.pops, hpops]
    exact h.pop_own u (World.of_next (P := fun pc => pc.tryingPop = true) hpop u hu)

/-- **A step keeps the pace.** The thread that has not decided is the only
one on its side, so that its side claims nothing meanwhile. -/
theorem World.Paced.step (h : w.Paced) (hbal : w.Balanced)
    (hpush : ∀ t, (w.pc t).offers ≠ none → t = P) (hpop : ∀ t, (w.pc t).popping = true → t = C)
    (hc : Change w a w') : w'.Paced := by
  cases hc with
  | @call t op pc hidle hentry =>
    refine ⟨fun u => ?_, fun u hu => ?_, fun u hu => ?_⟩
    · rcases eq_or_ne u t with rfl | hne
      · simp only [World.next_hist, History.record, Function.update_self]
        exact ⟨hbal.pushes_le, hbal.pops_le⟩
      · rw [World.next_hist, History.record_entry_of_ne _ hne]
        exact h.entry u
    · rcases eq_or_ne u t with rfl | hne
      · simp only [World.next_hist, History.record, Function.update_self]
      · rw [World.next_pc_of_ne hne] at hu
        rw [World.next_hist, History.record_entry_of_ne _ hne]
        exact h.push_own u hu
    · rcases eq_or_ne u t with rfl | hne
      · simp only [World.next_hist, History.record, Function.update_self]
      · rw [World.next_pc_of_ne hne] at hu
        rw [World.next_hist, History.record_entry_of_ne _ hne]
        exact h.pop_own u hu
  | @quiet t weak pc e hq =>
    have hrec := History.record_quiet (h := w.hist) (t := t) hq
    exact h.next (by rw [hrec]) (by rw [hrec]) (by rw [hrec]) hq.tryingPush hq.tryingPop
  | @claimPush t weak x head hc =>
    refine ⟨h.entry, fun u hu => ?_, fun u hu => ?_⟩
    · -- the one producer is past its decision
      rcases eq_or_ne u t with rfl | hne
      · rw [World.next_pc_self] at hu
        cases hu
      · rw [World.next_pc_of_ne hne] at hu
        have hu' := hpush u (Pc.offers_of_tryingPush hu)
        have ht' := hpush t (by rw [hc.offers]; exact Option.some_ne_none x)
        exact absurd (hu'.trans ht'.symm) hne
    · rcases eq_or_ne u t with rfl | hne
      · rw [World.next_pc_self] at hu
        cases hu
      · rw [World.next_pc_of_ne hne] at hu
        exact h.pop_own u hu
  | @claimPop t weak tail hc =>
    refine ⟨h.entry, fun u hu => ?_, fun u hu => ?_⟩
    · rcases eq_or_ne u t with rfl | hne
      · rw [World.next_pc_self] at hu
        cases hu
      · rw [World.next_pc_of_ne hne] at hu
        exact h.push_own u hu
    · rcases eq_or_ne u t with rfl | hne
      · rw [World.next_pc_self] at hu
        cases hu
      · rw [World.next_pc_of_ne hne] at hu
        have hu' := hpop u (Pc.popping_of_tryingPop hu)
        exact absurd (hu'.trans (hpop t hc.popping).symm) hne
  | pushNext hpc ho | pushDone hpc ho =>
    exact h.next rfl History.record_pushAt_pushes History.record_pushAt_pops
      (fun ht => by cases ht) (fun ht => by cases ht)
  | popNext hpc ho | popDone hpc ho =>
    exact h.next rfl History.record_popAt_pushes History.record_popAt_pops
      (fun ht => by cases ht) (fun ht => by cases ht)

theorem paced_of_run (hone : ∀ w a w', ok w a w' → OneEach P C a)
    (hturn : ∀ {w}, (machine D ι).Run ok w → w.Unturned) (hr : (machine D ι).Run ok w) :
    w.Paced := by
  refine hr.invariant (I := World.Paced)
    ⟨fun _ => ⟨Nat.zero_le _, Nat.zero_le _⟩, fun _ ht => (by cases ht), fun _ ht => (by cases ht)⟩
    ?_
  intro w a w' hr h hs _
  exact h.step (balanced_of_oneEach hone hr (hturn hr)) (offers_of_run hone hr)
    (popping_of_run hone hr) (change_of_step hs)

omit [DecidableEq ι] in
/-- Within the pace the counts are near each other. -/
theorem World.Paced.bounded (h : w.Paced) (hbal : w.Balanced) (hsize : D.ring.slots ≤ 2 ^ 29) :
    w.Bounded := by
  have hpushes := hbal.pushes_le
  have hpops := hbal.pops_le
  refine ⟨by omega, by omega, fun t ht => ?_⟩
  obtain ⟨hpush, hpop⟩ := h.entry t
  rcases ht with ht | ht
  · have := h.push_own t ht
    omega
  · have := h.pop_own t ht
    omega

/-- **With one producer and one consumer the queue is linearizable**, for
every size up to `2 ^ 29` and either kind of slot, with and without `spsc_`:
on a ring whose size is a power of two on every run, on others until the
counters wrap. -/
theorem linearizable_of_oneEach (hsize : D.ring.slots ≤ 2 ^ 29)
    {es : List (Visible ι (Op T) (Answer T))}
    (h : (machine D ι).Seen (fun _ a (w' : World D ι) => OneEach P C a ∧ w'.Unturned)
      World.visible es w) :
    Linearizable (boundedQueue T D.ring.slots) es := by
  have hone : ∀ (_ : World D ι) (a : Act ι T) (w' : World D ι),
      OneEach P C a ∧ w'.Unturned → OneEach P C a := fun _ _ _ h => h.1
  have hturn : ∀ {w : World D ι},
      (machine D ι).Run (fun _ a w' => OneEach P C a ∧ w'.Unturned) w → w.Unturned :=
    fun hr => unturned_of_run (fun _ _ _ h => h.2) hr
  refine linearizable_of_inTurn (fun _ => ⟨P, C, hone⟩) (by omega)
    (fun w a w' hr _ => inTurn_of_oneEach hone hr a w') (fun hr => ⟨?_, hturn hr⟩) h
  exact (paced_of_run hone hturn hr).bounded (balanced_of_oneEach hone hr (hturn hr)) hsize

/-- A push and a refused pop, with plain loads and stores. -/
theorem linearizable_of_oneEach_run :
    Linearizable (ι := Fin 2) (boundedQueue ℕ 2)
      [.call 0 (.tryPush 5), .call 1 .tryPop, .reply 1 .refused, .reply 0 .done, .call 1 .pop,
        .reply 1 (.element 5)] := by
  obtain ⟨w, hw⟩ := (machine (twoSlots true (.atomic 0)) (Fin 2)).exists_seen_of_watch
    (fun _ a _ => OneEach 0 1 a) World.visible
    (Act.run 0 (.tryPush 5) 2 ++ Act.run 1 .tryPop 2 ++ List.replicate 3 (.step 0 false) ++
      Act.run 1 .pop 4)
    [.call 0 (.tryPush 5), .call 1 .tryPop, .reply 1 .refused, .reply 0 .done,
      .call 1 .pop, .reply 1 (.element 5)] (by decide)
  exact linearizable_of_oneEach (P := 0) (C := 1) (by decide)
    (hw.mono fun _ _ _ h => ⟨h, Or.inl ⟨1, rfl⟩⟩)

end AtomicQueue
