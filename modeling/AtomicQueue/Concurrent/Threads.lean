import AtomicQueue.Concurrent.Counters
/-!
# Threads and their claims

The claims on `head_` are numbers taken by the pushing threads: a claim
waits in `do_push`, is served by winning its slot, and is done at the
return. So the claims not returned are those of the threads in `do_push`.
-/

namespace AtomicQueue

open Ticket (Status)

variable {T ι : Type} [DecidableEq T] [DecidableEq ι] {D : Derived T}
variable {w w' : World D ι} {a : Act ι T} {t t' : ι}

/-- Where a thread is with its claim on `head_`. -/
def Pc.pushStatus : Pc D → Status T
  | .doPush x _ p => if D.layout.pushOwns p then .served x else .waiting x
  | _ => .out

/-- Where a thread is with its claim on `tail_`. -/
def Pc.popStatus : Pc D → Status Unit
  | .doPop _ p => if D.layout.popOwns p then .served () else .waiting ()
  | _ => .out

namespace World

/-- The claims on `head_`, as numbers taken by threads. -/
def pushTickets (w : World D ι) : Tickets ι T where
  issued := w.hist.chan.pushes
  no := w.hist.pushNo
  status t := (w.pc t).pushStatus
  served := w.hist.chan.puts
  done := w.hist.stored.map Return.no

/-- The claims on `tail_`. -/
def popTickets (w : World D ι) : Tickets ι Unit where
  issued := w.hist.chan.pops
  no := w.hist.popNo
  status t := (w.pc t).popStatus
  served := w.hist.chan.takes.map Prod.fst
  done := w.hist.received.map Return.no

variable {m : Mem D} {pc : Pc D} {e : Event T D.ring.slots}

/-- A step changes the status of its thread, among the pushes -/
theorem pushStatus_next : (w.next t m pc e).pushTickets.status =
    Function.update w.pushTickets.status t pc.pushStatus :=
  funext fun t' => Function.apply_update (fun _ => Pc.pushStatus) w.pc t pc t'

/-- and among the pops. -/
theorem popStatus_next : (w.next t m pc e).popTickets.status =
    Function.update w.popTickets.status t pc.popStatus :=
  funext fun t' => Function.apply_update (fun _ => Pc.popStatus) w.pc t pc t'

/-- A step that is none of a push's leaves the claims on `head_` alone. -/
theorem pushTickets_next (hstatus : pc.pushStatus = (w.pc t).pushStatus)
    (hpushes : (w.hist.record t e).chan.pushes = w.hist.chan.pushes)
    (hno : (w.hist.record t e).pushNo = w.hist.pushNo)
    (hputs : (w.hist.record t e).chan.puts = w.hist.chan.puts)
    (hstored : (w.hist.record t e).stored = w.hist.stored) :
    (w.next t m pc e).pushTickets = w.pushTickets := by
  have hst : (w.next t m pc e).pushTickets.status = w.pushTickets.status := by
    rw [pushStatus_next, hstatus]
    exact Function.update_eq_self t _
  rw [Tickets.mk.injEq]
  exact ⟨hpushes, hno, hst, hputs, congrArg (List.map Return.no) hstored⟩

theorem popTickets_next (hstatus : pc.popStatus = (w.pc t).popStatus)
    (hpops : (w.hist.record t e).chan.pops = w.hist.chan.pops)
    (hno : (w.hist.record t e).popNo = w.hist.popNo)
    (htakes : (w.hist.record t e).chan.takes = w.hist.chan.takes)
    (hreceived : (w.hist.record t e).received = w.hist.received) :
    (w.next t m pc e).popTickets = w.popTickets := by
  have hst : (w.next t m pc e).popTickets.status = w.popTickets.status := by
    rw [popStatus_next, hstatus]
    exact Function.update_eq_self t _
  rw [Tickets.mk.injEq]
  exact ⟨hpops, hno, hst, congrArg (List.map Prod.fst) htakes,
    congrArg (List.map Return.no) hreceived⟩

end World

/-! ## Pushes -/

/-- Who claims had no ticket before, -/
theorem ClaimsPush.status {m : Mem D} {pc : Pc D} {x : T} {head : Word}
    (h : ClaimsPush m pc x head) : pc.pushStatus = .out ∧ pc.popStatus = .out := by
  cases h <;> exact ⟨rfl, rfl⟩

/-- on either side. -/
theorem ClaimsPop.status {m : Mem D} {pc : Pc D} {tail : Word} (h : ClaimsPop m pc tail) :
    pc.pushStatus = .out ∧ pc.popStatus = .out := by
  cases h <;> exact ⟨rfl, rfl⟩

/-- Quiet steps change no status. -/
theorem Quiet.status {m : Mem D} {pc pc' : Pc D} {e : Event T D.ring.slots}
    (h : Quiet m pc pc' e) :
    pc'.pushStatus = pc.pushStatus ∧ pc'.popStatus = pc.popStatus := by
  cases h <;> exact ⟨rfl, rfl⟩

theorem entry_status {op : Op T} {pc : Pc D} (h : D.entry op = some pc) :
    pc.pushStatus = .out ∧ pc.popStatus = .out := by
  cases begins_of_entry h <;> exact ⟨rfl, rfl⟩

/-- A step of the queue is no step, or one step, of the claims on `head_`,
by a thread that pushes. -/
theorem Change.pushTickets (h : Change w a w') : w'.pushTickets = w.pushTickets ∨
    ∃ b, Tickets.step w.pushTickets b = some w'.pushTickets ∧
      (w.pc b.thread).offers ≠ none := by
  cases h with
  | call hidle hentry =>
    exact Or.inl
      (World.pushTickets_next (by rw [hidle, (entry_status hentry).1]; rfl) rfl rfl rfl rfl)
  | @quiet t weak pc e hq =>
    have hrec : w.hist.record t e = { w.hist with clock := w.hist.clock + 1 } :=
      History.record_quiet hq
    exact Or.inl (World.pushTickets_next hq.status.1 (by rw [hrec]) (by rw [hrec]) (by rw [hrec])
      (by rw [hrec]))
  | @claimPush t weak x head hc =>
    refine Or.inr ⟨.take t x, ?_, by rw [Tickets.Act.thread, hc.offers]; simp⟩
    have hout : w.pushTickets.status t = .out := hc.status.1
    simp only [Tickets.step, hout, Option.some.injEq]
    rw [Tickets.take, Tickets.mk.injEq]
    refine ⟨rfl, rfl, ?_, rfl, rfl⟩
    rw [World.pushStatus_next]
    simp [Pc.pushStatus, D.spec.pushEntry_owns]
  | @claimPop t weak tail hc =>
    exact Or.inl (World.pushTickets_next hc.status.1.symm rfl rfl rfl rfl)
  | @pushNext t weak x i p p' hpc h =>
    cases hp : D.layout.pushOwns p with
    | true =>
      -- the slot was won before, and is kept
      have hp' := D.spec.push_keeps hp h
      have hwins : D.pushWins p (.next p') = false := by simp [Derived.pushWins, hp]
      rw [hwins]
      exact Or.inl (World.pushTickets_next (by simp [hpc, Pc.pushStatus, hp, hp']) rfl rfl rfl rfl)
    | false =>
      cases hp' : D.layout.pushOwns p' with
      | false =>
        have hwins : D.pushWins p (.next p') = false := by simp [Derived.pushWins, hp']
        rw [hwins]
        exact Or.inl
          (World.pushTickets_next (by simp [hpc, Pc.pushStatus, hp, hp']) rfl rfl rfl rfl)
      | true =>
        have hwins : D.pushWins p (.next p') = true := by simp [Derived.pushWins, hp, hp']
        have hwait : w.pushTickets.status t = .waiting x := by
          simp [World.pushTickets, hpc, Pc.pushStatus, hp]
        refine Or.inr ⟨.serve t, ?_, by rw [Tickets.Act.thread, hpc]; simp [Pc.offers]⟩
        simp only [Tickets.step, hwait, Option.some.injEq]
        rw [hwins, Tickets.serve, Tickets.mk.injEq]
        refine ⟨rfl, rfl, ?_, rfl, rfl⟩
        rw [World.pushStatus_next]
        simp [Pc.pushStatus, hp']
  | @pushDone t weak x i p hpc h =>
    cases hp : D.layout.pushOwns p with
    | true =>
      have hwins : D.pushWins p .done = false := by simp [Derived.pushWins, hp]
      have hserved : w.pushTickets.status t = .served x := by
        simp [World.pushTickets, hpc, Pc.pushStatus, hp]
      refine Or.inr ⟨.finish t, ?_, by rw [Tickets.Act.thread, hpc]; simp [Pc.offers]⟩
      simp only [Tickets.step, hserved, Option.some.injEq]
      rw [hwins, Tickets.finish, Tickets.mk.injEq]
      refine ⟨rfl, rfl, ?_, rfl, ?_⟩
      · rw [World.pushStatus_next]
        rfl
      · simp [World.pushTickets, History.record, History.returns]
    | false =>
      -- the slot is won and left in one step
      have hwins : D.pushWins p .done = true := by simp [Derived.pushWins, hp]
      have hwait : w.pushTickets.status t = .waiting x := by
        simp [World.pushTickets, hpc, Pc.pushStatus, hp]
      refine Or.inr ⟨.pass t, ?_, by rw [Tickets.Act.thread, hpc]; simp [Pc.offers]⟩
      simp only [Tickets.step, hwait, Option.some.injEq]
      rw [hwins, Tickets.pass, Tickets.mk.injEq]
      refine ⟨rfl, rfl, ?_, rfl, ?_⟩
      · rw [World.pushStatus_next]
        rfl
      · simp [World.pushTickets, History.record, History.returns]
  | popNext hpc h =>
    exact Or.inl (World.pushTickets_next (by rw [hpc]; rfl) History.record_popAt_pushes rfl
      History.record_popAt_puts rfl)
  | popDone hpc h =>
    exact Or.inl (World.pushTickets_next (by rw [hpc]; rfl) History.record_popAt_pushes rfl
      History.record_popAt_puts rfl)

/-- **The claims on `head_` not returned are those of the threads in
`do_push`.** -/
theorem pushTickets_of_run {ok : World D ι → Act ι T → World D ι → Prop}
    (hr : (machine D ι).Run ok w) : Tickets.Inv w.pushTickets := by
  have hrun : (Tickets.machine ι T).Reachable w.pushTickets := by
    refine hr.map (Tickets.machine ι T) World.pushTickets rfl ?_
    intro w a w' _ hs _
    rcases (change_of_step hs).pushTickets with heq | ⟨b, hb, -⟩
    · exact Or.inl heq
    · exact Or.inr ⟨b, hb, trivial⟩
  exact Tickets.inv_of_run hrun

/-- One producer's pushes return in the order of their claims. -/
theorem stored_of_lone {P C : ι} {ok : World D ι → Act ι T → World D ι → Prop}
    (hok : ∀ w a w', ok w a w' → OneEach P C a) (hr : (machine D ι).Run ok w) :
    Tickets.Lone P w.pushTickets := by
  refine Tickets.lone_of_run (hr.map (Tickets.machine ι T) World.pushTickets rfl ?_)
  intro w a w' hr hs _
  rcases (change_of_step hs).pushTickets with heq | ⟨b, hb, hoff⟩
  · exact Or.inl heq
  · exact Or.inr ⟨b, hb, offers_of_run hok hr _ hoff⟩

/-! ## Claims in flight -/

section

variable {i : Fin D.ring.slots} {x : T} {k : ℕ}

omit [DecidableEq ι] in
/-- **A thread in `do_push` has a claim**, of its own element, that has not
returned, and that is served if the thread has won its slot. -/
theorem push_claim (hB : Tickets.Inv w.pushTickets) {p : D.layout.Push}
    (hpc : w.pc t = .doPush x i p) :
    w.hist.chan.pushes[w.hist.pushNo t]? = some ⟨t, x⟩ ∧
      (w.hist.pushNo t ∈ w.hist.chan.puts ↔ D.layout.pushOwns p = true) ∧
      w.hist.pushNo t ∉ w.hist.stored.map Return.no := by
  cases hp : D.layout.pushOwns p with
  | true =>
    have hserved : w.pushTickets.status t = .served x := by
      simp [World.pushTickets, hpc, Pc.pushStatus, hp]
    obtain ⟨hissued, hput, hdone⟩ := hB.of_served t x hserved
    exact ⟨hissued, ⟨fun _ => rfl, fun _ => hput⟩, hdone⟩
  | false =>
    have hwait : w.pushTickets.status t = .waiting x := by
      simp [World.pushTickets, hpc, Pc.pushStatus, hp]
    obtain ⟨hissued, hput, hdone⟩ := hB.of_waiting t x hwait
    exact ⟨hissued, ⟨fun h => absurd h hput, fun h => by cases h⟩, hdone⟩

omit [DecidableEq ι] in
/-- A thread in `do_pop` has made a claim, has taken exactly if it holds its
slot, and has not returned. -/
theorem pop_claim (hB : Tickets.Inv w.popTickets) {p : D.layout.Pop}
    (hpc : w.pc t = .doPop i p) :
    w.hist.chan.pops[w.hist.popNo t]? = some ⟨t, ()⟩ ∧
      (w.hist.popNo t ∈ w.hist.chan.takes.map Prod.fst ↔ D.layout.popOwns p = true) ∧
      w.hist.popNo t ∉ w.hist.received.map Return.no := by
  cases hp : D.layout.popOwns p with
  | true =>
    have hserved : w.popTickets.status t = .served () := by
      simp [World.popTickets, hpc, Pc.popStatus, hp]
    obtain ⟨hissued, htook, hdone⟩ := hB.of_served t () hserved
    exact ⟨hissued, ⟨fun _ => rfl, fun _ => htook⟩, hdone⟩
  | false =>
    have hwait : w.popTickets.status t = .waiting () := by
      simp [World.popTickets, hpc, Pc.popStatus, hp]
    obtain ⟨hissued, htook, hdone⟩ := hB.of_waiting t () hwait
    exact ⟨hissued, ⟨fun h => absurd h htook, fun h => by cases h⟩, hdone⟩

omit [DecidableEq ι] in
/-- **A claim not returned is that of a thread in `do_push`.** -/
theorem push_pending (hB : Tickets.Inv w.pushTickets) (hk : k < w.hist.pushes)
    (hdone : k ∉ w.hist.stored.map Return.no) :
    ∃ t x i p, w.pc t = .doPush x i p ∧ w.hist.pushNo t = k := by
  obtain ⟨t, hst, hno⟩ := hB.pending k hk hdone
  cases hpc : w.pc t with
  | doPush x i p => exact ⟨t, x, i, p, hpc, hno⟩
  | _ => simp [World.pushTickets, hpc, Pc.pushStatus] at hst

omit [DecidableEq ι] in
/-- A number that was claimed and has not returned is that of a thread in
`do_pop`. -/
theorem pop_pending (hB : Tickets.Inv w.popTickets) (hk : k < w.hist.pops)
    (hdone : k ∉ w.hist.received.map Return.no) :
    ∃ t i p, w.pc t = .doPop i p ∧ w.hist.popNo t = k := by
  obtain ⟨t, hst, hno⟩ := hB.pending k hk hdone
  cases hpc : w.pc t with
  | doPop i p => exact ⟨t, i, p, hpc, hno⟩
  | _ => simp [World.popTickets, hpc, Pc.popStatus] at hst

omit [DecidableEq ι] in
/-- The number of a push is one of those claimed, -/
theorem pushNo_lt (hB : Tickets.Inv w.pushTickets) {p : D.layout.Push}
    (hpc : w.pc t = .doPush x i p) : w.hist.pushNo t < w.hist.pushes :=
  (List.getElem?_eq_some_iff.mp (push_claim hB hpc).1).1

omit [DecidableEq ι] in
/-- and so is that of a pop. -/
theorem popNo_lt (hB : Tickets.Inv w.popTickets) {p : D.layout.Pop}
    (hpc : w.pc t = .doPop i p) : w.hist.popNo t < w.hist.pops :=
  (List.getElem?_eq_some_iff.mp (pop_claim hB hpc).1).1

end

end AtomicQueue
