import AtomicQueue.Concurrent.Slots
import AtomicQueue.Common.Channels.Order
import AtomicQueue.Common.Channels.Balance
/-!
# The queue is a row of channels

The history's channels are changed by the steps of the row of channels and
by no others: a claim takes a number, a slot won by a push was empty, and
a slot won by a pop held the number the pop takes. So what holds of every
run of the channels holds of every run of the queue, and where no thread
overtakes another on a slot, of the runs without overtaking.
-/

namespace AtomicQueue

open Ticket (Status)

variable {T ι : Type} [DecidableEq T] [DecidableEq ι] {D : Derived T}
variable {w w' : World D ι} {a : Act ι T} {t t' : ι} {i : Fin D.ring.slots} {x : T}
variable {ok : World D ι → Act ι T → World D ι → Prop}

/-! ## Pops and their claims -/

omit [DecidableEq ι] in
/-- A slot that a pop can win holds a number. -/
theorem Linked.cell_of_full (h : Linked w i (.free (some x))) :
    ∃ k, w.hist.chan.cell i = some k ∧ w.hist.element k = some x := by
  cases h with
  | full hfree hcell hx => exact ⟨_, hcell, hx⟩

omit [DecidableEq ι] in
theorem Linked.cell_of_empty (h : Linked w i (.free none)) : w.hist.chan.cell i = none := by
  cases h with
  | empty hfree hcell => exact hcell

/-- A step of the queue is no step, or one step, of the claims on `tail_`,
by a thread that pops. -/
theorem Kept.popTickets (hK : Kept w) (h : Change w a w') : w'.popTickets = w.popTickets ∨
    ∃ b, Tickets.step w.popTickets b = some w'.popTickets ∧
      (w.pc b.thread).popping = true := by
  cases h with
  | call hidle hentry =>
    exact Or.inl
      (World.popTickets_next (by rw [hidle, (entry_status hentry).2]; rfl) rfl rfl rfl rfl)
  | @quiet t weak pc e hq =>
    have hrec : w.hist.record t e = { w.hist with clock := w.hist.clock + 1 } :=
      History.record_quiet hq
    exact Or.inl (World.popTickets_next hq.status.2 (by rw [hrec]) (by rw [hrec]) (by rw [hrec])
      (by rw [hrec]))
  | @claimPush t weak x head hc =>
    exact Or.inl (World.popTickets_next hc.status.2.symm rfl rfl rfl rfl)
  | @claimPop t weak tail hc =>
    refine Or.inr ⟨.take t (), ?_, hc.popping⟩
    have hout : w.popTickets.status t = .out := hc.status.2
    simp only [Tickets.step, hout, Option.some.injEq]
    rw [Tickets.take, Tickets.mk.injEq]
    refine ⟨rfl, rfl, ?_, rfl, rfl⟩
    rw [World.popStatus_next]
    simp [Pc.popStatus, D.spec.popEntry_owns]
  | pushNext hpc ho =>
    exact Or.inl (World.popTickets_next (by rw [hpc]; rfl) History.record_pushAt_pops rfl
      History.record_pushAt_takes rfl)
  | pushDone hpc ho =>
    exact Or.inl (World.popTickets_next (by rw [hpc]; rfl) History.record_pushAt_pops rfl
      History.record_pushAt_takes rfl)
  | @popNext t weak i p p' hpc ho =>
    obtain ⟨φ, φ', hl, -, hm⟩ := hK.popMove weak hpc
    rw [ho] at hm
    cases hm with
    | wait hp hp' =>
      have hwins : D.popWins p (.next p') = false := by simp [Derived.popWins, hp']
      rw [hwins]
      exact Or.inl (World.popTickets_next (by simp [hpc, Pc.popStatus, hp, hp']) rfl rfl rfl
        (List.append_nil _))
    | hold hp hp' =>
      have hwins : D.popWins p (.next p') = false := by simp [Derived.popWins, hp]
      rw [hwins]
      exact Or.inl (World.popTickets_next (by simp [hpc, Pc.popStatus, hp, hp']) rfl rfl rfl
        (List.append_nil _))
    | win hp hp' =>
      -- the slot won is full, and the pop takes the number it holds
      obtain ⟨k, hcell, -⟩ := hl.cell_of_full
      have hwins : D.popWins p (.next p') = true := by simp [Derived.popWins, hp, hp']
      have hwait : w.popTickets.status t = .waiting () := by
        simp [World.popTickets, hpc, Pc.popStatus, hp]
      refine Or.inr ⟨.serve t, ?_, by rw [Tickets.Act.thread, hpc]; rfl⟩
      simp only [Tickets.step, hwait, Option.some.injEq]
      rw [hwins, Tickets.serve, Tickets.mk.injEq]
      refine ⟨History.record_popAt_pops.symm, rfl, ?_, ?_, ?_⟩
      · rw [World.popStatus_next]
        simp [Pc.popStatus, hp']
      · simp [World.popTickets, History.record_popAt_chan hcell, Channels.take]
      · simp [World.popTickets, History.record]
  | @popDone t weak i p x hpc ho =>
    obtain ⟨φ, φ', hl, -, hm⟩ := hK.popMove weak hpc
    rw [ho] at hm
    cases hm with
    | pass hp =>
      -- the slot is won and left in one step
      obtain ⟨k, hcell, -⟩ := hl.cell_of_full
      have hwins : D.popWins p (.done x) = true := by simp [Derived.popWins, hp]
      have hwait : w.popTickets.status t = .waiting () := by
        simp [World.popTickets, hpc, Pc.popStatus, hp]
      refine Or.inr ⟨.pass t, ?_, by rw [Tickets.Act.thread, hpc]; rfl⟩
      simp only [Tickets.step, hwait, Option.some.injEq]
      rw [hwins, Tickets.pass, Tickets.mk.injEq]
      refine ⟨History.record_popAt_pops.symm, rfl, ?_, ?_, ?_⟩
      · rw [World.popStatus_next]
        rfl
      · simp [World.popTickets, History.record_popAt_chan hcell, Channels.take]
      · simp [World.popTickets, History.record, History.returns]
    | release hp =>
      have hwins : D.popWins p (.done x) = false := by simp [Derived.popWins, hp]
      have hserved : w.popTickets.status t = .served () := by
        simp [World.popTickets, hpc, Pc.popStatus, hp]
      refine Or.inr ⟨.finish t, ?_, by rw [Tickets.Act.thread, hpc]; rfl⟩
      simp only [Tickets.step, hserved, Option.some.injEq]
      rw [hwins, Tickets.finish, Tickets.mk.injEq]
      refine ⟨rfl, rfl, ?_, rfl, ?_⟩
      · rw [World.popStatus_next]
        rfl
      · simp [World.popTickets, History.record, History.returns]

/-- **The claims on `tail_` not returned are those of the threads in
`do_pop`.** -/
theorem popTickets_of_run (hok : Proper D ok) (hr : (machine D ι).Run ok w) :
    Tickets.Inv w.popTickets := by
  have hrun : (Tickets.machine ι Unit).Reachable w.popTickets := by
    refine hr.map (Tickets.machine ι Unit) World.popTickets rfl ?_
    intro w a w' hr hs _
    rcases (kept_of_run hok hr).popTickets (change_of_step hs) with heq | ⟨b, hb, -⟩
    · exact Or.inl heq
    · exact Or.inr ⟨b, hb, trivial⟩
  exact Tickets.inv_of_run hrun

/-- One consumer's pops return in the order of their claims. -/
theorem received_of_lone {P C : ι} (hok : ∀ w a w', ok w a w' → OneEach P C a)
    (hr : (machine D ι).Run ok w) : Tickets.Lone C w.popTickets := by
  refine Tickets.lone_of_run (hr.map (Tickets.machine ι Unit) World.popTickets rfl ?_)
  intro w a w' hr hs _
  rcases (kept_of_run (fun _ => ⟨P, C, hok⟩) hr).popTickets (change_of_step hs) with
    heq | ⟨b, hb, hpop⟩
  · exact Or.inl heq
  · exact Or.inr ⟨b, hb, popping_of_run hok hr _ hpop⟩

/-! ## Overtaking -/

/-- No push that waits for the slot of thread `t` has an earlier claim. -/
def World.FirstPush (w : World D ι) (t : ι) : Prop :=
  ∀ i, (w.pc t).pushSlot = some i → ∀ t', (w.pc t').pushWaits = some i →
    w.hist.pushNo t ≤ w.hist.pushNo t'

/-- Nor has a pop. -/
def World.FirstPop (w : World D ι) (t : ι) : Prop :=
  ∀ i, (w.pc t).popSlot = some i → ∀ t', (w.pc t').popWaits = some i →
    w.hist.popNo t ≤ w.hist.popNo t'

/-- **A step that overtakes nobody**: if it wins a slot, then for the
oldest of the claims of its kind that wait for the slot. -/
def InTurn (w : World D ι) (a : Act ι T) (w' : World D ι) : Prop :=
  (w'.hist.chan.puts ≠ w.hist.chan.puts → w.FirstPush a.thread) ∧
    (w'.hist.chan.takes ≠ w.hist.chan.takes → w.FirstPop a.thread)

section

variable [Fintype ι]

instance : Decidable (w.FirstPush t) :=
  inferInstanceAs (Decidable (∀ i, (w.pc t).pushSlot = some i → ∀ t', (w.pc t').pushWaits = some i →
    w.hist.pushNo t ≤ w.hist.pushNo t'))

instance : Decidable (w.FirstPop t) :=
  inferInstanceAs (Decidable (∀ i, (w.pc t).popSlot = some i → ∀ t', (w.pc t').popWaits = some i →
    w.hist.popNo t ≤ w.hist.popNo t'))

instance : Decidable (InTurn w a w') :=
  inferInstanceAs (Decidable (_ ∧ _))

end

omit [DecidableEq ι] in
/-- **A claim not yet served** waits in `do_push` on its slot. -/
theorem Kept.waits_push (hK : Kept w) {k : ℕ} (hk : k < w.hist.pushes)
    (hput : k ∉ w.hist.chan.puts) :
    ∃ t x p, w.pc t = .doPush x (D.ring.slotOf k) p ∧ D.layout.pushOwns p = false ∧
      w.hist.pushNo t = k := by
  have hB := hK.pushTickets
  obtain ⟨t, x, i, p, hpc, rfl⟩ := push_pending hB hk fun hdone => hput (hB.done_served k hdone)
  refine ⟨t, x, p, by rw [hK.slotOf_pushNo hpc, hpc], ?_, rfl⟩
  rwa [(push_claim hB hpc).2.1, Bool.not_eq_true] at hput

omit [DecidableEq ι] in
theorem Kept.waits_pop (hK : Kept w) (hB : Tickets.Inv w.popTickets) {k : ℕ}
    (hk : k < w.hist.pops) (htook : k ∉ w.hist.chan.takes.map Prod.fst) :
    ∃ t p, w.pc t = .doPop (D.ring.slotOf k) p ∧ D.layout.popOwns p = false ∧
      w.hist.popNo t = k := by
  obtain ⟨t, i, p, hpc, rfl⟩ := pop_pending hB hk fun hdone => htook (hB.done_served k hdone)
  refine ⟨t, p, by rw [hK.slotOf_popNo hpc, hpc], ?_, rfl⟩
  rwa [(pop_claim hB hpc).2.1, Bool.not_eq_true] at htook

/-! ## The steps of the channels -/

/-- What a step of the queue does to the channels: nothing, or a step of
theirs, without overtaking if the queue's is. -/
def ChannelStep (w : World D ι) (a : Act ι T) (w' : World D ι) : Prop :=
  w'.hist.chan = w.hist.chan ∨
    ∃ b, Channels.step D.ring.slotOf w.hist.chan b = some w'.hist.chan ∧
      (InTurn w a w' → Channels.InTurn D.ring.slotOf w.hist.chan b)

omit [DecidableEq ι] in
/-- **A slot won by a push is a channel filled.** -/
theorem Kept.channel_put (hK : Kept w) {p : D.layout.Push} (hpc : w.pc t = .doPush x i p)
    (hp : D.layout.pushOwns p = false) (hcell : w.hist.chan.cell i = none)
    (hthread : a.thread = t) (hchan : w'.hist.chan = w.hist.chan.put i (w.hist.pushNo t)) :
    ChannelStep w a w' := by
  have hput : w.hist.pushNo t ∉ w.hist.chan.puts := by
    rw [(push_claim hK.pushTickets hpc).2.1, hp]
    simp
  have hslot := hK.slotOf_pushNo hpc
  refine Or.inr ⟨.put (w.hist.pushNo t), ?_, fun hturn k hk hks => ?_⟩
  · rw [Channels.step_put (pushNo_lt hK.pushTickets hpc) hput (hslot ▸ hcell), hslot, hchan]
  · by_contra hnot
    obtain ⟨t', x', p', hpc', hp', rfl⟩ := hK.waits_push
      (hk.trans (pushNo_lt hK.pushTickets hpc)) hnot
    have hfirst := hturn.1 (by rw [hchan]; simp [Channels.put])
    rw [hthread] at hfirst
    have := hfirst i (by rw [hpc]; rfl) t' (by simp [hpc', Pc.pushWaits, hp', hks, hslot])
    omega

omit [DecidableEq ι] in
/-- **A slot won by a pop is a channel emptied.** -/
theorem Kept.channel_take (hK : Kept w) (hB : Tickets.Inv w.popTickets) {p : D.layout.Pop} {k : ℕ}
    (hpc : w.pc t = .doPop i p) (hp : D.layout.popOwns p = false)
    (hcell : w.hist.chan.cell i = some k) (hthread : a.thread = t)
    (hchan : w'.hist.chan = w.hist.chan.take i (w.hist.popNo t) k) : ChannelStep w a w' := by
  have htook : w.hist.popNo t ∉ w.hist.chan.takes.map Prod.fst := by
    rw [(pop_claim hB hpc).2.1, hp]
    simp
  have hslot := hK.slotOf_popNo hpc
  refine Or.inr ⟨.take (w.hist.popNo t), ?_, fun hturn m hm hms => ?_⟩
  · rw [Channels.step_take (popNo_lt hB hpc) htook (hslot ▸ hcell), hslot, hchan]
  · by_contra hnot
    obtain ⟨t', p', hpc', hp', rfl⟩ := hK.waits_pop hB (hm.trans (popNo_lt hB hpc)) hnot
    have hfirst := hturn.2 (by rw [hchan]; simp [Channels.take])
    rw [hthread] at hfirst
    have := hfirst i (by rw [hpc]; rfl) t' (by simp [hpc', Pc.popWaits, hp', hms, hslot])
    omega

theorem Kept.channels (hK : Kept w) (hB : Tickets.Inv w.popTickets) (h : Change w a w') :
    ChannelStep w a w' := by
  cases h with
  | call hidle hentry => exact Or.inl rfl
  | quiet hq => exact Or.inl (by rw [World.next_hist, History.record_quiet hq])
  | claimPush hc => exact Or.inr ⟨.push _, rfl, fun _ => trivial⟩
  | claimPop hc => exact Or.inr ⟨.pop _, rfl, fun _ => trivial⟩
  | @pushNext t weak x i p p' hpc ho =>
    obtain ⟨φ, φ', hl, -, hm⟩ := hK.pushMove weak hpc
    rw [ho] at hm
    cases hm with
    | wait hp hp' => exact Or.inl (by simp [History.record, Derived.pushWins, hp'])
    | hold hp hp' => exact Or.inl (by simp [History.record, Derived.pushWins, hp])
    | win hp hp' =>
      refine hK.channel_put hpc hp hl.cell_of_empty rfl ?_
      simp [History.record, Derived.pushWins, hp, hp', History.put]
  | @pushDone t weak x i p hpc ho =>
    obtain ⟨φ, φ', hl, -, hm⟩ := hK.pushMove weak hpc
    rw [ho] at hm
    cases hm with
    | release hp => exact Or.inl (by simp [History.record, Derived.pushWins, hp])
    | pass hp =>
      refine hK.channel_put hpc hp hl.cell_of_empty rfl ?_
      simp [History.record, Derived.pushWins, hp, History.put]
  | @popNext t weak i p p' hpc ho =>
    obtain ⟨φ, φ', hl, -, hm⟩ := hK.popMove weak hpc
    rw [ho] at hm
    cases hm with
    | wait hp hp' => exact Or.inl (by simp [History.record, Derived.popWins, hp'])
    | hold hp hp' => exact Or.inl (by simp [History.record, Derived.popWins, hp])
    | win hp hp' =>
      obtain ⟨k, hcell, -⟩ := hl.cell_of_full
      refine hK.channel_take hB hpc hp hcell rfl ?_
      simp [History.record, Derived.popWins, hp, hp', History.take_eq hcell]
  | @popDone t weak i p x hpc ho =>
    obtain ⟨φ, φ', hl, -, hm⟩ := hK.popMove weak hpc
    rw [ho] at hm
    cases hm with
    | release hp => exact Or.inl (by simp [History.record, Derived.popWins, hp])
    | pass hp =>
      obtain ⟨k, hcell, -⟩ := hl.cell_of_full
      refine hK.channel_take hB hpc hp hcell rfl ?_
      simp [History.record, Derived.popWins, hp, History.take_eq hcell]

/-- **Every run of the queue is a run of the channels.** -/
theorem channels_of_run (hok : Proper D ok) (hr : (machine D ι).Run ok w) :
    (Channels.machine (Ticket ι T) (Ticket ι Unit) D.ring.slotOf).Reachable w.hist.chan := by
  refine hr.map (Channels.machine _ _ D.ring.slotOf) (fun w => w.hist.chan) rfl ?_
  intro w a w' hr hs _
  rcases (kept_of_run hok hr).channels (popTickets_of_run hok hr) (change_of_step hs) with
    heq | ⟨b, hb, -⟩
  · exact Or.inl heq
  · exact Or.inr ⟨b, hb, trivial⟩

/-- **A run without overtaking is one of the channels without overtaking.** -/
theorem inTurn_of_run (hok : Proper D ok)
    (hturn : ∀ w a w', (machine D ι).Run ok w → ok w a w' → InTurn w a w')
    (hr : (machine D ι).Run ok w) :
    (Channels.machine (Ticket ι T) (Ticket ι Unit) D.ring.slotOf).Run
      (fun c b _ => Channels.InTurn D.ring.slotOf c b) w.hist.chan := by
  refine hr.map (Channels.machine _ _ D.ring.slotOf) (fun w => w.hist.chan) rfl ?_
  intro w a w' hr hs hstep
  rcases (kept_of_run hok hr).channels (popTickets_of_run hok hr) (change_of_step hs) with
    heq | ⟨b, hb, hcond⟩
  · exact Or.inl heq
  · exact Or.inr ⟨b, hb, hcond (hturn w a w' hr hstep)⟩

end AtomicQueue
