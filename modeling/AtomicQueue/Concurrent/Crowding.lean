import AtomicQueue.Concurrent.Decisions
import AtomicQueue.Concurrent.Progress
/-!
# How many threads are on a slot

`try_push` looks for room at `tail_`, which a consumer advances when it
claims a position, not when it has emptied the slot. So a consumer that
waits for a stalled producer makes room for the producer of the next lap,
and two producers are on one slot (`exclusive_fails`). What it takes is an
operation of the other kind that is on the slot and cannot move: while
every claim finds those of the other kind on its slot ready, a slot has at
most one producer and one consumer.
-/

namespace AtomicQueue

variable {T ι : Type} [DecidableEq T] [DecidableEq ι] {D : Derived T}
variable {w w' : World D ι} {a : Act ι T} {t t' : ι} {i : Fin D.ring.slots} {x : T}
variable {ok : World D ι → Act ι T → World D ι → Prop}

/-- **Each slot has at most one producer and one consumer**, from its claim
to its return. -/
structure Exclusive (w : World D ι) : Prop where
  push_eq : ∀ i t t', (w.pc t).pushSlot = some i → (w.pc t').pushSlot = some i → t = t'
  pop_eq : ∀ i t t', (w.pc t).popSlot = some i → (w.pc t').popSlot = some i → t = t'

/-- **The claim of a step crosses nobody**: every operation of the other
kind in flight on the slot claimed has won it or finds it as it waits for
it. -/
def Uncrossed (w w' : World D ι) : Prop :=
  (w'.hist.pushes ≠ w.hist.pushes → ∀ t,
    (w.pc t).popSlot = some (D.ring.slotOf w.hist.pushes) →
      w.Ready t (D.ring.slotOf w.hist.pushes)) ∧
    (w'.hist.pops ≠ w.hist.pops → ∀ t,
      (w.pc t).pushSlot = some (D.ring.slotOf w.hist.pops) →
        w.Ready t (D.ring.slotOf w.hist.pops))

/-- The positions between the counters are on distinct slots: the size
divides the turn of the counters, or they have not turned yet. -/
def World.Unturned (w : World D ι) : Prop :=
  D.ring.PowerOfTwo ∨ w.hist.pushes < 2 ^ 32

instance [Fintype ι] : Decidable (Uncrossed w w') := inferInstanceAs (Decidable (_ ∧ _))

instance : Decidable (w.Fresh t) := inferInstanceAs (Decidable (_ ∧ _))

/-! ## The window of positions -/

omit [DecidableEq ι] in
theorem World.Unturned.slotOf_ne (h : w.Unturned) {k k' : ℕ} (hlt : k < k')
    (hlap : k' < k + D.ring.slots) (hle : k' ≤ w.hist.pushes) :
    D.ring.slotOf k ≠ D.ring.slotOf k' := by
  rcases h with hpow | hturn
  · exact hpow.slotOf_ne hlt hlap
  · exact Ring.slotOf_ne_of_lt hlt hlap (by omega)

omit [DecidableEq T] in
theorem asSigned_size_le : asSigned D.ring.size_ ≤ (D.ring.slots : ℤ) := by
  rw [asSigned, BitVec.toInt_eq_toNat_cond]
  split
  · exact le_rfl
  · have := D.ring.size_.isLt
    omega

omit [DecidableEq ι] in
/-- **Where there is room, the pops have claimed all earlier positions** of
the slot. -/
theorem World.Unturned.lt_of_room (hturn : w.Unturned)
    (hroom : (w.hist.pushes : ℤ) < w.hist.pops + asSigned D.ring.size_) {m : ℕ}
    (hm : m < w.hist.pushes) (hslot : D.ring.slotOf m = D.ring.slotOf w.hist.pushes) :
    m < w.hist.pops := by
  have hsize := asSigned_size_le (D := D)
  by_contra hge
  exact hturn.slotOf_ne hm (by omega) le_rfl hslot

/-! ## One slot -/

omit [DecidableEq ι] in
/-- **A pop waits, and finds its element**: the slot is free and full. -/
theorem Exclusive.full_of_ready (hE : Exclusive w) (hK : Kept w) {p : D.layout.Pop}
    (hpc : w.pc t = .doPop i p) (hp : D.layout.popOwns p = false) (hready : w.Ready t i) :
    (∀ t, (w.pc t).owns ≠ some i) ∧ ∃ k, w.hist.chan.cell i = some k := by
  have howns : (w.pc t).owns ≠ some i := by rw [hpc, Pc.owns_doPop, hp]; simp
  have hawait : D.layout.awaitsPop (w.mem.cell i) = true := by
    rcases hready with h | ⟨h, -⟩ | ⟨-, h⟩
    · exact absurd h howns
    · rw [hpc] at h; cases h
    · exact h
  obtain ⟨φ, hφ, hl⟩ := hK.slotted i
  cases hl with
  | empty hfree hcell =>
    rw [D.spec.awaitsPop_eq hφ] at hawait
    cases hawait
  | full hfree hcell hx => exact ⟨hfree, _, hcell⟩
  | push hpc' hp' hsole hcell =>
    rw [D.spec.awaitsPop_push hφ] at hawait
    cases hawait
  | @pop u p' y k hpc' hp' hsole hcell htook hx =>
    -- the owner would be a second pop on the slot
    have hu : u = t := hE.pop_eq i u t (by rw [hpc']; rfl) (by rw [hpc]; rfl)
    subst hu
    rw [hpc', Pc.owns_doPop, if_pos hp'] at howns
    exact absurd rfl howns

omit [DecidableEq ι] in
/-- **A push waits, and finds room**: the slot is free and empty. -/
theorem Exclusive.empty_of_ready (hE : Exclusive w) (hK : Kept w) {p : D.layout.Push}
    (hpc : w.pc t = .doPush x i p) (hp : D.layout.pushOwns p = false) (hready : w.Ready t i) :
    (∀ t, (w.pc t).owns ≠ some i) ∧ w.hist.chan.cell i = none := by
  have howns : (w.pc t).owns ≠ some i := by rw [hpc, Pc.owns_doPush, hp]; simp
  have hawait : D.layout.awaitsPush (w.mem.cell i) = true := by
    rcases hready with h | ⟨-, h⟩ | ⟨h, -⟩
    · exact absurd h howns
    · exact h
    · rw [hpc] at h; cases h
  obtain ⟨φ, hφ, hl⟩ := hK.slotted i
  cases hl with
  | empty hfree hcell => exact ⟨hfree, hcell⟩
  | full hfree hcell hx =>
    rw [D.spec.awaitsPush_eq hφ] at hawait
    cases hawait
  | pop hpc' hp' hsole hcell htook hx =>
    rw [D.spec.awaitsPush_pop hφ] at hawait
    cases hawait
  | @push u p' y hpc' hp' hsole hcell =>
    have hu : u = t := hE.push_eq i u t (by rw [hpc']; rfl) (by rw [hpc]; rfl)
    subst hu
    rw [hpc', Pc.owns_doPush, if_pos hp'] at howns
    exact absurd rfl howns

/-- **No push is on a slot that a claim on `head_` crosses nobody on.** -/
theorem Exclusive.no_push (hE : Exclusive w) (hok : Proper D ok) (hr : (machine D ι).Run ok w)
    (hlt : ∀ m < w.hist.pushes, D.ring.slotOf m = i → m < w.hist.pops)
    (hready : ∀ t, (w.pc t).popSlot = some i → w.Ready t i) :
    ∀ t, (w.pc t).pushSlot ≠ some i := by
  have hS := sound_of_run hok hr
  have hchan := channels_of_run hok hr
  have hload : Channels.load D.ring.slotOf w.hist.chan.pushes.length i ≤
      Channels.load D.ring.slotOf w.hist.chan.pops.length i := Channels.load_le_of_lt hlt
  intro u hu
  obtain ⟨x, p, hpc⟩ := Pc.pushSlot_eq.mp hu
  have hlt := pushNo_lt hS.pushTickets hpc
  have hslot := hS.slotOf_pushNo hpc
  -- served or not, it cannot be: it would own a slot that is free or empty
  have howns : w.hist.pushNo u ∈ w.hist.chan.puts → (w.pc u).owns = some i := fun hput => by
    rw [hpc, Pc.owns_doPush, if_pos ((push_claim hS.pushTickets hpc).2.1.mp hput)]
  by_cases hwait : ∃ t q, w.pc t = .doPop i q ∧ D.layout.popOwns q = false
  · obtain ⟨t, q, hpct, hq⟩ := hwait
    obtain ⟨hfree, k, hcell⟩ := hE.full_of_ready hS.toKept hpct hq
      (hready t (by rw [hpct]; rfl))
    have hput := Channels.noPutWaits_of_full hchan hload (j := w.hist.popNo t) ?_
      (by rw [hcell]; simp) _ hlt hslot
    · exact hfree u (howns hput)
    · intro m hm hms
      by_contra hnot
      obtain ⟨htook, hne⟩ := not_or.mp hnot
      obtain ⟨t', q', hpct', -, rfl⟩ := hS.waits_pop hS.popTickets hm htook
      -- the pop that waits is the only one on the slot
      exact hne (congrArg w.hist.popNo (hE.pop_eq i t' t (by rw [hpct', hms]; rfl)
        (by rw [hpct]; rfl)))
  · have htake : Channels.NoTakeWaits D.ring.slotOf w.hist.chan i := by
      intro m hm hms
      by_contra htook
      obtain ⟨t, q, hpct, hq, -⟩ := hS.waits_pop hS.popTickets hm htook
      exact hwait ⟨t, q, by rw [hpct, hms], hq⟩
    obtain ⟨hserved, hcell⟩ := Channels.noPutWaits_of_served hchan hload htake
    have hput := hserved _ hlt hslot
    obtain ⟨φ, -, hl⟩ := hS.slotted i
    have hfull := (hl.of_push_owner hpc ((push_claim hS.pushTickets hpc).2.1.mp hput)).2.2
    rw [hcell] at hfull
    cases hfull

/-- **No pop is on a slot that a claim on `tail_` crosses nobody on.** -/
theorem Exclusive.no_pop (hE : Exclusive w) (hok : Proper D ok) (hr : (machine D ι).Run ok w)
    (hsome : w.hist.pops < w.hist.pushes) (hslot : D.ring.slotOf w.hist.pops = i)
    (hready : ∀ t, (w.pc t).pushSlot = some i → w.Ready t i) :
    ∀ t, (w.pc t).popSlot ≠ some i := by
  have hS := sound_of_run hok hr
  have hchan := channels_of_run hok hr
  have hload : Channels.load D.ring.slotOf w.hist.chan.pops.length i <
      Channels.load D.ring.slotOf w.hist.chan.pushes.length i := Channels.load_lt hsome hslot
  intro u hu
  obtain ⟨p, hpc⟩ := Pc.popSlot_eq.mp hu
  have hlt := popNo_lt hS.popTickets hpc
  have hslotu := hS.slotOf_popNo hpc
  by_cases hwait : ∃ t x q, w.pc t = .doPush x i q ∧ D.layout.pushOwns q = false
  · obtain ⟨t, x, q, hpct, hq⟩ := hwait
    obtain ⟨hfree, hcell⟩ := hE.empty_of_ready hS.toKept hpct hq (hready t (by rw [hpct]; rfl))
    have htook := Channels.noTakeWaits_of_empty hchan hload (j := w.hist.pushNo t) ?_ hcell
      _ hlt hslotu
    · refine hfree u ?_
      rw [hpc, Pc.owns_doPop, if_pos ((pop_claim hS.popTickets hpc).2.1.mp htook)]
    · intro k hk hks
      by_contra hnot
      obtain ⟨hput, hne⟩ := not_or.mp hnot
      obtain ⟨t', y, q', hpct', -, rfl⟩ := hS.waits_push hk hput
      exact hne (congrArg w.hist.pushNo (hE.push_eq i t' t (by rw [hpct', hks]; rfl)
        (by rw [hpct]; rfl)))
  · have hputs : Channels.NoPutWaits D.ring.slotOf w.hist.chan i := by
      intro k hk hks
      by_contra hput
      obtain ⟨t, x, q, hpct, hq, -⟩ := hS.waits_push hk hput
      exact hwait ⟨t, x, q, by rw [hpct, hks], hq⟩
    obtain ⟨hserved, hcell⟩ := Channels.noTakeWaits_of_served hchan hload hputs
    have htook := hserved _ hlt hslotu
    obtain ⟨φ, -, hl⟩ := hS.slotted i
    obtain ⟨y, k, -, -, hempty, -⟩ :=
      hl.of_pop_owner hpc ((pop_claim hS.popTickets hpc).2.1.mp htook)
    exact hcell hempty

/-! ## Runs that cross nobody -/

/-- A step that puts nobody on a slot where there is one of its kind. -/
theorem Exclusive.next (hE : Exclusive w) {m : Mem D} {pc : Pc D} {e : Event T D.ring.slots}
    (hpush : ∀ i, pc.pushSlot = some i →
      (w.pc t).pushSlot = some i ∨ ∀ t', (w.pc t').pushSlot ≠ some i)
    (hpop : ∀ i, pc.popSlot = some i →
      (w.pc t).popSlot = some i ∨ ∀ t', (w.pc t').popSlot ≠ some i) :
    Exclusive (w.next t m pc e) := by
  -- a thread on a slot after the step was there before, or is the one that claims
  have hother : ∀ {f : Pc D → Option (Fin D.ring.slots)},
      (∀ i t t', f (w.pc t) = some i → f (w.pc t') = some i → t = t') →
      (∀ i, f pc = some i → f (w.pc t) = some i ∨ ∀ t', f (w.pc t') ≠ some i) →
      ∀ i u u', f ((w.next t m pc e).pc u) = some i → f ((w.next t m pc e).pc u') = some i →
        u = u' := by
    intro f hsole hnew i u u' hu hu'
    rcases eq_or_ne u t with rfl | hne <;> rcases eq_or_ne u' u with rfl | hne'
    · rfl
    · rw [World.next_pc_self] at hu
      rw [World.next_pc_of_ne hne'] at hu'
      rcases hnew i hu with hold | hnone
      · exact hsole i u u' hold hu'
      · exact absurd hu' (hnone u')
    · rfl
    · rw [World.next_pc_of_ne hne] at hu
      rcases eq_or_ne u' t with rfl | hnet
      · rw [World.next_pc_self] at hu'
        rcases hnew i hu' with hold | hnone
        · exact hsole i u u' hu hold
        · exact absurd hu (hnone u)
      · rw [World.next_pc_of_ne hnet] at hu'
        exact hsole i u u' hu hu'
  exact ⟨hother hE.push_eq hpush, hother hE.pop_eq hpop⟩

theorem exclusive_init : Exclusive (World.init D ι) :=
  ⟨fun i t t' h => (by cases h), fun i t t' h => (by cases h)⟩

theorem Quiet.slots {m : Mem D} {pc pc' : Pc D} {e : Event T D.ring.slots}
    (hq : Quiet m pc pc' e) : pc'.pushSlot = none ∧ pc'.popSlot = none := by
  cases hq <;> exact ⟨rfl, rfl⟩

theorem entry_slots {op : Op T} {pc : Pc D} (h : D.entry op = some pc) :
    pc.pushSlot = none ∧ pc.popSlot = none := by
  cases begins_of_entry h <;> exact ⟨rfl, rfl⟩

/-- The condition on a claim of `try_push` and `try_pop`: it crosses nobody,
its call has seen less than a turn of claims, and the counters have not
turned on a ring whose size does not divide the turn. -/
structure Orderly (w : World D ι) (a : Act ι T) (w' : World D ι) : Prop where
  uncrossed : Uncrossed w w'
  fresh : Claims w w' → w.Fresh a.thread
  unturned : Claims w w' → w.Unturned

/-- **The step lemma.** A claim on either counter puts its thread on a slot
where nobody of its kind is; every other step leaves the threads where
they are. -/
theorem Exclusive.step (hE : Exclusive w) (hspsc : D.spsc_ = false)
    (hr : (machine D ι).Run ok w) (hclaim : ∀ t, (w.pc t).claiming = false)
    (hcopy : ∀ t, Copied w.hist t (w.pc t)) (hO : Orderly w a w') (hc : Change w a w') :
    Exclusive w' := by
  have hproper : Proper D ok := proper_of_not_spsc hspsc
  have hC := counted_of_run hproper hr
  have hno : D.spsc_ ≠ true := by simp [hspsc]
  cases hc with
  | call hidle hentry =>
    refine hE.next (fun i hi => ?_) (fun i hi => ?_)
    · rw [(entry_slots hentry).1] at hi; cases hi
    · rw [(entry_slots hentry).2] at hi; cases hi
  | quiet hq =>
    refine hE.next (fun i hi => ?_) (fun i hi => ?_)
    · rw [hq.slots.1] at hi; cases hi
    · rw [hq.slots.2] at hi; cases hi
  | @claimPush t weak x head hc =>
    have hhead : head = BitVec.ofNat 32 w.hist.pushes := by
      rw [(hC.thread t).head_eq hc, hC.head_eq]
    refine hE.next (fun i hi => Or.inr ?_) (fun i hi => by cases hi)
    rw [hhead] at hi
    obtain rfl : D.ring.slotOf w.hist.pushes = i := Option.some.inj hi
    have hready := hO.uncrossed.1 (by rw [World.next_hist, History.record_claimPush_pushes]; omega)
    generalize hpc : w.pc t = pc₀ at hc
    cases hc with
    | tryPush hor =>
      have hroom := hC.room_of_claim (hcopy t) (hO.fresh claims_push) hpc (hor.resolve_left hno)
      exact hE.no_push hproper hr
        (fun m hm hslot => (hO.unturned claims_push).lt_of_room hroom hm hslot) hready
    | push | store => exact absurd (hclaim t) (by rw [hpc]; simp [Pc.claiming])
  | @claimPop t weak tail hc =>
    have htail : tail = BitVec.ofNat 32 w.hist.pops := by
      rw [(hC.thread t).tail_eq hc, hC.tail_eq]
    refine hE.next (fun i hi => by cases hi) (fun i hi => Or.inr ?_)
    rw [htail] at hi
    obtain rfl : D.ring.slotOf w.hist.pops = i := Option.some.inj hi
    have hready := hO.uncrossed.2 (by rw [World.next_hist, History.record_claimPop_pops]; omega)
    generalize hpc : w.pc t = pc₀ at hc
    cases hc with
    | tryPop hor =>
      have hsome := hC.some_of_claim (hcopy t) (hO.fresh claims_pop) hpc (hor.resolve_left hno)
      exact hE.no_pop hproper hr hsome rfl hready
    | pop | store => exact absurd (hclaim t) (by rw [hpc]; simp [Pc.claiming])
  | pushNext hpc ho =>
    exact hE.next (fun i hi => Or.inl (by rw [hpc]; exact hi)) (fun i hi => by cases hi)
  | popNext hpc ho =>
    exact hE.next (fun i hi => by cases hi) (fun i hi => Or.inl (by rw [hpc]; exact hi))
  | pushDone hpc ho => exact hE.next (fun i hi => by cases hi) (fun i hi => by cases hi)
  | popDone hpc ho => exact hE.next (fun i hi => by cases hi) (fun i hi => by cases hi)

/-- **One producer and one consumer on a slot.** In every run of `try_push`
and `try_pop` whose claims cross nobody, every slot has at most one
`try_push` and at most one `try_pop` between its claim and its return. -/
theorem exclusive_of_uncrossed (hspsc : D.spsc_ = false)
    (hr : (machine D ι).Run (fun w a w' => TryOnly a ∧ Orderly w a w') w) : Exclusive w := by
  have hok : ∀ (w : World D ι) a w', TryOnly a ∧ Orderly w a w' → TryOnly a :=
    fun w a w' h => h.1
  refine hr.invariant exclusive_init ?_
  intro w a w' hr hE hs hstep
  have hcopy := (windowed_of_run hspsc hok (fun w a w' _ h _ => h.2.fresh) hr).2
  exact hE.step hspsc hr (claiming_of_run hok hr) hcopy hstep.2 (change_of_step hs)

/-- A push of the next lap waits on the slot of a pop that is stalled, but
has its element to take. -/
theorem exclusive_of_uncrossed_run :
    ∃ w : World (twoSlots false (.atomic 0)) (Fin 2), (w.pc 0).pushSlot = some ⟨0, by decide⟩ ∧
      (w.pc 1).popSlot = some ⟨0, by decide⟩ ∧ Exclusive w := by
  obtain ⟨w, hr, hw⟩ := (machine (twoSlots false (.atomic 0)) (Fin 2)).exists_run_of_execWhile
    (fun w a w' => TryOnly a ∧ Uncrossed w w' ∧ (Claims w w' → w.Fresh a.thread) ∧
      (Claims w w' → w.hist.pushes < 2 ^ 32))
    (Act.run 0 (.tryPush 5) 4 ++ Act.run 1 .tryPop 3 ++ Act.run 0 (.tryPush 6) 4 ++
      Act.run 0 (.tryPush 7) 5)
    (fun w => ((w.pc 0).pushSlot, (w.pc 1).popSlot))
    (b := (some ⟨0, by decide⟩, some ⟨0, by decide⟩)) (by decide)
  rw [Prod.mk.injEq] at hw
  refine ⟨w, hw.1, hw.2, exclusive_of_uncrossed rfl (hr.mono ?_)⟩
  rintro w a w' ⟨htry, hcross, hfresh, hturn⟩
  exact ⟨htry, hcross, hfresh, fun h => Or.inr (hturn h)⟩

/-- **A stalled producer gets company.** Thread 0 claims position `0` and
stalls, the consumer claims position `0` and waits for it, and the room
this makes is claimed by thread 2, a lap later, on the same slot. -/
theorem exclusive_fails :
    ¬∀ w : World (twoSlots false (.atomic 0)) (Fin 3),
      (machine _ (Fin 3)).Run (fun _ a _ => TryOnly a) w → Exclusive w := by
  intro hall
  obtain ⟨w, hr, hw⟩ := (machine (twoSlots false (.atomic 0)) (Fin 3)).exists_run_of_execWhile
    (fun _ a _ => TryOnly a)
    (Act.run 0 (.tryPush 5) 3 ++ Act.run 1 .tryPop 3 ++ Act.run 2 (.tryPush 6) 4 ++
      Act.run 2 (.tryPush 7) 3)
    (fun w => ((w.pc 0).pushSlot, (w.pc 2).pushSlot))
    (b := (some ⟨0, by decide⟩, some ⟨0, by decide⟩)) (by decide)
  rw [Prod.mk.injEq] at hw
  have heq := (hall w hr).push_eq _ _ _ hw.1 hw.2
  exact absurd heq (by decide)

end AtomicQueue
