import AtomicQueue.Concurrent.Returns
import AtomicQueue.Remap.Lap
/-!
# Who can move on a slot

An operation in flight on a slot can move when it has won the slot or
finds it in the state it waits for. A slot on which operations are in
flight and none can move is free, and in the state that none of them waits
for. So they are all of one kind, and the counters are past each other:
pops have claimed positions not yet pushed, or pushes positions a lap and
more ahead.
-/

namespace AtomicQueue

variable {T ι : Type} [DecidableEq T] [DecidableEq ι] {D : Derived T}
variable {w w' : World D ι} {t t' : ι} {i : Fin D.ring.slots}
variable {ok : World D ι → Act ι T → World D ι → Prop}

namespace World

/-- Thread `t` has claimed a position on slot `i` and not finished there. -/
def InFlight (w : World D ι) (t : ι) (i : Fin D.ring.slots) : Prop :=
  (w.pc t).pushSlot = some i ∨ (w.pc t).popSlot = some i

/-- It has won the slot, or the slot is in the state it waits for. -/
def Ready (w : World D ι) (t : ι) (i : Fin D.ring.slots) : Prop :=
  (w.pc t).owns = some i ∨
    ((w.pc t).pushSlot = some i ∧ D.layout.awaitsPush (w.mem.cell i) = true) ∨
    ((w.pc t).popSlot = some i ∧ D.layout.awaitsPop (w.mem.cell i) = true)

/-- Operations are in flight on slot `i`, and none of them can move. -/
def Stuck (w : World D ι) (i : Fin D.ring.slots) : Prop :=
  (∃ t, w.InFlight t i) ∧ ∀ t, w.InFlight t i → ¬w.Ready t i

instance : Decidable (w.InFlight t i) := inferInstanceAs (Decidable (_ ∨ _))

instance : Decidable (w.Ready t i) := inferInstanceAs (Decidable (_ ∨ _))

instance [Fintype ι] : Decidable (w.Stuck i) := inferInstanceAs (Decidable (_ ∧ _))

end World

omit [DecidableEq ι] in
/-- The owner of a slot is in flight on it. -/
theorem inFlight_of_owns (h : (w.pc t).owns = some i) : w.InFlight t i := by
  cases hpc : w.pc t with
  | doPush x j p =>
    rw [hpc, Pc.owns_doPush, Option.ite_none_right_eq_some] at h
    exact Or.inl (by rw [hpc]; exact h.2)
  | doPop j p =>
    rw [hpc, Pc.owns_doPop, Option.ite_none_right_eq_some] at h
    exact Or.inr (by rw [hpc]; exact h.2)
  | _ => rw [hpc] at h; cases h

omit [DecidableEq ι] in
/-- **A stuck slot is free.** -/
theorem Kept.free_of_stuck (hK : Kept w) (h : w.Stuck i) :
    ∃ v, D.spec.Holds (w.mem.cell i) (.free v) ∧ Linked w i (.free v) := by
  refine hK.free_of_unowned fun t ht => ?_
  exact h.2 t (inFlight_of_owns ht) (Or.inl ht)

omit [DecidableEq ι] in
/-- Where no push is in flight on a slot, none waits for it. -/
theorem Kept.noPutWaits (hK : Kept w) (h : ∀ t, (w.pc t).pushSlot ≠ some i) :
    Channels.NoPutWaits D.ring.slotOf w.hist.chan i := by
  intro k hk hslot
  by_contra hput
  obtain ⟨t, x, p, hpc, -, -⟩ := hK.waits_push hk hput
  exact h t (by rw [hpc, hslot]; rfl)

omit [DecidableEq ι] in
theorem Sound.noTakeWaits (hS : Sound w) (h : ∀ t, (w.pc t).popSlot ≠ some i) :
    Channels.NoTakeWaits D.ring.slotOf w.hist.chan i := by
  intro k hk hslot
  by_contra htook
  obtain ⟨t, p, hpc, -, -⟩ := hS.waits_pop hS.popTickets hk htook
  exact h t (by rw [hpc, hslot]; rfl)

/-- **Only pops are stuck on an empty slot**, and they are ahead. -/
theorem stuck_empty (hok : Proper D ok) (hr : (machine D ι).Run ok w) (h : w.Stuck i)
    (hcell : D.spec.Holds (w.mem.cell i) (.free none)) (hl : Linked w i (.free none)) :
    (∀ t, w.InFlight t i → (w.pc t).popSlot = some i) ∧ w.hist.pushes < w.hist.pops := by
  have hS := sound_of_run hok hr
  -- a push would find the slot as it waits for it
  have hnopush : ∀ t, (w.pc t).pushSlot ≠ some i := fun t ht =>
    h.2 t (Or.inl ht) (Or.inr (Or.inl ⟨ht, D.spec.awaitsPush_eq hcell⟩))
  have hpops : ∀ t, w.InFlight t i → (w.pc t).popSlot = some i := fun t ht =>
    ht.resolve_left (hnopush t)
  refine ⟨hpops, ?_⟩
  obtain ⟨t, ht⟩ := h.1
  obtain ⟨p, hpc⟩ := Pc.popSlot_eq.mp (hpops t ht)
  have hp : ¬D.layout.popOwns p = true := fun hp =>
    h.2 t ht (Or.inl (by rw [hpc, Pc.owns_doPop, if_pos hp]))
  have hclaim := pop_claim hS.popTickets hpc
  exact Channels.pushes_lt_pops_of_waits (channels_of_run hok hr) (hS.noPutWaits hnopush)
    hl.cell_of_empty (popNo_lt hS.popTickets hpc) (hS.slotOf_popNo hpc)
    (fun htook => hp (hclaim.2.1.mp htook))

/-- **Only pushes are stuck on a full slot**, and they are more than a lap
ahead. -/
theorem stuck_full (hpow : D.ring.PowerOfTwo) (hok : Proper D ok) (hr : (machine D ι).Run ok w)
    (h : w.Stuck i) {x : T} (hcell : D.spec.Holds (w.mem.cell i) (.free (some x)))
    (hl : Linked w i (.free (some x))) :
    (∀ t, w.InFlight t i → (w.pc t).pushSlot = some i) ∧
      w.hist.pops + D.ring.slots < w.hist.pushes := by
  have hS := sound_of_run hok hr
  have hnopop : ∀ t, (w.pc t).popSlot ≠ some i := fun t ht =>
    h.2 t (Or.inr ht) (Or.inr (Or.inr ⟨ht, D.spec.awaitsPop_eq hcell⟩))
  have hpushes : ∀ t, w.InFlight t i → (w.pc t).pushSlot = some i := fun t ht =>
    ht.resolve_right (hnopop t)
  refine ⟨hpushes, ?_⟩
  obtain ⟨t, ht⟩ := h.1
  obtain ⟨y, p, hpc⟩ := Pc.pushSlot_eq.mp (hpushes t ht)
  have hp : ¬D.layout.pushOwns p = true := fun hp =>
    h.2 t ht (Or.inl (by rw [hpc, Pc.owns_doPush, if_pos hp]))
  obtain ⟨k, hk, -⟩ := hl.cell_of_full
  have hclaim := push_claim hS.pushTickets hpc
  have hload : Channels.load D.ring.slotOf w.hist.pops i + 2 ≤
      Channels.load D.ring.slotOf w.hist.pushes i :=
    Channels.load_of_waits (channels_of_run hok hr) (hS.noTakeWaits hnopop) (by rw [hk]; simp)
      (pushNo_lt hS.pushTickets hpc) (hS.slotOf_pushNo hpc) (fun hput => hp (hclaim.2.1.mp hput))
  -- within a lap of the pops a slot has at most one position to be pushed
  by_contra hle
  have hone : Channels.load D.ring.slotOf w.hist.pushes i ≤
      Channels.load D.ring.slotOf w.hist.pops i + 1 :=
    Channels.load_le_succ fun k k' hk hkk' hk' => hpow.slotOf_ne hkk' (by omega)
  omega

/-- **No deadlock inside the ring.** In every state reached, by any calls:
where operations are in flight on a slot and none of them is ready, they
are all pops and pops have claimed more positions than pushes, or they are
all pushes and pushes have claimed more than `size_` positions more than
pops. So while the pushes are ahead by `0` to `size_`, every slot with an
operation in flight has one that is ready. -/
theorem slot_progress (hspsc : D.spsc_ = false) (hpow : D.ring.PowerOfTwo)
    (hr : (machine D ι).Reachable w) (i : Fin D.ring.slots) :
    (w.Stuck i →
      ((∀ t, w.InFlight t i → (w.pc t).popSlot = some i) ∧ w.hist.pushes < w.hist.pops) ∨
        ((∀ t, w.InFlight t i → (w.pc t).pushSlot = some i) ∧
          w.hist.pops + D.ring.slots < w.hist.pushes)) ∧
      (w.hist.pops ≤ w.hist.pushes → w.hist.pushes ≤ w.hist.pops + D.ring.slots →
        (∃ t, w.InFlight t i) → ∃ t, w.InFlight t i ∧ w.Ready t i) := by
  have hok : Proper D fun (_ : World D ι) _ _ => True := proper_of_not_spsc hspsc
  have hstuck : w.Stuck i →
      ((∀ t, w.InFlight t i → (w.pc t).popSlot = some i) ∧ w.hist.pushes < w.hist.pops) ∨
        ((∀ t, w.InFlight t i → (w.pc t).pushSlot = some i) ∧
          w.hist.pops + D.ring.slots < w.hist.pushes) := by
    intro h
    obtain ⟨v, hcell, hl⟩ := (kept_of_run hok hr).free_of_stuck h
    cases v with
    | none => exact Or.inl (stuck_empty hok hr h hcell hl)
    | some x => exact Or.inr (stuck_full hpow hok hr h hcell hl)
  refine ⟨hstuck, fun hlo hhi hsome => ?_⟩
  by_contra hno
  have h : w.Stuck i := ⟨hsome, fun t ht hready => hno ⟨t, ht, hready⟩⟩
  rcases hstuck h with ⟨-, hlt⟩ | ⟨-, hlt⟩ <;> omega

/-- Two pops are stacked on an empty slot and wait for a push. -/
theorem slot_progress_run :
    ∃ w : World (twoSlots false (.atomic 0)) (Fin 3), w.Stuck ⟨0, by decide⟩ ∧
      w.hist.pushes = 0 ∧ w.hist.pops = 3 ∧
        ∀ t, w.InFlight t ⟨0, by decide⟩ → (w.pc t).popSlot = some ⟨0, by decide⟩ := by
  obtain ⟨w, hr, hw⟩ := (machine (twoSlots false (.atomic 0)) (Fin 3)).exists_run_of_execWhile
    (fun _ _ _ => True) (Act.run 0 .pop 1 ++ Act.run 1 .pop 2 ++ Act.run 2 .pop 3)
    (fun w => (decide (w.Stuck ⟨0, by decide⟩), w.hist.pushes, w.hist.pops)) (b := (true, 0, 3))
    (by decide)
  simp only [Prod.mk.injEq, decide_eq_true_eq] at hw
  obtain ⟨hstuck, hpushes, hpops⟩ := hw
  refine ⟨w, hstuck, hpushes, hpops, ?_⟩
  rcases (slot_progress rfl ⟨1, rfl⟩ hr _).1 hstuck with ⟨hall, -⟩ | ⟨-, hlt⟩
  · exact hall
  · omega

end AtomicQueue
