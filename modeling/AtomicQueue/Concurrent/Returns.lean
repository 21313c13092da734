import AtomicQueue.Concurrent.Refinement
/-!
# What the calls returned

A push returns having put the element it was called with, and a pop
returns the element of the number it took, whose push has returned by
then. `Sound` collects what every run keeps.
-/

namespace AtomicQueue

variable {T ι : Type} [DecidableEq T] [DecidableEq ι] {D : Derived T}
variable {w w' : World D ι} {a : Act ι T} {t t' : ι} {i : Fin D.ring.slots} {x : T}
variable {ok : World D ι → Act ι T → World D ι → Prop}

/-! ## Elements -/

/-- **The calls returned are calls made**: each return is of a claim, a
push's with the element of the claim, a pop's with the element of the
number taken. -/
structure Returned (w : World D ι) : Prop where
  stored : ∀ r ∈ w.hist.stored, w.hist.chan.pushes[r.no]? = some ⟨r.thread, r.element⟩
  received : ∀ r ∈ w.hist.received,
    ∃ k, (r.no, k) ∈ w.hist.chan.takes ∧ w.hist.element k = some r.element

/-- What is returned stays returned. -/
theorem Returned.grows (h : Returned w) {m : Mem D} {pc : Pc D} {e : Event T D.ring.slots}
    (hstored : ∀ r ∈ (w.hist.record t e).stored, r ∈ w.hist.stored ∨
      w.hist.chan.pushes[r.no]? = some ⟨r.thread, r.element⟩)
    (hreceived : ∀ r ∈ (w.hist.record t e).received, r ∈ w.hist.received ∨
      ∃ k, (r.no, k) ∈ (w.hist.record t e).chan.takes ∧ w.hist.element k = some r.element) :
    Returned (w.next t m pc e) where
  stored r hr := by
    have hold : w.hist.chan.pushes[r.no]? = some ⟨r.thread, r.element⟩ := by
      rcases hstored r hr with hr | hr
      · exact h.stored r hr
      · exact hr
    obtain ⟨rest, hrest⟩ := History.record_pushes_extends (h := w.hist) (t := t) e
    rw [World.next_hist, ← hrest, List.getElem?_append_left (List.getElem?_eq_some_iff.mp hold).1,
      hold]
  received r hr := by
    rcases hreceived r hr with hr | ⟨k, hk, hx⟩
    · obtain ⟨k, hk, hx⟩ := h.received r hr
      exact ⟨k, History.record_takes_subset e hk, History.record_element e hx⟩
    · exact ⟨k, hk, History.record_element e hx⟩

/-- **Every step keeps the returns.** -/
theorem Returned.step (h : Returned w) (hK : Kept w) (hc : Change w a w') : Returned w' := by
  cases hc with
  | call hidle hentry => exact h.grows (fun r hr => Or.inl hr) (fun r hr => Or.inl hr)
  | quiet hq =>
    refine h.grows (fun r hr => Or.inl ?_) (fun r hr => Or.inl ?_) <;>
      rwa [History.record_quiet hq] at hr
  | claimPush hc => exact h.grows (fun r hr => Or.inl hr) (fun r hr => Or.inl hr)
  | claimPop hc => exact h.grows (fun r hr => Or.inl hr) (fun r hr => Or.inl hr)
  | pushNext hpc ho => exact h.grows (fun r hr => Or.inl hr) (fun r hr => Or.inl hr)
  | @pushDone t weak x i p hpc ho =>
    refine h.grows (fun r hr => ?_) (fun r hr => Or.inl hr)
    rcases List.mem_append.mp hr with hr | hr
    · exact Or.inl hr
    · rw [List.mem_singleton.mp hr]
      exact Or.inr (push_claim hK.pushTickets hpc).1
  | popNext hpc ho =>
    refine h.grows (fun r hr => Or.inl hr) (fun r hr => Or.inl ?_)
    simpa [History.record] using hr
  | @popDone t weak i p x hpc ho =>
    refine h.grows (fun r hr => Or.inl hr) (fun r hr => ?_)
    rcases List.mem_append.mp hr with hr | hr
    · exact Or.inl hr
    · rw [List.mem_singleton.mp hr]
      obtain ⟨φ, φ', hl, -, hm⟩ := hK.popMove weak hpc
      rw [ho] at hm
      cases hm with
      | pass hp =>
        obtain ⟨k, hcell, hx⟩ := hl.cell_of_full
        have hwins : D.popWins p (.done x) = true := by simp [Derived.popWins, hp]
        refine Or.inr ⟨k, ?_, hx⟩
        rw [hwins, History.record_popAt_chan hcell]
        simp [Channels.take, History.returns]
      | release hp =>
        obtain ⟨y, k, heq, -, -, htook, hx⟩ := hl.of_pop_owner hpc hp
        cases heq
        exact Or.inr ⟨k, History.record_takes_subset _ htook, hx⟩

theorem returned_of_run (hok : Proper D ok) (hr : (machine D ι).Run ok w) : Returned w := by
  refine hr.invariant (I := Returned)
    ⟨fun r hr => absurd hr List.not_mem_nil, fun r hr => absurd hr List.not_mem_nil⟩ ?_
  intro w a w' hr h hs _
  exact h.step (kept_of_run hok hr) (change_of_step hs)

omit [DecidableEq ι] in
/-- **Nothing is taken before its push has returned.** -/
theorem Kept.stored_of_taken (hK : Kept w) (hI : Channels.Inv D.ring.slotOf w.hist.chan)
    {m k : ℕ} (h : (m, k) ∈ w.hist.chan.takes) : k ∈ w.hist.stored.map Return.no := by
  by_contra hdone
  have hput := hI.source_mem m k h
  obtain ⟨t, x, j, p, hpc, rfl⟩ := push_pending hK.pushTickets (hI.puts_lt k hput) hdone
  obtain ⟨φ, -, hl⟩ := hK.slotted j
  -- the push has won the slot, which still holds its number
  have hcell := (hl.of_push_owner hpc ((push_claim hK.pushTickets hpc).2.1.mp hput)).2.2
  exact ((hI.cell_iff j _).mp hcell).2.2 (List.mem_map_of_mem h)

/-- **What every run keeps.** -/
structure Sound (w : World D ι) : Prop extends Kept w where
  popTickets : Tickets.Inv w.popTickets
  chan : Channels.Inv D.ring.slotOf w.hist.chan
  returned : Returned w

/-- **Every run is sound.** -/
theorem sound_of_run (hok : Proper D ok) (hr : (machine D ι).Run ok w) : Sound w where
  toKept := kept_of_run hok hr
  popTickets := popTickets_of_run hok hr
  chan := Channels.inv_of_run (channels_of_run hok hr)
  returned := returned_of_run hok hr

omit [DecidableEq ι] in
/-- **Every element a pop returned is that of a push that returned.** -/
theorem Sound.source_of_received (hS : Sound w) {r : Return ι T} (hr : r ∈ w.hist.received) :
    ∃ s ∈ w.hist.stored, (r.no, s.no) ∈ w.hist.chan.takes ∧ s.element = r.element := by
  obtain ⟨k, hk, hx⟩ := hS.returned.received r hr
  obtain ⟨s, hs, rfl⟩ := List.mem_map.mp (hS.stored_of_taken hS.chan hk)
  refine ⟨s, hs, hk, ?_⟩
  rw [History.element, hS.returned.stored s hs, Option.map_some, Option.some.injEq] at hx
  exact hx

omit [DecidableEq ι] in
/-- No two pops returned the element of one push. -/
theorem Sound.received_unique (hS : Sound w) {r r' : Return ι T} {k : ℕ}
    (hr : r ∈ w.hist.received) (hr' : r' ∈ w.hist.received) (hk : (r.no, k) ∈ w.hist.chan.takes)
    (hk' : (r'.no, k) ∈ w.hist.chan.takes) : r = r' :=
  List.inj_on_of_nodup_map hS.popTickets.done_nodup hr hr' (hS.chan.taker_unique hk hk')

omit [DecidableEq ι] in
/-- Without `spsc_` there is no condition on the callers. -/
theorem proper_of_not_spsc (hspsc : D.spsc_ = false) : Proper D ok := fun h => by
  rw [hspsc] at h
  cases h

end AtomicQueue
