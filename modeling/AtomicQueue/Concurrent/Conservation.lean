import AtomicQueue.Concurrent.Returns
import Mathlib.Data.Fintype.Basic
/-!
# Atomic elements: nothing lost, nothing duplicated

With read-modify-writes on atomic elements a push has its effect at the
`compare_exchange` that finds `NIL`, which is its last step, and a pop at
the `exchange` that does not. So the elements pushed are, at every moment,
those in the slots and those popped, each as often as it was pushed.
-/

namespace AtomicQueue

variable {T ι : Type} [DecidableEq T] [DecidableEq ι]

/-- `AtomicQueue` and `AtomicQueueB` with `SPSC = false`. -/
def atomicQueue (ring : Ring) (maximizeThroughput_ : Bool) (nil_ : T) : Derived T where
  ring := ring
  spsc_ := false
  maximizeThroughput_ := maximizeThroughput_
  elements := .atomic nil_

variable {ring : Ring} {maximizeThroughput_ : Bool} {nil_ : T}
variable {w w' : World (atomicQueue ring maximizeThroughput_ nil_) ι} {a : Act ι T}

/-- The values in `elements_`. -/
def World.elements_ (w : World (atomicQueue ring maximizeThroughput_ nil_) ι)
    (i : Fin ring.slots) : T :=
  w.mem.cell i

/-- The values other than `NIL` in `elements_`. -/
def World.contents (w : World (atomicQueue ring maximizeThroughput_ nil_) ι) : Multiset T :=
  (Finset.univ.val.map w.elements_).filter (· ≠ nil_)

/-! ## The steps of the code -/

namespace AtomicElements

variable {x c e : T} {weak : Bool}

/-- A step of `do_push` that does not return leaves the slot as it is. -/
theorem pushStep_next {p p' : Push}
    (h : (pushStep nil_ maximizeThroughput_ weak x c p).2 = .next p') :
    (pushStep nil_ maximizeThroughput_ weak x c p).1 = c := by
  cases p with
  | store => cases h
  | load | pause => rfl
  | compareExchange =>
    rw [pushStep] at h ⊢
    by_cases hc : c = nil_ ∧ weak = false
    · rw [if_pos hc] at h
      cases h
    · rw [if_neg hc]

/-- The step with which `do_push` returns found `NIL`. -/
theorem pushStep_done {p : Push} (hp : PushPoint false p)
    (h : (pushStep nil_ maximizeThroughput_ weak x c p).2 = .done) :
    c = nil_ ∧ (pushStep nil_ maximizeThroughput_ weak x c p).1 = x := by
  cases p with
  | load | pause => cases h
  | store => cases hp
  | compareExchange =>
    rw [pushStep] at h ⊢
    by_cases hc : c = nil_ ∧ weak = false
    · exact ⟨hc.1, by rw [if_pos hc]⟩
    · rw [if_neg hc] at h
      cases h

/-- A step of `do_pop` that does not return leaves the slot as it is: an
`exchange` that did not return exchanged `NIL` for `NIL`. -/
theorem popStep_next {p p' : Pop T} (h : (popStep nil_ maximizeThroughput_ c p).2 = .next p') :
    (popStep nil_ maximizeThroughput_ c p).1 = c := by
  cases p with
  | store element => cases h
  | load | pause => rfl
  | exchange =>
    rw [popStep] at h ⊢
    by_cases hc : c ≠ nil_
    · rw [if_pos hc] at h
      cases h
    · exact (not_ne_iff.mp hc).symm

/-- The step with which `do_pop` returns took what it returns. -/
theorem popStep_done {p : Pop T} (hp : PopPoint false p)
    (h : (popStep nil_ maximizeThroughput_ c p).2 = .done e) :
    c = e ∧ e ≠ nil_ ∧ (popStep nil_ maximizeThroughput_ c p).1 = nil_ := by
  cases p with
  | load | pause => cases h
  | store element => cases hp
  | exchange =>
    rw [popStep] at h ⊢
    by_cases hc : c ≠ nil_
    · rw [if_pos hc] at h
      cases h
      exact ⟨rfl, hc, rfl⟩
    · rw [if_neg hc] at h
      cases h

end AtomicElements

/-- **What a step does to the elements**, pushed, popped and in the slots:
nothing, or it puts an element over a `NIL`, or it takes one and leaves
`NIL`. -/
inductive Moves (w w' : World (atomicQueue ring maximizeThroughput_ nil_) ι) : Prop
  | stays (hcell : w'.elements_ = w.elements_) (hstored : w'.hist.stored = w.hist.stored)
      (hreceived : w'.hist.received = w.hist.received)
  | puts {i x r} (hnil : w.elements_ i = nil_) (hx : x ≠ nil_)
      (hcell : w'.elements_ = Function.update w.elements_ i x)
      (hstored : w'.hist.stored = w.hist.stored ++ [r]) (hr : r.element = x)
      (hreceived : w'.hist.received = w.hist.received)
  | takes {i x r} (hfull : w.elements_ i = x) (hx : x ≠ nil_)
      (hcell : w'.elements_ = Function.update w.elements_ i nil_)
      (hstored : w'.hist.stored = w.hist.stored)
      (hreceived : w'.hist.received = w.hist.received ++ [r]) (hr : r.element = x)

theorem Kept.moves (hK : Kept w) (h : Change w a w') : Moves w w' := by
  cases h with
  | call hidle hentry => exact .stays rfl rfl rfl
  | quiet hq =>
    exact .stays rfl (by rw [World.next_hist, History.record_quiet hq])
      (by rw [World.next_hist, History.record_quiet hq])
  | claimPush hc => exact .stays rfl rfl rfl
  | claimPop hc => exact .stays rfl rfl rfl
  | @pushNext t weak x i p p' hpc ho =>
    refine .stays ?_ rfl rfl
    exact (congrArg (Function.update w.mem.cell i) (AtomicElements.pushStep_next (T := T) ho)).trans
      (Function.update_eq_self i _)
  | @pushDone t weak x i p hpc ho =>
    have hloc := hK.counted.thread t
    rw [hpc] at hloc
    obtain ⟨hnil, hstep⟩ := AtomicElements.pushStep_done (T := T) hloc.2 ho
    have hx : x ≠ nil_ := of_decide_eq_true (hK.admits t x (by rw [hpc]; rfl))
    exact .puts hnil hx (congrArg (Function.update w.mem.cell i) hstep) rfl rfl rfl
  | @popNext t weak i p p' hpc ho =>
    refine .stays ?_ rfl (List.append_nil _)
    exact (congrArg (Function.update w.mem.cell i) (AtomicElements.popStep_next (T := T) ho)).trans
      (Function.update_eq_self i _)
  | @popDone t weak i p x hpc ho =>
    have hloc := hK.counted.thread t
    rw [hpc] at hloc
    obtain ⟨hfull, hx, hstep⟩ := AtomicElements.popStep_done (T := T) hloc.2 ho
    exact .takes hfull hx (congrArg (Function.update w.mem.cell i) hstep) rfl rfl rfl

/-! ## The multisets -/

/-- The contents, one slot apart. -/
theorem filter_map_univ {n : ℕ} (f : Fin n → T) (i : Fin n) :
    (Finset.univ.val.map f).filter (· ≠ nil_) =
      (if f i ≠ nil_ then {f i} else 0) +
        ((Finset.univ.val.erase i).map f).filter (· ≠ nil_) := by
  have hcons : Finset.univ.val = i ::ₘ Finset.univ.val.erase i :=
    (Multiset.cons_erase (Finset.mem_univ_val i)).symm
  conv_lhs => rw [hcons, Multiset.map_cons]
  split
  · rw [Multiset.filter_cons_of_pos _ ‹_›, Multiset.singleton_add]
  · rw [Multiset.filter_cons_of_neg _ ‹_›, zero_add]

omit [DecidableEq T] in
/-- The other slots do not see a change of one. -/
theorem map_erase_update {n : ℕ} (f : Fin n → T) (i : Fin n) (c : T) :
    (Finset.univ.val.erase i).map (Function.update f i c) = (Finset.univ.val.erase i).map f := by
  refine Multiset.map_congr rfl fun j hj => ?_
  have hne : j ≠ i := (Multiset.Nodup.mem_erase_iff Finset.univ.nodup).mp hj |>.1
  exact Function.update_of_ne hne ..

/-- **The elements pushed are those in the slots and those popped.** -/
def Conserved (w : World (atomicQueue ring maximizeThroughput_ nil_) ι) : Prop :=
  (w.hist.stored.map Return.element : Multiset T) =
    w.contents + (w.hist.received.map Return.element : Multiset T)

theorem conserved_init : Conserved (World.init (atomicQueue ring maximizeThroughput_ nil_) ι) := by
  have hempty : (World.init (atomicQueue ring maximizeThroughput_ nil_) ι).contents = 0 := by
    refine Multiset.filter_eq_nil.mpr fun x hx => ?_
    obtain ⟨i, -, rfl⟩ := Multiset.mem_map.mp hx
    exact not_not_intro rfl
  rw [Conserved, hempty]
  rfl

omit [DecidableEq ι] in
theorem Moves.conserved (h : Moves w w') (hw : Conserved w) : Conserved w' := by
  unfold Conserved World.contents at *
  cases h with
  | stays hcell hstored hreceived => rw [hcell, hstored, hreceived, hw]
  | @puts i x r hnil hx hcell hstored hr hreceived =>
    rw [filter_map_univ w.elements_ i, if_neg (not_not_intro hnil), zero_add] at hw
    rw [hcell, hstored, hreceived, filter_map_univ _ i, Function.update_self, if_pos hx,
      map_erase_update, List.map_append, List.map_singleton, hr, ← Multiset.coe_add, hw,
      Multiset.coe_singleton]
    ac_rfl
  | @takes i x r hfull hx hcell hstored hreceived hr =>
    rw [filter_map_univ w.elements_ i, hfull, if_pos hx] at hw
    rw [hcell, hstored, hreceived, filter_map_univ _ i, Function.update_self,
      if_neg (not_not_intro rfl), zero_add, map_erase_update, List.map_append, List.map_singleton,
      hr, ← Multiset.coe_add, hw, Multiset.coe_singleton]
    ac_rfl

omit [DecidableEq ι] in
theorem Moves.elements_eq (h : Moves w w') {i : Fin ring.slots} (hfull : w.elements_ i ≠ nil_)
    (hfull' : w'.elements_ i ≠ nil_) : w'.elements_ i = w.elements_ i := by
  cases h with
  | stays hcell hstored hreceived => rw [hcell]
  | @puts j x r hnil hx hcell hstored hr hreceived =>
    have hne : i ≠ j := by rintro rfl; exact hfull hnil
    rw [hcell, Function.update_of_ne hne]
  | @takes j x r hj hx hcell hstored hreceived hr =>
    have hne : i ≠ j := by
      rintro rfl
      rw [hcell, Function.update_self] at hfull'
      exact hfull' rfl
    rw [hcell, Function.update_of_ne hne]

/-- **No loss, no duplication, no overwrite.** In every state reached, by
any number of threads and any calls: the elements whose pushes have passed
their `compare_exchange` are, with multiplicity, those now in `elements_`
and those obtained by the `exchange` of a pop; no step writes a value
other than `NIL` over another; and every element a pop returned is that of
a push that returned, which no other pop returned. -/
theorem atomic_conservation
    (hr : (machine (atomicQueue ring maximizeThroughput_ nil_) ι).Reachable w) :
    Conserved w ∧
      (∀ a w', (machine (atomicQueue ring maximizeThroughput_ nil_) ι).step w a = some w' →
        ∀ i, w.elements_ i ≠ nil_ → w'.elements_ i ≠ nil_ → w'.elements_ i = w.elements_ i) ∧
      (∀ r ∈ w.hist.received, ∃ s ∈ w.hist.stored,
        (r.no, s.no) ∈ w.hist.chan.takes ∧ s.element = r.element) ∧
      ∀ r ∈ w.hist.received, ∀ r' ∈ w.hist.received, ∀ k,
        (r.no, k) ∈ w.hist.chan.takes → (r'.no, k) ∈ w.hist.chan.takes → r = r' := by
  have hs : ∀ {w}, (machine (atomicQueue ring maximizeThroughput_ nil_) ι).Reachable w →
      Sound w := sound_of_run (proper_of_not_spsc rfl)
  refine ⟨?_, fun a w' hstep i => ((hs hr).moves (change_of_step hstep)).elements_eq,
    fun r hmem => (hs hr).source_of_received hmem,
    fun r hmem r' hmem' k hk hk' => (hs hr).received_unique hmem hmem' hk hk'⟩
  exact hr.invariant conserved_init fun w a w' hr hw hstep _ =>
    ((hs hr).moves (change_of_step hstep)).conserved hw

/-- A push waits for its slot, is served when a pop has emptied it, and
another pop gets what it put there. -/
theorem atomic_conservation_run :
    ∃ w : World (atomicQueue (twoSlots false (.atomic 0)).ring true 0) (Fin 2),
      w.hist.stored.map Return.element = [5, 6, 5] ∧ w.hist.received.map Return.element = [5] ∧
        Conserved w := by
  obtain ⟨w, hr, hw⟩ := (machine (atomicQueue (twoSlots false (.atomic 0)).ring true 0)
    (Fin 2)).exists_run_of_execWhile (fun _ _ _ => True)
    (Act.run 0 (.push 5) 2 ++ Act.run 0 (.push 6) 2 ++ Act.run 0 (.push 5) 3 ++
      Act.run 1 .tryPop 4 ++ [.step 0 false, .step 0 true, .step 0 false, .step 0 false])
    (fun w => (w.hist.stored.map Return.element, w.hist.received.map Return.element))
    (b := ([5, 6, 5], [5])) (by decide)
  rw [Prod.mk.injEq] at hw
  exact ⟨w, hw.1, hw.2, (atomic_conservation hr).1⟩

end AtomicQueue
