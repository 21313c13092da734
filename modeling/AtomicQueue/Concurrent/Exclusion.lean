import AtomicQueue.Concurrent.Returns
/-!
# Guarded elements: one thread at a time

The state byte of a slot says who may access its element: `STORING` the
one thread past its `compare_exchange` in `do_push`, `LOADING` the one in
`do_pop`, and otherwise nobody. So the two steps of an assignment or of a
move out are never inside another access to the same element, an element
is moved out only when its assignment has ended, and overwritten only when
it was moved out.
-/

namespace AtomicQueue

variable {T ι : Type} [DecidableEq T] [DecidableEq ι]

/-- `AtomicQueue2` and `AtomicQueueB2` with `SPSC = false`. -/
abbrev stateQueue (ring : Ring) (maximizeThroughput_ : Bool) (E : ElementType T) : Derived T where
  ring := ring
  spsc_ := false
  maximizeThroughput_ := maximizeThroughput_
  elements := .states E

variable {ring : Ring} {maximizeThroughput_ : Bool} {E : ElementType T}
variable {w w' : World (stateQueue ring maximizeThroughput_ E) ι} {a : Act ι T}
variable {t t' : ι} {i : Fin ring.slots} {x : T}

namespace World

/-- `states_[i]` and `elements_[i]`. -/
def guarded (w : World (stateQueue ring maximizeThroughput_ E) ι) (i : Fin ring.slots) :
    StateElements.Cell T :=
  w.mem.cell i

/-- Thread `t` is in `do_push` between winning slot `i` and its store of
`STORED`. -/
def Storing (w : World (stateQueue ring maximizeThroughput_ E) ι) (t : ι)
    (i : Fin ring.slots) : Prop :=
  ∃ x p, w.pc t = .doPush x i p ∧ StateElements.pushOwns p = true

/-- Thread `t` is in `do_pop` between winning slot `i` and its store of
`EMPTY`. -/
def Loading (w : World (stateQueue ring maximizeThroughput_ E) ι) (t : ι)
    (i : Fin ring.slots) : Prop :=
  ∃ p, w.pc t = .doPop i p ∧ StateElements.popOwns p = true

/-- Thread `t` is about to begin or to end its assignment to `elements_[i]`. -/
def Assigning (w : World (stateQueue ring maximizeThroughput_ E) ι) (t : ι)
    (i : Fin ring.slots) : Prop :=
  ∃ x, w.pc t = .doPush x i StateElements.Push.assign ∨
    w.pc t = .doPush x i StateElements.Push.assigning

/-- Thread `t` is about to begin or to end its move out of `elements_[i]`. -/
def Moving (w : World (stateQueue ring maximizeThroughput_ E) ι) (t : ι)
    (i : Fin ring.slots) : Prop :=
  w.pc t = .doPop i StateElements.Pop.move ∨ w.pc t = .doPop i StateElements.Pop.moving

end World

omit [DecidableEq ι] in
/-- A thread that assigns the element stores, -/
theorem World.Assigning.storing (h : w.Assigning t i) : w.Storing t i := by
  obtain ⟨x, hpc | hpc⟩ := h
  · exact ⟨x, _, hpc, rfl⟩
  · exact ⟨x, _, hpc, rfl⟩

omit [DecidableEq ι] in
/-- and one that moves it loads. -/
theorem World.Moving.loading (h : w.Moving t i) : w.Loading t i := by
  rcases h with hpc | hpc
  · exact ⟨_, hpc, rfl⟩
  · exact ⟨_, hpc, rfl⟩

omit [DecidableEq ι] in
/-- Who stores holds the slot, -/
theorem World.Storing.owns (h : w.Storing t i) : (w.pc t).owns = some i := by
  obtain ⟨x, p, hpc, hp⟩ := h
  rw [hpc, Pc.owns_doPush]
  exact if_pos hp

omit [DecidableEq ι] in
/-- and so does who loads. -/
theorem World.Loading.owns (h : w.Loading t i) : (w.pc t).owns = some i := by
  obtain ⟨p, hpc, hp⟩ := h
  rw [hpc, Pc.owns_doPop]
  exact if_pos hp

/-! ## The state byte -/

/-- **What the state byte of a slot says** about the threads. -/
structure Guards (w : World (stateQueue ring maximizeThroughput_ E) ι) (i : Fin ring.slots) :
    Prop where
  owner_unique : ∀ t t', w.Storing t i ∨ w.Loading t i → w.Storing t' i ∨ w.Loading t' i → t = t'
  storing_iff : (w.guarded i).state = .STORING ↔ ∃ t, w.Storing t i
  loading_iff : (w.guarded i).state = .LOADING ↔ ∃ t, w.Loading t i
  free_iff : (w.guarded i).state = .EMPTY ∨ (w.guarded i).state = .STORED ↔
    ∀ t, ¬w.Storing t i ∧ ¬w.Loading t i

omit [DecidableEq ι] in
/-- A slot nobody has won is in one of the two free states. -/
theorem guards_of_free (hfree : ∀ t, (w.pc t).owns ≠ some i)
    (hstate : (w.guarded i).state = .EMPTY ∨ (w.guarded i).state = .STORED) : Guards w i := by
  have hno : ∀ t, ¬w.Storing t i ∧ ¬w.Loading t i := fun t =>
    ⟨fun h => hfree t h.owns, fun h => hfree t h.owns⟩
  refine ⟨?_, ?_, ?_, ⟨fun _ => hno, fun _ => hstate⟩⟩
  · intro t t' ht _
    rcases ht with ht | ht
    · exact absurd ht (hno t).1
    · exact absurd ht (hno t).2
  · constructor
    · intro h
      rw [h] at hstate
      simp at hstate
    · rintro ⟨t, ht⟩
      exact absurd ht (hno t).1
  · constructor
    · intro h
      rw [h] at hstate
      simp at hstate
    · rintro ⟨t, ht⟩
      exact absurd ht (hno t).2

omit [DecidableEq ι] in
/-- All who have won the slot are its one owner. -/
theorem owner_eq (hsole : ∀ t', (w.pc t').owns = some i → t' = t)
    (h : w.Storing t' i ∨ w.Loading t' i) : t' = t := by
  rcases h with h | h
  · exact hsole t' h.owns
  · exact hsole t' h.owns

omit [DecidableEq ι] in
theorem World.Storing.not_loading (h : w.Storing t i) : ¬w.Loading t i := by
  obtain ⟨x, p, hpc, -⟩ := h
  rintro ⟨p', hpc', -⟩
  rw [hpc] at hpc'
  cases hpc'

omit [DecidableEq ι] in
/-- **In every run the state byte is right.** The phase of the slot gives
both the byte and the owner. -/
theorem Kept.guards (hK : Kept w) (i : Fin ring.slots) : Guards w i := by
  obtain ⟨φ, hφ, hl⟩ := hK.slotted i
  cases hl with
  | empty hfree hcell => exact guards_of_free hfree (Or.inl hφ)
  | full hfree hcell hx => exact guards_of_free hfree (Or.inr hφ.1)
  | @push t p x hpc hp hsole hcell =>
    have hstate : (w.guarded i).state = .STORING := hφ.1
    have ht : w.Storing t i := ⟨x, p, hpc, hp⟩
    refine ⟨?_, ⟨fun _ => ⟨t, ht⟩, fun _ => hstate⟩, ?_, ?_⟩
    · intro u u' hu hu'
      rw [owner_eq hsole hu, owner_eq hsole hu']
    · refine ⟨fun h => absurd (hstate.symm.trans h) (by decide), ?_⟩
      rintro ⟨u, hu⟩
      have huv : u = t := owner_eq hsole (Or.inr hu)
      exact absurd (huv ▸ hu) ht.not_loading
    · refine ⟨fun h => ?_, fun h => absurd ht (h t).1⟩
      rw [hstate] at h
      simp at h
  | @pop t p x k hpc hp hsole hcell htook hx =>
    have hstate : (w.guarded i).state = .LOADING := hφ.1
    have ht : w.Loading t i := ⟨p, hpc, hp⟩
    refine ⟨?_, ?_, ⟨fun _ => ⟨t, ht⟩, fun _ => hstate⟩, ?_⟩
    · intro u u' hu hu'
      rw [owner_eq hsole hu, owner_eq hsole hu']
    · refine ⟨fun h => absurd (hstate.symm.trans h) (by decide), ?_⟩
      rintro ⟨u, hu⟩
      have huv : u = t := owner_eq hsole (Or.inl hu)
      exact absurd ht (huv ▸ hu).not_loading
    · refine ⟨fun h => ?_, fun h => absurd ht (h t).2⟩
      rw [hstate] at h
      simp at h

/-! ## The elements -/

namespace StateElements

variable {c : Cell T} {weak : Bool}

omit [DecidableEq T] in
/-- `do_push` leaves the element alone except past its
`compare_exchange`. -/
theorem pushStep_element {p : Push} (hp : pushOwns p = false) :
    (pushStep E maximizeThroughput_ weak x c p).1.element = c.element := by
  cases p with
  | load | pause => rfl
  | compareExchange =>
    rw [pushStep]
    split <;> rfl
  | assign | assigning | publish => cases hp

omit [DecidableEq T] in
theorem popStep_element {p : Pop T} (hp : popOwns p = false) :
    (popStep E maximizeThroughput_ weak c p).1.element = c.element := by
  cases p with
  | load | pause => rfl
  | compareExchange =>
    rw [popStep]
    split <;> rfl
  | move | moving | release element => cases hp

end StateElements

/-- **Only the owner of a slot changes its element.** -/
theorem Change.element_eq (h : Change w a w') (hstore : ¬w.Storing a.thread i)
    (hload : ¬w.Loading a.thread i) : (w'.guarded i).element = (w.guarded i).element := by
  -- the steps on slot `j`, which may be this one
  have hset : ∀ {j : Fin ring.slots} {c : StateElements.Cell T},
      (i = j → c.element = (w.guarded j).element) →
      (Function.update (β := fun _ => StateElements.Cell T) w.guarded j c i).element =
        (w.guarded i).element := by
    intro j c hc
    rcases eq_or_ne i j with rfl | hne
    · rw [Function.update_self]
      exact hc rfl
    · rw [Function.update_of_ne hne]
  cases h with
  | call hidle hentry => rfl
  | quiet hq => rfl
  | claimPush hc => rfl
  | claimPop hc => rfl
  | @pushNext t weak x j p p' hpc ho | @pushDone t weak x j p hpc ho =>
    refine hset fun hij => StateElements.pushStep_element ?_
    subst hij
    exact Bool.eq_false_iff.mpr fun hp => hstore ⟨x, p, hpc, hp⟩
  | @popNext t weak j p p' hpc ho | @popDone t weak j p x hpc ho =>
    refine hset fun hij => StateElements.popStep_element ?_
    subst hij
    exact Bool.eq_false_iff.mpr fun hp => hload ⟨p, hpc, hp⟩

omit [DecidableEq ι] in
/-- **What is moved out was assigned to the end**, by a push that has
returned. -/
theorem Sound.moved (hS : Sound w) (h : w.Moving t i) :
    ∃ s ∈ w.hist.stored, (w.hist.popNo t, s.no) ∈ w.hist.chan.takes ∧
      (w.guarded i).element = s.element := by
  obtain ⟨p, hpc, hp⟩ := h.loading
  obtain ⟨φ, hφ, hl⟩ := hS.slotted i
  obtain ⟨x, k, rfl, -, -, htook, hx⟩ := hl.of_pop_owner hpc hp
  obtain ⟨s, hs, rfl⟩ := List.mem_map.mp (hS.stored_of_taken hS.chan htook)
  refine ⟨s, hs, htook, ?_⟩
  have helem : (w.guarded i).element = x := by
    refine hφ.2.2.2 ?_
    rcases h with h | h <;> rw [hpc] at h <;> cases h
    · exact Or.inl rfl
    · exact Or.inr rfl
  rw [History.element, hS.returned.stored s hs, Option.map_some, Option.some.injEq] at hx
  exact helem.trans hx.symm

omit [DecidableEq ι] in
/-- **What is overwritten was moved out before**, by a pop that has
returned. -/
theorem Sound.overwritten (hS : Sound w) (h : w.Storing t i) {k : ℕ}
    (hput : k ∈ w.hist.chan.puts) (hslot : ring.slotOf k = i) (hne : k ≠ w.hist.pushNo t) :
    ∃ r ∈ w.hist.received, (r.no, k) ∈ w.hist.chan.takes := by
  obtain ⟨x, p, hpc, hp⟩ := h
  obtain ⟨φ, -, hl⟩ := hS.slotted i
  obtain ⟨-, hsole, hcell⟩ := hl.of_push_owner hpc hp
  -- the slot holds the number of the push that stores, so this one was taken
  have htook : k ∈ w.hist.chan.takes.map Prod.snd := by
    by_contra hnot
    have := (hS.chan.cell_iff i k).mpr ⟨hput, hslot, hnot⟩
    rw [hcell, Option.some.injEq] at this
    exact hne this.symm
  obtain ⟨⟨m, k⟩, hmk, rfl⟩ := List.mem_map.mp htook
  have hm : m ∈ w.hist.received.map Return.no := by
    by_contra hdone
    obtain ⟨u, j, q, hpc', rfl⟩ := pop_pending hS.popTickets (hS.chan.takes_lt m k hmk) hdone
    -- it would have won the same slot, and there is one owner
    have hq := (pop_claim hS.popTickets hpc').2.1.mp (List.mem_map_of_mem hmk)
    have hj : j = i := by
      rw [← hS.slotOf_popNo hpc', ← hslot]
      exact hS.chan.slot_eq _ k hmk
    have hu : u = t := hsole u (by rw [hpc', Pc.owns_doPop, if_pos hq, hj])
    rw [hu, hpc] at hpc'
    cases hpc'
  obtain ⟨r, hr, rfl⟩ := List.mem_map.mp hm
  exact ⟨r, hr, hmk⟩

/-- **Exclusive access and conservation.** In every state reached, for
every slot: its state byte names its one owner; no two threads access the
element at once, and whoever changes it owns the slot; an element being
moved out was assigned to the end by a push that has returned; an element
being assigned overwrites only what a pop has moved out and returned; and
every element a pop returned is that of a push which no other pop took. -/
theorem guarded_exclusive (hr : (machine (stateQueue ring maximizeThroughput_ E) ι).Reachable w)
    (i : Fin ring.slots) :
    Guards w i ∧
      (∀ t t', w.Assigning t i ∨ w.Moving t i → w.Assigning t' i ∨ w.Moving t' i → t = t') ∧
      (∀ a w', (machine (stateQueue ring maximizeThroughput_ E) ι).step w a = some w' →
        (w'.guarded i).element ≠ (w.guarded i).element →
          w.Storing a.thread i ∨ w.Loading a.thread i) ∧
      (∀ t, w.Moving t i → ∃ s ∈ w.hist.stored,
        (w.hist.popNo t, s.no) ∈ w.hist.chan.takes ∧ (w.guarded i).element = s.element) ∧
      (∀ t, w.Assigning t i → ∀ k ∈ w.hist.chan.puts, ring.slotOf k = i →
        k ≠ w.hist.pushNo t → ∃ r ∈ w.hist.received, (r.no, k) ∈ w.hist.chan.takes) ∧
      (∀ r ∈ w.hist.received, ∃ s ∈ w.hist.stored,
        (r.no, s.no) ∈ w.hist.chan.takes ∧ s.element = r.element) ∧
      ∀ r ∈ w.hist.received, ∀ r' ∈ w.hist.received, ∀ k,
        (r.no, k) ∈ w.hist.chan.takes → (r'.no, k) ∈ w.hist.chan.takes → r = r' := by
  have hS : Sound w := sound_of_run (proper_of_not_spsc rfl) hr
  have hG := hS.guards i
  refine ⟨hG, ?_, ?_, fun t h => hS.moved h,
    fun t h k hk hslot hne => hS.overwritten h.storing hk hslot hne, ?_, ?_⟩
  · intro t t' ht ht'
    exact hG.owner_unique t t' (ht.imp World.Assigning.storing World.Moving.loading)
      (ht'.imp World.Assigning.storing World.Moving.loading)
  · intro a w' hstep hne
    by_contra hno
    obtain ⟨hstore, hload⟩ := not_or.mp hno
    exact hne ((change_of_step hstep).element_eq hstore hload)
  · intro r hmem
    exact hS.source_of_received hmem
  · intro r hmem r' hmem' k hk hk'
    exact hS.received_unique hmem hmem' hk hk'

/-- A pop is inside its move out of a slot, and a push one lap later waits
for the slot. -/
theorem guarded_exclusive_run :
    ∃ w : World (stateQueue (twoSlots false (.states ⟨0, fun _ => 0, Nat.add⟩)).ring true
      ⟨0, fun _ => 0, Nat.add⟩) (Fin 2),
      (w.guarded ⟨0, by decide⟩).state = .LOADING ∧ (w.guarded ⟨0, by decide⟩).element = 5 ∧
        Guards w ⟨0, by decide⟩ := by
  obtain ⟨w, hr, hw⟩ := (machine (stateQueue (twoSlots false (.states ⟨0, fun _ => 0, Nat.add⟩)).ring
    true ⟨0, fun _ => 0, Nat.add⟩) (Fin 2)).exists_run_of_execWhile (fun _ _ _ => True)
    (Act.run 0 (.push 5) 5 ++ Act.run 1 .pop 3 ++ Act.run 0 (.push 6) 5 ++ Act.run 0 (.push 7) 3)
    (fun w => ((w.guarded ⟨0, by decide⟩).state, (w.guarded ⟨0, by decide⟩).element))
    (b := (.LOADING, 5)) (by decide)
  rw [Prod.mk.injEq] at hw
  exact ⟨w, hw.1, hw.2, (guarded_exclusive hr _).1⟩

end AtomicQueue
