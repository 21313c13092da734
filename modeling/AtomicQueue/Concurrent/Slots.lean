import AtomicQueue.Concurrent.Threads
/-!
# Who holds a slot, and what is in it

Every slot is at every time in one phase. It is free, empty or with the
element of the push whose number is in its channel, or exactly one thread
has won it. A step of that thread, or of one that waits for the slot, does
a move of the slot; every other step leaves it alone (`Linked.frame`).
-/

namespace AtomicQueue

variable {T ι : Type} [DecidableEq T] [DecidableEq ι] {D : Derived T}
variable {w w' : World D ι} {a : Act ι T} {t t' : ι} {i j : Fin D.ring.slots}
variable {φ φ' : Phase D.layout} {x : T}

/-- The slot a thread has won and not yet given back. -/
def Pc.owns : Pc D → Option (Fin D.ring.slots)
  | .doPush _ i p => if D.layout.pushOwns p then some i else none
  | .doPop i p => if D.layout.popOwns p then some i else none
  | _ => none

/-- The slot on which a push is in flight: claimed, and not returned. -/
def Pc.pushSlot : Pc D → Option (Fin D.ring.slots)
  | .doPush _ i _ => some i
  | _ => none

def Pc.popSlot : Pc D → Option (Fin D.ring.slots)
  | .doPop i _ => some i
  | _ => none

/-- The slot a push in flight has not won yet. -/
def Pc.pushWaits : Pc D → Option (Fin D.ring.slots)
  | .doPush _ i p => if D.layout.pushOwns p then none else some i
  | _ => none

def Pc.popWaits : Pc D → Option (Fin D.ring.slots)
  | .doPop i p => if D.layout.popOwns p then none else some i
  | _ => none

/-- **The phase of a slot, in terms of the threads and the numbers.** -/
inductive Linked (w : World D ι) (i : Fin D.ring.slots) : Phase D.layout → Prop
  | empty (hfree : ∀ t, (w.pc t).owns ≠ some i) (hcell : w.hist.chan.cell i = none) :
      Linked w i (.free none)
  | full {k x} (hfree : ∀ t, (w.pc t).owns ≠ some i) (hcell : w.hist.chan.cell i = some k)
      (hx : w.hist.element k = some x) : Linked w i (.free (some x))
  | push {t p x} (hpc : w.pc t = .doPush x i p) (hp : D.layout.pushOwns p = true)
      (hsole : ∀ t', (w.pc t').owns = some i → t' = t)
      (hcell : w.hist.chan.cell i = some (w.hist.pushNo t)) : Linked w i (.push p x)
  | pop {t p x k} (hpc : w.pc t = .doPop i p) (hp : D.layout.popOwns p = true)
      (hsole : ∀ t', (w.pc t').owns = some i → t' = t) (hcell : w.hist.chan.cell i = none)
      (htook : (w.hist.popNo t, k) ∈ w.hist.chan.takes) (hx : w.hist.element k = some x) :
      Linked w i (.pop p x)

/-- **Every slot is in a phase**, and its memory as the phase says. -/
def Slotted (w : World D ι) : Prop :=
  ∀ i, ∃ φ, D.spec.Holds (w.mem.cell i) φ ∧ Linked w i φ

theorem Pc.pushSlot_eq {pc : Pc D} : pc.pushSlot = some i ↔ ∃ x p, pc = .doPush x i p := by
  cases pc <;> simp [Pc.pushSlot]

theorem Pc.popSlot_eq {pc : Pc D} : pc.popSlot = some i ↔ ∃ p, pc = .doPop i p := by
  cases pc <;> simp [Pc.popSlot]

/-! ## Where a thread has won nothing -/

/-- A thread that takes a quiet step holds no slot, -/
theorem Quiet.owns {m : Mem D} {pc pc' : Pc D} {e : Event T D.ring.slots} (h : Quiet m pc pc' e) :
    pc.owns = none ∧ pc'.owns = none := by
  cases h <;> exact ⟨rfl, rfl⟩

/-- nor does one that claims, -/
theorem ClaimsPush.owns {m : Mem D} {pc : Pc D} {head : Word} (h : ClaimsPush m pc x head) :
    pc.owns = none := by
  cases h <;> rfl

theorem ClaimsPop.owns {m : Mem D} {pc : Pc D} {tail : Word} (h : ClaimsPop m pc tail) :
    pc.owns = none := by
  cases h <;> rfl

/-- or begins a call. -/
theorem entry_owns {op : Op T} {pc : Pc D} (h : D.entry op = some pc) : pc.owns = none := by
  cases begins_of_entry h <;> rfl

theorem Pc.owns_doPush {p : D.layout.Push} :
    (Pc.doPush x i p : Pc D).owns = if D.layout.pushOwns p then some i else none := rfl

theorem Pc.owns_doPop {p : D.layout.Pop} :
    (Pc.doPop i p : Pc D).owns = if D.layout.popOwns p then some i else none := rfl

/-- A thread in `do_push` on a slot has won no other. -/
theorem Pc.owns_doPush_ne {p : D.layout.Push} (hne : j ≠ i) :
    (Pc.doPush x i p : Pc D).owns ≠ some j := by
  rw [Pc.owns_doPush]
  split
  · intro h; exact hne (Option.some.inj h).symm
  · simp

theorem Pc.owns_doPop_ne {p : D.layout.Pop} (hne : j ≠ i) :
    (Pc.doPop i p : Pc D).owns ≠ some j := by
  rw [Pc.owns_doPop]
  split
  · intro h; exact hne (Option.some.inj h).symm
  · simp

/-! ## The phases under a step -/

section

variable {m : Mem D} {pc : Pc D} {e : Event T D.ring.slots}

/-- The owners of a slot other than the thread that steps. -/
theorem owns_next_of_ne (hne : t' ≠ t) : ((w.next t m pc e).pc t').owns = (w.pc t').owns := by
  rw [World.next_pc_of_ne hne]

/-- Nobody owns the slot after the step if nobody else did before. -/
theorem free_next (hnew : pc.owns ≠ some i) (hold : ∀ t', t' ≠ t → (w.pc t').owns ≠ some i) :
    ∀ t', ((w.next t m pc e).pc t').owns ≠ some i := by
  intro t'
  rcases eq_or_ne t' t with rfl | hne
  · rwa [World.next_pc_self]
  · rw [owns_next_of_ne hne]
    exact hold t' hne

/-- The stepping thread alone owns the slot if nobody else did before. -/
theorem sole_next (hold : ∀ t', t' ≠ t → (w.pc t').owns ≠ some i) :
    ∀ t', ((w.next t m pc e).pc t').owns = some i → t' = t := by
  intro t' ht'
  by_contra hne
  rw [owns_next_of_ne hne] at ht'
  exact hold t' hne ht'

/-- **A step of a thread that has not won the slot leaves it alone**, if
it does not win it. -/
theorem Linked.frame (h : Linked w i φ) (hold : (w.pc t).owns ≠ some i) (hnew : pc.owns ≠ some i)
    (hchan : (w.hist.record t e).chan.cell i = w.hist.chan.cell i) :
    Linked (w.next t m pc e) i φ := by
  have howner : ∀ {t'}, (w.pc t').owns = some i → t' ≠ t := by
    rintro t' ht' rfl
    exact hold ht'
  have hsole' : ∀ {u}, (∀ t', (w.pc t').owns = some i → t' = u) →
      ∀ t', ((w.next t m pc e).pc t').owns = some i → t' = u := by
    intro u hsole t' ht'
    rcases eq_or_ne t' t with rfl | hne
    · rw [World.next_pc_self] at ht'
      exact absurd ht' hnew
    · rw [owns_next_of_ne hne] at ht'
      exact hsole t' ht'
  cases h with
  | empty hfree hcell => exact .empty (free_next hnew fun t' _ => hfree t') (hchan.trans hcell)
  | full hfree hcell hx =>
    exact .full (free_next hnew fun t' _ => hfree t') (hchan.trans hcell)
      (History.record_element e hx)
  | @push u p x hpc hp hsole hcell =>
    have hu : u ≠ t := howner (by rw [hpc, Pc.owns_doPush, if_pos hp])
    refine .push (t := u) (by rw [World.next_pc_of_ne hu, hpc]) hp (hsole' hsole) ?_
    rw [World.next_hist, hchan, hcell, History.record_pushNo_of_ne e hu]
  | @pop u p x k hpc hp hsole hcell htook hx =>
    have hu : u ≠ t := howner (by rw [hpc, Pc.owns_doPop, if_pos hp])
    refine .pop (t := u) (k := k) (by rw [World.next_pc_of_ne hu, hpc]) hp (hsole' hsole)
      (hchan.trans hcell) ?_ (History.record_element e hx)
    rw [World.next_hist, History.record_popNo_of_ne e hu]
    exact History.record_takes_subset e htook

end

omit [DecidableEq ι] in
/-- **A slot won by a push** holds its number, and nobody else has won it. -/
theorem Linked.of_push_owner (h : Linked w i φ) {p : D.layout.Push}
    (hpc : w.pc t = .doPush x i p) (hp : D.layout.pushOwns p = true) :
    φ = .push p x ∧ (∀ t', (w.pc t').owns = some i → t' = t) ∧
      w.hist.chan.cell i = some (w.hist.pushNo t) := by
  have howns : (w.pc t).owns = some i := by rw [hpc, Pc.owns_doPush, if_pos hp]
  cases h with
  | empty hfree _ => exact absurd howns (hfree t)
  | full hfree _ _ => exact absurd howns (hfree t)
  | push hpc' _ hsole hcell =>
    have ht := hsole t howns
    subst ht
    rw [hpc] at hpc'
    cases hpc'
    exact ⟨rfl, hsole, hcell⟩
  | pop hpc' _ hsole _ _ _ =>
    rw [← hsole t howns, hpc] at hpc'
    cases hpc'

omit [DecidableEq ι] in
/-- **A slot won by a pop** is empty for the numbers, and the pop has taken
the element it is to return. -/
theorem Linked.of_pop_owner (h : Linked w i φ) {p : D.layout.Pop} (hpc : w.pc t = .doPop i p)
    (hp : D.layout.popOwns p = true) :
    ∃ x k, φ = .pop p x ∧ (∀ t', (w.pc t').owns = some i → t' = t) ∧
      w.hist.chan.cell i = none ∧ (w.hist.popNo t, k) ∈ w.hist.chan.takes ∧
      w.hist.element k = some x := by
  have howns : (w.pc t).owns = some i := by rw [hpc, Pc.owns_doPop, if_pos hp]
  cases h with
  | empty hfree _ => exact absurd howns (hfree t)
  | full hfree _ _ => exact absurd howns (hfree t)
  | push hpc' _ hsole _ =>
    rw [← hsole t howns, hpc] at hpc'
    cases hpc'
  | @pop _ _ x k hpc' _ hsole hcell htook hx =>
    have ht := hsole t howns
    subst ht
    rw [hpc] at hpc'
    cases hpc'
    exact ⟨x, k, rfl, hsole, hcell, htook, hx⟩

omit [DecidableEq ι] in
/-- **A thread in `do_push` finds a phase it can be in.** -/
theorem Linked.atPush (h : Linked w i φ) (hS : Sole w) {p : D.layout.Push}
    (hpc : w.pc t = .doPush x i p) : φ.AtPush D.spsc_ p x := by
  unfold Phase.AtPush
  split
  · exact (h.of_push_owner hpc ‹_›).1
  · rename_i hp
    rintro hspsc p' x' rfl
    cases h with
    | @push u _ _ hpc' hp' _ _ =>
      -- the other `do_push` would be of the same thread
      have hu : u = t := hS.push_eq hspsc u t (by rw [hpc']; simp [Pc.offers])
        (by rw [hpc]; simp [Pc.offers])
      rw [hu, hpc] at hpc'
      cases hpc'
      exact hp hp'

omit [DecidableEq ι] in
theorem Linked.atPop (h : Linked w i φ) (hS : Sole w) {p : D.layout.Pop}
    (hpc : w.pc t = .doPop i p) : φ.AtPop D.spsc_ p := by
  unfold Phase.AtPop
  split
  · obtain ⟨x, k, hφ, -⟩ := h.of_pop_owner hpc ‹_›
    exact ⟨x, hφ⟩
  · rename_i hp
    rintro hspsc p' x' rfl
    cases h with
    | @pop u _ _ _ hpc' hp' _ _ _ _ =>
      have hu : u = t := hS.pop_eq hspsc u t (by rw [hpc']; rfl) (by rw [hpc]; rfl)
      rw [hu, hpc] at hpc'
      cases hpc'
      exact hp hp'

omit [DecidableEq ι] in
/-- A thread in `do_push` pushes the element it claimed for. -/
theorem element_of_doPush (hB : Tickets.Inv w.pushTickets) {p : D.layout.Push}
    (hpc : w.pc t = .doPush x i p) : w.hist.element (w.hist.pushNo t) = some x := by
  rw [History.element, (push_claim hB hpc).1, Option.map_some]

section

variable {m : Mem D}

/-- The phase moves as the step of `do_push` does. -/
theorem Linked.pushNext (h : Linked w i φ) {p p' : D.layout.Push} (hpc : w.pc t = .doPush x i p)
    (hm : PushMove D.layout x p φ (.next p') φ') :
    Linked (w.next t m (.doPush x i p') (.pushAt x i (D.pushWins p (.next p')) false)) i φ' := by
  cases hm with
  | wait hp hp' =>
    refine h.frame ?_ (by simp [Pc.owns, hp']) (by simp [History.record, Derived.pushWins, hp'])
    rw [hpc]
    simp [Pc.owns, hp]
  | win hp hp' =>
    cases h with
    | empty hfree hcell =>
      refine .push World.next_pc_self hp' (sole_next fun t' _ => hfree t') ?_
      simp [History.record, Derived.pushWins, hp, hp', History.put, Channels.put]
  | hold hp hp' =>
    obtain ⟨-, hsole, hcell⟩ := h.of_push_owner hpc hp
    refine .push World.next_pc_self hp' (sole_next fun t' hne ht' => hne (hsole t' ht')) ?_
    simpa [History.record, Derived.pushWins, hp] using hcell

/-- The last step of a push leaves its number in the slot. -/
theorem Linked.pushDone (h : Linked w i φ) (hB : Tickets.Inv w.pushTickets) {p : D.layout.Push}
    (hpc : w.pc t = .doPush x i p) (hm : PushMove D.layout x p φ .done φ') :
    Linked (w.next t m .idle (.pushAt x i (D.pushWins p .done) true)) i φ' := by
  have hx := History.record_element (t := t) (.pushAt x i (D.pushWins p .done) true)
    (element_of_doPush hB hpc)
  cases hm with
  | pass hp =>
    cases h with
    | empty hfree hcell =>
      refine .full (free_next (by simp [Pc.owns]) fun t' _ => hfree t') ?_ hx
      simp [History.record, Derived.pushWins, hp, History.put, Channels.put]
  | release hp =>
    obtain ⟨-, hsole, hcell⟩ := h.of_push_owner hpc hp
    refine .full (free_next (by simp [Pc.owns]) fun t' hne ht' => hne (hsole t' ht')) ?_ hx
    simpa [History.record, Derived.pushWins, hp] using hcell

/-- The phase moves as the step of `do_pop` does. -/
theorem Linked.popNext (h : Linked w i φ) {p p' : D.layout.Pop} (hpc : w.pc t = .doPop i p)
    (hm : PopMove D.layout p φ (.next p') φ') :
    Linked (w.next t m (.doPop i p') (.popAt i (D.popWins p (.next p')) none)) i φ' := by
  cases hm with
  | wait hp hp' =>
    refine h.frame ?_ (by simp [Pc.owns, hp']) (by simp [History.record, Derived.popWins, hp'])
    rw [hpc]
    simp [Pc.owns, hp]
  | win hp hp' =>
    cases h with
    | @full k _ hfree hcell hx =>
      have hwins : D.popWins p (.next p') = true := by simp [Derived.popWins, hp, hp']
      have hchan : (w.hist.record t (.popAt i true none)).chan =
          w.hist.chan.take i (w.hist.popNo t) k := History.record_popAt_chan hcell
      rw [hwins]
      refine .pop (k := k) World.next_pc_self hp' (sole_next fun t' _ => hfree t') ?_ ?_
        (History.record_element _ hx)
      · rw [World.next_hist, hchan]
        simp [Channels.take]
      · rw [World.next_hist, hchan]
        simp [Channels.take, History.record]
  | hold hp hp' =>
    obtain ⟨y, k, heq, hsole, hcell, htook, hx⟩ := h.of_pop_owner hpc hp
    cases heq
    have hwins : D.popWins p (.next p') = false := by simp [Derived.popWins, hp]
    rw [hwins]
    exact .pop (k := k) World.next_pc_self hp' (sole_next fun t' hne ht' => hne (hsole t' ht'))
      hcell htook (History.record_element _ hx)

/-- The last step of a pop leaves none. -/
theorem Linked.popDone (h : Linked w i φ) {p : D.layout.Pop} (hpc : w.pc t = .doPop i p)
    (hm : PopMove D.layout p φ (.done x) φ') :
    Linked (w.next t m .idle (.popAt i (D.popWins p (.done x)) (some x))) i φ' := by
  cases hm with
  | pass hp =>
    cases h with
    | full hfree hcell hx =>
      have hwins : D.popWins p (.done x) = true := by simp [Derived.popWins, hp]
      rw [hwins]
      refine .empty (free_next (by simp [Pc.owns]) fun t' _ => hfree t') ?_
      rw [World.next_hist, History.record_popAt_chan hcell]
      simp [Channels.take]
  | release hp =>
    obtain ⟨y, k, -, hsole, hcell, -⟩ := h.of_pop_owner hpc hp
    have hwins : D.popWins p (.done x) = false := by simp [Derived.popWins, hp]
    rw [hwins]
    exact .empty (free_next (by simp [Pc.owns]) fun t' hne ht' => hne (hsole t' ht')) hcell

end

/-! ## Every step -/

/-- A thread outside the slots leaves all of them in their phases. -/
theorem Slotted.outside (hL : Slotted w) {m : Mem D} {pc : Pc D} {e : Event T D.ring.slots}
    (hold : (w.pc t).owns = none) (hnew : pc.owns = none) (hcell : m.cell = w.mem.cell)
    (hchan : (w.hist.record t e).chan.cell = w.hist.chan.cell) : Slotted (w.next t m pc e) := by
  intro i
  obtain ⟨φ, hφ, hl⟩ := hL i
  refine ⟨φ, ?_, hl.frame (by simp [hold]) (by simp [hnew]) (by rw [hchan])⟩
  rwa [World.next_mem, hcell]

/-- A thread on one slot leaves all others in their phases. -/
theorem Slotted.at (hL : Slotted w) {c : D.layout.Cell} {pc : Pc D} {e : Event T D.ring.slots}
    (hold : ∀ j, j ≠ i → (w.pc t).owns ≠ some j) (hnew : ∀ j, j ≠ i → pc.owns ≠ some j)
    (hchan : ∀ j, j ≠ i → (w.hist.record t e).chan.cell j = w.hist.chan.cell j)
    (hc : D.spec.Holds c φ') (hl : Linked (w.next t (w.mem.set i c) pc e) i φ') :
    Slotted (w.next t (w.mem.set i c) pc e) := by
  intro j
  rcases eq_or_ne j i with rfl | hne
  · refine ⟨φ', ?_, hl⟩
    rwa [World.next_mem, Mem.set_cell_self]
  · obtain ⟨φ, hφ, hlj⟩ := hL j
    refine ⟨φ, ?_, hlj.frame (hold j hne) (hnew j hne) (hchan j hne)⟩
    rwa [World.next_mem, Mem.set_cell_of_ne _ hne]

/-- **What every run keeps**, apart from the order of events. -/
structure Kept (w : World D ι) : Prop where
  sole : Sole w
  counted : Counted w
  pushTickets : Tickets.Inv w.pushTickets
  admits : ∀ t x, (w.pc t).offers = some x → D.layout.admits x = true
  slotted : Slotted w

omit [DecidableEq ι] in
/-- **A slot that nobody has won is free.** -/
theorem Kept.free_of_unowned (hK : Kept w) (h : ∀ t, (w.pc t).owns ≠ some i) :
    ∃ v, D.spec.Holds (w.mem.cell i) (.free v) ∧ Linked w i (.free v) := by
  obtain ⟨φ, hφ, hl⟩ := hK.slotted i
  cases hl with
  | empty hfree hcell => exact ⟨none, hφ, .empty hfree hcell⟩
  | full hfree hcell hx => exact ⟨_, hφ, .full hfree hcell hx⟩
  | @push t p x hpc hp hsole hcell =>
    exact absurd (by rw [hpc, Pc.owns_doPush, if_pos hp]) (h t)
  | @pop t p x k hpc hp hsole hcell htook hx =>
    exact absurd (by rw [hpc, Pc.owns_doPop, if_pos hp]) (h t)

omit [DecidableEq ι] in
/-- A free slot holds a number if it holds an element. -/
theorem Linked.isSome_cell {v : Option T} (h : Linked w i (.free v)) :
    (w.hist.chan.cell i).isSome = v.isSome := by
  cases h with
  | empty hfree hcell => rw [hcell]; rfl
  | full hfree hcell hx => rw [hcell]; rfl

omit [DecidableEq ι] in
/-- **A step of `do_push` is a move** of the slot it is on. -/
theorem Kept.pushMove (h : Kept w) (weak : Bool) {p : D.layout.Push}
    (hpc : w.pc t = .doPush x i p) :
    ∃ φ φ', Linked w i φ ∧ D.spec.Holds (D.layout.pushStep weak x (w.mem.cell i) p).1 φ' ∧
      PushMove D.layout x p φ (D.layout.pushStep weak x (w.mem.cell i) p).2 φ' := by
  obtain ⟨φ, hφ, hl⟩ := h.slotted i
  have hloc := h.counted.thread t
  rw [hpc] at hloc
  obtain ⟨φ', hφ', hm⟩ := D.spec.push_move weak (h.admits t x (by rw [hpc]; rfl)) hloc.2 hφ
    (hl.atPush h.sole hpc)
  exact ⟨φ, φ', hl, hφ', hm⟩

omit [DecidableEq ι] in
/-- **A step of `do_pop` is a move** of the slot it is on. -/
theorem Kept.popMove (h : Kept w) (weak : Bool) {p : D.layout.Pop} (hpc : w.pc t = .doPop i p) :
    ∃ φ φ', Linked w i φ ∧ D.spec.Holds (D.layout.popStep weak (w.mem.cell i) p).1 φ' ∧
      PopMove D.layout p φ (D.layout.popStep weak (w.mem.cell i) p).2 φ' := by
  obtain ⟨φ, hφ, hl⟩ := h.slotted i
  have hloc := h.counted.thread t
  rw [hpc] at hloc
  obtain ⟨φ', hφ', hm⟩ := D.spec.pop_move weak hloc.2 hφ (hl.atPop h.sole hpc)
  exact ⟨φ, φ', hl, hφ', hm⟩

omit [DecidableEq ι] in
/-- A thread is at the slot of its number, in `do_push` -/
theorem Kept.slotOf_pushNo (h : Kept w) {p : D.layout.Push} (hpc : w.pc t = .doPush x i p) :
    D.ring.slotOf (w.hist.pushNo t) = i := by
  have hloc := h.counted.thread t
  rw [hpc] at hloc
  exact hloc.1

omit [DecidableEq ι] in
/-- and in `do_pop`. -/
theorem Kept.slotOf_popNo (h : Kept w) {p : D.layout.Pop} (hpc : w.pc t = .doPop i p) :
    D.ring.slotOf (w.hist.popNo t) = i := by
  have hloc := h.counted.thread t
  rw [hpc] at hloc
  exact hloc.1

/-- **Every step keeps the slots linked.** -/
theorem Kept.slotted_step (hK : Kept w) (h : Change w a w') : Slotted w' := by
  have hL := hK.slotted
  cases h with
  | call hidle hentry =>
    exact hL.outside (by rw [hidle]; rfl) (entry_owns hentry) rfl rfl
  | quiet hq =>
    exact hL.outside hq.owns.1 hq.owns.2 rfl (by rw [History.record_quiet hq])
  | claimPush hc =>
    exact hL.outside hc.owns (by simp [Pc.owns, D.spec.pushEntry_owns]) rfl rfl
  | claimPop hc =>
    exact hL.outside hc.owns (by simp [Pc.owns, D.spec.popEntry_owns]) rfl rfl
  | @pushNext t weak x i p p' hpc ho =>
    obtain ⟨φ, φ', hl, hφ', hm⟩ := hK.pushMove weak hpc
    rw [ho] at hm
    exact hL.at (fun j hne => by rw [hpc]; exact Pc.owns_doPush_ne hne)
      (fun j hne => Pc.owns_doPush_ne hne) (fun j hne => History.record_pushAt_cell_of_ne hne)
      hφ' (hl.pushNext hpc hm)
  | @pushDone t weak x i p hpc ho =>
    obtain ⟨φ, φ', hl, hφ', hm⟩ := hK.pushMove weak hpc
    rw [ho] at hm
    exact hL.at (fun j hne => by rw [hpc]; exact Pc.owns_doPush_ne hne)
      (fun j hne => by simp [Pc.owns]) (fun j hne => History.record_pushAt_cell_of_ne hne)
      hφ' (hl.pushDone hK.pushTickets hpc hm)
  | @popNext t weak i p p' hpc ho =>
    obtain ⟨φ, φ', hl, hφ', hm⟩ := hK.popMove weak hpc
    rw [ho] at hm
    exact hL.at (fun j hne => by rw [hpc]; exact Pc.owns_doPop_ne hne)
      (fun j hne => Pc.owns_doPop_ne hne) (fun j hne => History.record_popAt_cell_of_ne hne)
      hφ' (hl.popNext hpc hm)
  | @popDone t weak i p x hpc ho =>
    obtain ⟨φ, φ', hl, hφ', hm⟩ := hK.popMove weak hpc
    rw [ho] at hm
    exact hL.at (fun j hne => by rw [hpc]; exact Pc.owns_doPop_ne hne)
      (fun j hne => by simp [Pc.owns]) (fun j hne => History.record_popAt_cell_of_ne hne)
      hφ' (hl.popDone hpc hm)

theorem slotted_init : Slotted (World.init D ι) := fun _ =>
  ⟨.free none, D.spec.holds_fresh, .empty (fun _ => by simp [World.init, State.init, Pc.owns]) rfl⟩

/-- **Every run keeps them.** -/
theorem kept_of_run {ok : World D ι → Act ι T → World D ι → Prop} (hok : Proper D ok)
    (hr : (machine D ι).Run ok w) : Kept w := by
  have hrest : ∀ {w}, (machine D ι).Run ok w → Slotted w → Kept w := fun hr hL =>
    ⟨sole_of_run hok hr, counted_of_run hok hr, pushTickets_of_run hr, admits_of_run hr, hL⟩
  refine hrest hr (hr.invariant slotted_init ?_)
  intro w a w' hr hL hs _
  exact (hrest hr hL).slotted_step (change_of_step hs)

end AtomicQueue
