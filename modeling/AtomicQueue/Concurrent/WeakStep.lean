import AtomicQueue.Concurrent.Weak
/-!
# Every step on a memory with orders

The steps of `do_push` and `do_pop`, and of the calls outside the slots, by
what their accesses do to the latest messages. So every run keeps `Good`.
-/

namespace AtomicQueue

open Views

theorem PushOut.eq_next {P : Type} {r : PushOut P} {p : P} (h : r.point = some p) :
    r = .next p := by
  cases r with
  | next p' =>
    cases h
    rfl
  | done => cases h

theorem PopOut.eq_next {P T : Type} {r : PopOut P T} {p : P} (h : r.point = some p) :
    r = .next p := by
  cases r with
  | next p' =>
    cases h
    rfl
  | done x => cases h

variable {T ι : Type} [DecidableEq T] {D : Derived T}

namespace Weak

variable {s s' : Weak D ι} {t u : ι} {i j : Fin D.ring.slots} {x : T}
variable {m' : Memory ι D.Value D.Plain} {v' : View ι (Loc D.ring.slots)}
variable {last last' : Loc D.ring.slots → ℕ} {top top' : Tops D ι} {roles : Option (ι × ι)}
variable {c : Choice} {r' : Pc D × Event T D.ring.slots}

/-! ## What a thread may read of a slot -/

/-- Among many threads no live value is followed by a free place, -/
theorem Good.gapless (h : Good roles s last top) (hspsc : D.spsc_ = false)
    (ℓ : Loc D.ring.slots) : Gapless s.mem last ℓ (Live D ℓ) := by
  cases h.disciplined with
  | crowd hgap => exact hgap ℓ
  | pair =>
    cases h.homed with
    | pair hspsc' => exact absurd (hspsc.symm.trans hspsc') (by decide)

/-- and with one on each side no message but the latest lets the producer
push, -/
theorem Good.push_current (h : Good roles s last top) (hspsc : D.spsc_ = true)
    (hoff : (s.pc t).offers ≠ none) (i : Fin D.ring.slots) :
    Current s.mem last (s.view t) (.slot i) fun a => D.shaped.awaitsPush a = true := by
  cases h.homed with
  | crowd hspsc' => exact absurd (hspsc'.symm.trans hspsc) (by decide)
  | pair _ hsides =>
    cases h.disciplined with
    | pair hhead htail hpush hpop =>
      rw [hsides.push_eq t hoff]
      exact hpush i

/-- or the consumer pop. -/
theorem Good.pop_current (h : Good roles s last top) (hspsc : D.spsc_ = true)
    (hpopping : (s.pc t).popping = true) (i : Fin D.ring.slots) :
    Current s.mem last (s.view t) (.slot i) fun a => D.shaped.awaitsPop a = true := by
  cases h.homed with
  | crowd hspsc' => exact absurd (hspsc'.symm.trans hspsc) (by decide)
  | pair _ hsides =>
    cases h.disciplined with
    | pair hhead htail hpush hpop =>
      rw [hsides.pop_eq t hpopping]
      exact hpop i

/-- **A slot whose value may be replaced is nobody's.** -/
theorem Good.unowned_of_live (h : Good roles s last top) (hspsc : D.spsc_ = false)
    (hlive : Live D (.slot i) (top (.slot i)).value) (u : ι) : (s.pc u).owns ≠ some i := by
  obtain ⟨φ, hφ, hl⟩ := h.sound.slotted i
  have hpush : D.layout.awaitsPush (D.accesses.cell (top (.slot i)).value (s.mem.plain i)) = true ∨
      D.layout.awaitsPop (D.accesses.cell (top (.slot i)).value (s.mem.plain i)) = true := by
    rw [D.shaped.awaitsPush_cell, D.shaped.awaitsPop_cell]
    exact hlive
  cases hl with
  | empty hfree hcell => exact hfree u
  | full hfree hcell hx => exact hfree u
  | push hpc hp hsole hcell =>
    rcases hpush with h | h
    · exact absurd (h.symm.trans (D.shaped.push_locked hspsc hφ)) (by decide)
    · exact absurd (h.symm.trans (D.spec.awaitsPop_push hφ)) (by decide)
  | pop hpc hp hsole hcell htook hx =>
    rcases hpush with h | h
    · exact absurd (h.symm.trans (D.spec.awaitsPush_pop hφ)) (by decide)
    · exact absurd (h.symm.trans (D.shaped.pop_locked hspsc hφ)) (by decide)

/-- **A slot won by a push** is not awaited by a pop, nor by another push
where there are some. -/
theorem Good.locked_push (h : Good roles s last top) {p : D.layout.Push}
    (hpc : s.pc t = .doPush x i p) (hp : D.layout.pushOwns p = true) :
    D.shaped.awaitsPop (top (.slot i)).value = false ∧
      (D.spsc_ = false → D.shaped.awaitsPush (top (.slot i)).value = false) := by
  obtain ⟨φ, hφ, hl⟩ := h.sound.slotted i
  obtain ⟨rfl, -⟩ := hl.of_push_owner hpc hp
  exact ⟨(D.shaped.awaitsPop_cell _ _).symm.trans (D.spec.awaitsPop_push hφ),
    fun hspsc => (D.shaped.awaitsPush_cell _ _).symm.trans (D.shaped.push_locked hspsc hφ)⟩

theorem Good.locked_pop (h : Good roles s last top) {p : D.layout.Pop}
    (hpc : s.pc t = .doPop i p) (hp : D.layout.popOwns p = true) :
    D.shaped.awaitsPush (top (.slot i)).value = false ∧
      (D.spsc_ = false → D.shaped.awaitsPop (top (.slot i)).value = false) := by
  obtain ⟨φ, hφ, hl⟩ := h.sound.slotted i
  obtain ⟨y, k, rfl, -⟩ := hl.of_pop_owner hpc hp
  exact ⟨(D.shaped.awaitsPush_cell _ _).symm.trans (D.spec.awaitsPush_pop hφ),
    fun hspsc => (D.shaped.awaitsPop_cell _ _).symm.trans (D.shaped.pop_locked hspsc hφ)⟩

/-- A push that returns puts its number, which no pop has taken and no other
slot holds. -/
theorem Good.pushNo_ne (h : Good roles s last top) {p : D.layout.Push}
    (hpc : s.pc t = .doPush x i p) :
    (∀ m k, (m, k) ∈ s.hist.chan.takes → k ≠ s.hist.pushNo t) ∧
      ∀ j, j ≠ i → ∀ k, s.hist.chan.cell j = some k → k ≠ s.hist.pushNo t := by
  refine ⟨?_, ?_⟩
  · rintro m k hk rfl
    exact (push_claim h.sound.pushTickets hpc).2.2
      (h.sound.stored_of_taken h.sound.chan hk)
  · rintro j hne k hcell rfl
    obtain ⟨-, hslot, -⟩ := (h.sound.chan.cell_iff j _).mp hcell
    exact hne (hslot.symm.trans (h.sound.slotOf_pushNo hpc))

/-! ## `do_push` -/

variable [DecidableEq ι]

section

variable {p : D.layout.Push} {r : PushOut D.layout.Push}
variable {store : Store (fun _ : Unit => D.accesses.Atom) (fun _ : Unit => D.accesses.Plain)}

/-- An exact step of `do_push` is one of the queue that all threads see. -/
theorem push_change (hpc : s.pc t = .doPush x i p)
    (hX : At s last top t i D.layout.pushOwns PushOut.point p
      ((D.accesses.push x p).run c.fails
        ⟨fun _ => (top (.slot i)).value, fun _ => s.mem.plain i⟩).1 r m' v' last' top')
    (hr : r = ((D.accesses.push x p).run c.fails
      ⟨fun _ => (top (.slot i)).value, fun _ => s.mem.plain i⟩).2) :
    (D.layout.pushStep c.fails x ((s.world top).mem.cell i) p).2 = r ∧
      Change (s.world top) (.step t c.fails)
        ((s.next t m' v' (D.pushed x i p r).1 (D.pushed x i p r).2).world top') := by
  have hrun : D.layout.pushStep c.fails x ((s.world top).mem.cell i) p = _ :=
    D.shaped.push_run c.fails x (top (.slot i)).value (s.mem.plain i) p
  have hmem : Weak.latest m' top' = (s.world top).mem.set i
      (D.layout.pushStep c.fails x ((s.world top).mem.cell i) p).1 := by
    rw [latest_set hX.top_of_ne hX.plain_of_ne, hX.value, hX.plain, hrun]
    rfl
  have hout : (D.layout.pushStep c.fails x ((s.world top).mem.cell i) p).2 = r := by
    rw [hrun, hr]
  refine ⟨hout, ?_⟩
  rw [world_next, hmem]
  cases r with
  | next p' => exact .pushNext hpc hout
  | done => exact .pushDone hpc hout

omit [DecidableEq ι] in
/-- Nobody else has won a slot that a push has, or now wins. -/
theorem Good.push_alone (h : Good roles s last top) (hpc : s.pc t = .doPush x i p)
    (hX : At s last top t i D.layout.pushOwns PushOut.point p store r m' v' last' top')
    {φ φ' : Phase D.layout} (hl : Linked (s.world top) i φ)
    (hm : PushMove D.layout x p φ r φ') (hne : u ≠ t) : (s.pc u).owns ≠ some i := by
  cases hp : D.layout.pushOwns p with
  | true => exact fun hu => hne ((hl.of_push_owner hpc hp).2.1 u hu)
  | false =>
    cases hm with
    | wait _ hp' =>
      obtain ⟨hspsc, hlive⟩ := hX.live hp _ rfl hp'
      exact h.unowned_of_live hspsc hlive u
    | win =>
      cases hl with
      | empty hfree hcell => exact hfree u
    | pass =>
      cases hl with
      | empty hfree hcell => exact hfree u
    | hold hp' => exact absurd (hp.symm.trans hp') (by decide)
    | release hp' => exact absurd (hp.symm.trans hp') (by decide)

/-- What a push has seen is sent with its element. -/
theorem Good.push_sent (h : Good roles s last top) (hpc : s.pc t = .doPush x i p)
    (hX : At s last top t i D.layout.pushOwns PushOut.point p store r m' v' last' top')
    {φ φ' : Phase D.layout} (hl : Linked (s.world top) i φ)
    (hm : PushMove D.layout x p φ r φ')
    (hnot : ∀ p', r.point = some p' → D.layout.pushOwns p' = false) {k : ℕ}
    (hcell : (s.hist.record t (D.pushed x i p r).2).chan.cell i = some k) :
    (s.next t m' v' (D.pushed x i p r).1 (D.pushed x i p r).2).sent k ≤
      (top' (.slot i)).view := by
  have hdone : s.hist.pushNo t = k → r = .done → (s.next t m' v' (D.pushed x i p r).1
      (D.pushed x i p r).2).sent k ≤ (top' (.slot i)).view := by
    rintro rfl rfl
    change Function.update s.sent (s.hist.pushNo t) v' (s.hist.pushNo t) ≤ _
    rw [Function.update_self]
    exact hX.sent rfl
  cases hm with
  | wait hp hp' =>
    -- an exchange that found nothing passes on what there was
    obtain ⟨hspsc, hlive⟩ := hX.live hp _ rfl hp'
    have hfree : ∀ u, (s.pc u).owns ≠ some i := h.unowned_of_live hspsc hlive
    have hold : s.hist.chan.cell i = some k := by
      simpa [Derived.pushed, Derived.pushWins, hp', History.record] using hcell
    exact (((h.guarded i).free hfree).2 k hold).trans ((hX.passed hnot).2 hp)
  | win hp hp' => exact absurd ((hnot _ rfl).symm.trans hp') (by decide)
  | hold hp hp' => exact absurd ((hnot _ rfl).symm.trans hp') (by decide)
  | pass hp =>
    refine hdone ?_ rfl
    simpa [Derived.pushed, Derived.pushWins, hp, History.record, History.put, Channels.put]
      using hcell
  | release hp =>
    have hold : s.hist.chan.cell i = some (s.hist.pushNo t) := (hl.of_push_owner hpc hp).2.2
    refine hdone ?_ rfl
    simpa [Derived.pushed, Derived.pushWins, hp, History.record, hold] using hcell

/-- **Every step of `do_push` keeps all.** -/
theorem Good.doPush (h : Good roles s last top) (hpc : s.pc t = .doPush x i p)
    (hexec : ((D.accesses.push x p).embed (V := D.Value) (W := D.Plain) (.slot i) i
      (D.pushed x i p)).exec c t s.mem (s.view t) = some (m', v', r')) :
    Leads roles (s.world top) t (s.next t m' v' r'.1 r'.2) := by
  have hpoint : D.spec.PushPoint p := by
    have hl := h.sound.counted.thread t
    rw [show (s.world top).pc t = _ from hpc] at hl
    exact hl.2
  have howns : (s.pc t).owns = if D.layout.pushOwns p then some i else none := by
    rw [hpc, Pc.owns_doPush]
  have hcur : D.layout.pushOwns p = true → (s.view t).1 (.slot i) = last (.slot i) := fun hp =>
    ((h.guarded i).owned t (by rw [howns, if_pos hp])).2
  have hv : s.view t ≤ v' := Instr.le_exec hexec
  obtain ⟨r, rfl, heff⟩ := (D.shaped.push_shape hpoint).effect h.latest (h.front_le t) hcur
    (fun hspsc => h.push_current hspsc (by rw [hpc]; simp [Pc.offers]) i)
    (fun hspsc => h.gapless hspsc (.slot i)) hexec
  rcases heff.exact h.latest (h.front_le t) hcur with
    ⟨rfl, hfront, hp, ⟨fails, st, hst⟩, p', hr, hp'⟩ | ⟨hr, last', top', hX⟩
  · -- it waits
    cases PushOut.eq_next hr
    have hwins : D.pushWins p (.next p') = false := by simp [Derived.pushWins, hp']
    have hstep : (D.layout.pushStep fails x (D.accesses.cell (st.value ()) (st.plain ())) p).2 =
        .next p' := by
      rw [D.shaped.push_run]
      exact hst
    have hpoint' : D.spec.PushPoint p' := D.spec.push_point hpoint hstep
    rw [Derived.pushed, hwins]
    exact h.drift hv hfront (.pushWait hpc hp hp' hpoint') (by rw [howns, hp]; rfl)
      (by simp [Pc.owns, hp']) rfl rfl
  · obtain ⟨hout, hchange⟩ := push_change (c := c) hpc hX hr
    obtain ⟨φ, φ', hl, hφ', hm⟩ := h.sound.toKept.pushMove (w := s.world top) c.fails hpc
    rw [hout] at hm
    have hhomed := h.homed.change hchange OneEach.of_step
    have hsent : ∀ k, k ≠ s.hist.pushNo t →
        (s.next t m' v' (D.pushed x i p r).1 (D.pushed x i p r).2).sent k = s.sent k := by
      intro k hne
      cases r with
      | next p' => rfl
      | done => exact Function.update_of_ne hne ..
    have hguard : Guarded (s.next t m' v' (D.pushed x i p r).1 (D.pushed x i p r).2) last' top'
        i := by
      refine (h.guarded i).exact hX hv (by rw [howns]; simp) ?_ (fun hp p' hr => ?_)
        (fun u hne => h.push_alone hpc hX hl hm hne) fun hnot k hcell => ?_
      · cases r <;> simp [Derived.pushed, Pc.owns, PushOut.point]
      · exact D.spec.push_keeps hp (hout.trans (PushOut.eq_next hr))
      · exact h.push_sent hpc hX hl hm hnot hcell
    refine ⟨last', top', h.at hX (h.sound.change hhomed.sole hchange) hhomed ?_ hguard ?_
      (fun j hne => by rw [hpc]; exact Pc.owns_doPush_ne hne) (fun j hne => ?_) (fun j hne => ?_)
      fun j hne k hcell => hsent k ((h.pushNo_ne hpc).2 j hne k hcell), .change hchange⟩
    · refine h.disciplined.exact hX hv h.homed (fun hspsc hp => ?_) ?_ fun _ _ _ =>
        Or.inr fun hp => (h.locked_push hpc hp).1
      · exact not_live ((h.locked_push hpc hp).2 hspsc) (h.locked_push hpc hp).1
      · rintro P C rfl
        cases h.homed with
        | pair hspsc hsides =>
          exact Or.inl (hsides.push_eq t (by
            change (s.pc t).offers ≠ none
            rw [hpc]
            simp [Pc.offers])).symm
    · refine h.passed.frame hv ?_ ?_ (fun m k hk => hsent k ((h.pushNo_ne hpc).1 m k hk)) ?_ ?_
      · cases r <;> exact History.record_pushAt_takes
      · cases r <;> rfl
      · cases r <;> rfl
      · intro j q k heq
        cases r <;> cases heq
    · cases r with
      | next p' => exact Pc.owns_doPush_ne hne
      | done => simp [Derived.pushed, Pc.owns]
    · cases r <;> exact History.record_pushAt_cell_of_ne hne

end

/-! ## `do_pop` -/

section

variable {p : D.layout.Pop} {r : PopOut D.layout.Pop T}
variable {store : Store (fun _ : Unit => D.accesses.Atom) (fun _ : Unit => D.accesses.Plain)}

/-- An exact step of `do_pop` is one of the queue that all threads see. -/
theorem pop_change (hpc : s.pc t = .doPop i p)
    (hX : At s last top t i D.layout.popOwns PopOut.point p
      ((D.accesses.pop p).run c.fails
        ⟨fun _ => (top (.slot i)).value, fun _ => s.mem.plain i⟩).1 r m' v' last' top')
    (hr : r = ((D.accesses.pop p).run c.fails
      ⟨fun _ => (top (.slot i)).value, fun _ => s.mem.plain i⟩).2) :
    (D.layout.popStep c.fails ((s.world top).mem.cell i) p).2 = r ∧
      Change (s.world top) (.step t c.fails)
        ((s.next t m' v' (D.popped i p r).1 (D.popped i p r).2).world top') := by
  have hrun : D.layout.popStep c.fails ((s.world top).mem.cell i) p = _ :=
    D.shaped.pop_run c.fails (top (.slot i)).value (s.mem.plain i) p
  have hmem : Weak.latest m' top' = (s.world top).mem.set i
      (D.layout.popStep c.fails ((s.world top).mem.cell i) p).1 := by
    rw [latest_set hX.top_of_ne hX.plain_of_ne, hX.value, hX.plain, hrun]
    rfl
  have hout : (D.layout.popStep c.fails ((s.world top).mem.cell i) p).2 = r := by
    rw [hrun, hr]
  refine ⟨hout, ?_⟩
  rw [world_next, hmem]
  cases r with
  | next p' => exact .popNext hpc hout
  | done y => exact .popDone hpc hout

omit [DecidableEq ι] in
/-- Nobody else has won a slot that a pop has, or now wins. -/
theorem Good.pop_alone (h : Good roles s last top) (hpc : s.pc t = .doPop i p)
    (hX : At s last top t i D.layout.popOwns PopOut.point p store r m' v' last' top')
    {φ φ' : Phase D.layout} (hl : Linked (s.world top) i φ)
    (hm : PopMove D.layout p φ r φ') (hne : u ≠ t) : (s.pc u).owns ≠ some i := by
  cases hp : D.layout.popOwns p with
  | true =>
    obtain ⟨y, k, -, hsole, -⟩ := hl.of_pop_owner hpc hp
    exact fun hu => hne (hsole u hu)
  | false =>
    cases hm with
    | wait _ hp' =>
      obtain ⟨hspsc, hlive⟩ := hX.live hp _ rfl hp'
      exact h.unowned_of_live hspsc hlive u
    | win =>
      cases hl with
      | full hfree hcell hx => exact hfree u
    | pass =>
      cases hl with
      | full hfree hcell hx => exact hfree u
    | hold hp' => exact absurd (hp.symm.trans hp') (by decide)
    | release hp' => exact absurd (hp.symm.trans hp') (by decide)

theorem next_popped_sent :
    (s.next t m' v' (D.popped i p r).1 (D.popped i p r).2).sent = s.sent := by
  cases r <;> rfl

/-- A step of `do_pop` takes the number its slot holds, or none. -/
theorem popped_chan {w : World D ι} {φ φ' : Phase D.layout} (hl : Linked w i φ)
    (hm : PopMove D.layout p φ r φ') :
    (w.hist.record t (D.popped i p r).2).chan = w.hist.chan ∨
      ∃ k, D.layout.popOwns p = false ∧ w.hist.chan.cell i = some k ∧
        (w.hist.record t (D.popped i p r).2).chan = w.hist.chan.take i (w.hist.popNo t) k := by
  cases hm with
  | wait hp hp' => exact Or.inl (by simp [Derived.popped, Derived.popWins, hp', History.record])
  | hold hp hp' => exact Or.inl (by simp [Derived.popped, Derived.popWins, hp, History.record])
  | release hp => exact Or.inl (by simp [Derived.popped, Derived.popWins, hp, History.record])
  | win hp hp' =>
    obtain ⟨k, hcell, -⟩ := hl.cell_of_full
    refine Or.inr ⟨k, hp, hcell, ?_⟩
    rw [Derived.popped, show D.popWins p (.next _) = true by simp [Derived.popWins, hp, hp']]
    exact History.record_popAt_chan hcell
  | pass hp =>
    obtain ⟨k, hcell, -⟩ := hl.cell_of_full
    refine Or.inr ⟨k, hp, hcell, ?_⟩
    rw [Derived.popped, show D.popWins p (.done _) = true by simp [Derived.popWins, hp]]
    exact History.record_popAt_chan hcell

/-- A slot given back by a pop holds nothing to pass on. -/
theorem Good.pop_sent (h : Good roles s last top) (hpc : s.pc t = .doPop i p)
    (hX : At s last top t i D.layout.popOwns PopOut.point p store r m' v' last' top')
    {φ φ' : Phase D.layout} (hl : Linked (s.world top) i φ) (hm : PopMove D.layout p φ r φ')
    (hnot : ∀ p', r.point = some p' → D.layout.popOwns p' = false) {k : ℕ}
    (hcell : (s.hist.record t (D.popped i p r).2).chan.cell i = some k) :
    (s.next t m' v' (D.popped i p r).1 (D.popped i p r).2).sent k ≤
      (top' (.slot i)).view := by
  rw [next_popped_sent]
  rcases popped_chan (t := t) hl hm with hchan | ⟨k', -, -, hchan⟩ <;>
    replace hchan : (s.hist.record t (D.popped i p r).2).chan = _ := hchan <;>
    rw [hchan] at hcell
  · cases hp : D.layout.popOwns p with
    | true =>
      obtain ⟨y, k', -, -, hnone, -⟩ := hl.of_pop_owner hpc hp
      exact absurd (hcell.symm.trans hnone) (by simp)
    | false =>
      -- an exchange that found nothing passes on what there was
      refine (((h.guarded i).free fun u hu => ?_).2 k hcell).trans ((hX.passed hnot).2 hp)
      rcases eq_or_ne u t with rfl | hne
      · rw [hpc, Pc.owns_doPop, hp] at hu
        cases hu
      · exact h.pop_alone hpc hX hl hm hne hu
  · simp [Channels.take] at hcell

/-- **A pop takes nothing but what its thread has seen.** -/
theorem Good.takes_seen (h : Good roles s last top) (hpc : s.pc t = .doPop i p)
    (hX : At s last top t i D.layout.popOwns PopOut.point p store r m' v' last' top')
    {φ φ' : Phase D.layout} (hl : Linked (s.world top) i φ) (hm : PopMove D.layout p φ r φ')
    {m k : ℕ} (hk : (m, k) ∈ (s.hist.record t (D.popped i p r).2).chan.takes) :
    (m, k) ∈ s.hist.chan.takes ∨ m = s.hist.popNo t ∧ s.sent k ≤ v' := by
  rcases popped_chan (t := t) hl hm with hchan | ⟨k', hp, hcell, hchan⟩ <;>
    replace hchan : (s.hist.record t (D.popped i p r).2).chan = _ := hchan <;>
    rw [hchan] at hk
  · exact Or.inl hk
  · rcases List.mem_append.mp hk with hk | hk
    · exact Or.inl hk
    · obtain ⟨rfl, rfl⟩ := Prod.mk.inj (List.mem_singleton.mp hk)
      refine Or.inr ⟨rfl, (((h.guarded i).free fun u hu => ?_).2 k hcell).trans (hX.received hp)⟩
      rcases eq_or_ne u t with rfl | hne
      · rw [hpc, Pc.owns_doPop, hp] at hu
        cases hu
      · exact h.pop_alone hpc hX hl hm hne hu

/-- What the pushes have seen, the pops still have. -/
theorem Good.passed_pop (h : Good roles s last top) (hv : s.view t ≤ v')
    (hpc : s.pc t = .doPop i p)
    (hX : At s last top t i D.layout.popOwns PopOut.point p store r m' v' last' top')
    {φ φ' : Phase D.layout} (hl : Linked (s.world top) i φ) (hm : PopMove D.layout p φ r φ') :
    Passed (s.next t m' v' (D.popped i p r).1 (D.popped i p r).2) := by
  have hself : ∀ {k}, (s.hist.popNo t, k) ∈ (s.hist.record t (D.popped i p r).2).chan.takes →
      s.sent k ≤ v' := by
    intro k hk
    rcases h.takes_seen hpc hX hl hm hk with hold | ⟨-, hle⟩
    · exact (h.passed.view t i p k hpc hold).trans hv
    · exact hle
  have hno : (s.hist.record t (D.popped i p r).2).popNo = s.hist.popNo := by
    cases r <;> rfl
  have hstatus : (s.world top).popTickets.status t ≠ .out := by
    simp only [World.popTickets]
    rw [show (s.world top).pc t = _ from hpc, Pc.popStatus]
    split <;> simp
  refine ⟨fun u j q k hu hk => ?_, fun a ha k hk => ?_⟩ <;> rw [next_popped_sent]
  · replace hk : ((s.hist.record t (D.popped i p r).2).popNo u, k) ∈
        (s.hist.record t (D.popped i p r).2).chan.takes := hk
    rw [hno] at hk
    rcases eq_or_ne u t with rfl | hne
    · rw [next_view_self]
      exact hself hk
    · rw [next_pc_of_ne hne] at hu
      rw [next_view_of_ne hne]
      rcases h.takes_seen hpc hX hl hm hk with hold | ⟨heq, -⟩
      · exact h.passed.view u j q k hu hold
      · -- no two pops have one number
        refine absurd (h.sound.popTickets.holder_unique ?_ hstatus heq) hne
        simp only [World.popTickets]
        rw [show (s.world top).pc u = _ from hu, Pc.popStatus]
        split <;> simp
  · have hold : a ∈ s.hist.received → s.sent k ≤ s.got a.no ∧ a.no ≠ s.hist.popNo t := by
      intro ha
      have hne : a.no ≠ s.hist.popNo t := fun heq =>
        (pop_claim h.sound.popTickets hpc).2.2 (heq ▸ List.mem_map_of_mem ha)
      rcases h.takes_seen hpc hX hl hm hk with hold | ⟨heq, -⟩
      · exact ⟨h.passed.got a ha k hold, hne⟩
      · exact absurd heq hne
    cases r with
    | next p' => exact (hold (by simpa [Derived.popped, Weak.next, History.record] using ha)).1
    | done y =>
      change s.sent k ≤ Function.update s.got (s.hist.popNo t) v' a.no
      rcases List.mem_append.mp ha with ha | ha
      · rw [Function.update_of_ne (hold ha).2]
        exact (hold ha).1
      · obtain rfl := List.mem_singleton.mp ha
        rw [show (s.hist.returns t (s.hist.popNo t) y).no = s.hist.popNo t from rfl,
          Function.update_self]
        exact hself hk

/-- **Every step of `do_pop` keeps all.** -/
theorem Good.doPop (h : Good roles s last top) (hpc : s.pc t = .doPop i p)
    (hexec : ((D.accesses.pop p).embed (V := D.Value) (W := D.Plain) (.slot i) i
      (D.popped i p)).exec c t s.mem (s.view t) = some (m', v', r')) :
    Leads roles (s.world top) t (s.next t m' v' r'.1 r'.2) := by
  have hpoint : D.spec.PopPoint p := by
    have hl := h.sound.counted.thread t
    rw [show (s.world top).pc t = _ from hpc] at hl
    exact hl.2
  have howns : (s.pc t).owns = if D.layout.popOwns p then some i else none := by
    rw [hpc, Pc.owns_doPop]
  have hcur : D.layout.popOwns p = true → (s.view t).1 (.slot i) = last (.slot i) := fun hp =>
    ((h.guarded i).owned t (by rw [howns, if_pos hp])).2
  have hv : s.view t ≤ v' := Instr.le_exec hexec
  obtain ⟨r, rfl, heff⟩ := (D.shaped.pop_shape hpoint).effect h.latest (h.front_le t) hcur
    (fun hspsc => h.pop_current hspsc (by rw [hpc]; rfl) i)
    (fun hspsc => h.gapless hspsc (.slot i)) hexec
  rcases heff.exact h.latest (h.front_le t) hcur with
    ⟨rfl, hfront, hp, ⟨fails, st, hst⟩, p', hr, hp'⟩ | ⟨hr, last', top', hX⟩
  · cases PopOut.eq_next hr
    have hwins : D.popWins p (.next p') = false := by simp [Derived.popWins, hp']
    have hstep : (D.layout.popStep fails (D.accesses.cell (st.value ()) (st.plain ())) p).2 =
        .next p' := by
      rw [D.shaped.pop_run]
      exact hst
    have hpoint' : D.spec.PopPoint p' := D.spec.pop_point hpoint hstep
    rw [Derived.popped, hwins]
    exact h.drift hv hfront (.popWait hpc hp hp' hpoint') (by rw [howns, hp]; rfl)
      (by simp [Pc.owns, hp']) rfl rfl
  · obtain ⟨hout, hchange⟩ := pop_change (c := c) hpc hX hr
    obtain ⟨φ, φ', hl, hφ', hm⟩ := h.sound.toKept.popMove (w := s.world top) c.fails hpc
    rw [hout] at hm
    have hhomed := h.homed.change hchange OneEach.of_step
    have hguard : Guarded (s.next t m' v' (D.popped i p r).1 (D.popped i p r).2) last' top'
        i := by
      refine (h.guarded i).exact hX hv (by rw [howns]; simp) ?_ (fun hp p' hr => ?_)
        (fun u hne => h.pop_alone hpc hX hl hm hne) fun hnot k hcell => ?_
      · cases r <;> simp [Derived.popped, Pc.owns, PopOut.point]
      · exact D.spec.pop_keeps hp (hout.trans (PopOut.eq_next hr))
      · exact h.pop_sent hpc hX hl hm hnot hcell
    refine ⟨last', top', h.at hX (h.sound.change hhomed.sole hchange) hhomed ?_ hguard
      (h.passed_pop hv hpc hX hl hm) (fun j hne => by rw [hpc]; exact Pc.owns_doPop_ne hne)
      (fun j hne => ?_) (fun j hne => ?_) (fun j _ k _ => by rw [next_popped_sent]),
      .change hchange⟩
    · refine h.disciplined.exact hX hv h.homed (fun hspsc hp => ?_)
        (fun _ _ _ => Or.inr fun hp => (h.locked_pop hpc hp).1) ?_
      · exact not_live (h.locked_pop hpc hp).1 ((h.locked_pop hpc hp).2 hspsc)
      · rintro P C rfl
        cases h.homed with
        | pair hspsc hsides =>
          exact Or.inl (hsides.pop_eq t (by
            change (s.pc t).popping = true
            rw [hpc]
            rfl)).symm
    · cases r with
      | next p' => exact Pc.owns_doPop_ne hne
      | done y => simp [Derived.popped, Pc.owns]
    · cases r <;> exact History.record_popAt_cell_of_ne hne

end

/-! ## The counters -/

section

variable {o : Order} {τ : ℕ} {pc' : Pc D} {e : Event T D.ring.slots}

omit [DecidableEq ι] in
/-- With one producer, it knows `head_`. -/
theorem Good.front_head (h : Good roles s last top) (hspsc : D.spsc_ = true)
    (hoff : (s.pc t).offers ≠ none) : (s.view t).1 .head = last .head := by
  cases h.homed with
  | crowd hspsc' => exact absurd (hspsc'.symm.trans hspsc) (by decide)
  | pair _ hsides =>
    cases h.disciplined with
    | pair hhead htail hpush hpop =>
      rw [hsides.push_eq t hoff]
      exact hhead

omit [DecidableEq ι] in
theorem Good.front_tail (h : Good roles s last top) (hspsc : D.spsc_ = true)
    (hpops : (s.pc t).popping = true) : (s.view t).1 .tail = last .tail := by
  cases h.homed with
  | crowd hspsc' => exact absurd (hspsc'.symm.trans hspsc) (by decide)
  | pair _ hsides =>
    cases h.disciplined with
    | pair hhead htail hpush hpop =>
      rw [hsides.pop_eq t hpops]
      exact htail

theorem quiet_next {m : Mem D} {pc : Pc D} (hq : Quiet m pc pc' e) :
    (s.next t m' v' pc' e).sent = s.sent ∧ (s.next t m' v' pc' e).got = s.got := by
  cases hq <;> exact ⟨rfl, rfl⟩

/-- **A load of `head_`**, perhaps of a value out of date. -/
theorem Good.quiet_head (h : Good roles s last top) (hv : s.view t ≤ v')
    {msg : Message ι (Loc D.ring.slots) (D.Value .head)}
    (hread : Reads s.mem last (s.view t) .head o τ msg v')
    (hq : Quiet ((s.world top).mem.setHead msg.value) (s.pc t) pc' e) :
    Leads roles (s.world top) t (s.next t s.mem v' pc' e) := by
  refine h.drift hv hread.front_le (.quiet hq (fun hspsc hoff => ?_) fun _ _ => rfl) hq.owns.1
    hq.owns.2 (quiet_next hq).1 (quiet_next hq).2
  obtain ⟨-, rfl⟩ := (Current.of_front_eq (P := fun _ => True) (h.front_head hspsc hoff)).eq_last
    h.latest hread.le hread.found trivial
  rfl

/-- **A load of `tail_`.** -/
theorem Good.quiet_tail (h : Good roles s last top) (hv : s.view t ≤ v')
    {msg : Message ι (Loc D.ring.slots) (D.Value .tail)}
    (hread : Reads s.mem last (s.view t) .tail o τ msg v')
    (hq : Quiet ((s.world top).mem.setTail msg.value) (s.pc t) pc' e) :
    Leads roles (s.world top) t (s.next t s.mem v' pc' e) := by
  refine h.drift hv hread.front_le (.quiet hq (fun _ _ => rfl) fun hspsc hpops => ?_) hq.owns.1
    hq.owns.2 (quiet_next hq).1 (quiet_next hq).2
  obtain ⟨-, rfl⟩ := (Current.of_front_eq (P := fun _ => True) (h.front_tail hspsc hpops)).eq_last
    h.latest hread.le hread.found trivial
  rfl

/-- **Every access of a call keeps all.** -/
theorem Good.access (h : Good roles s last top) {totalOrder_ : Bool}
    {I : Instr D.Value D.Plain (Pc D × Event T D.ring.slots)}
    (hcode : D.code totalOrder_ (s.pc t) = some I)
    (hexec : I.exec c t s.mem (s.view t) = some (m', v', r')) :
    Leads roles (s.world top) t (s.next t m' v' r'.1 r'.2) := by
  have hv : s.view t ≤ v' := Instr.le_exec hexec
  have hle := h.front_le t
  cases hpc : s.pc t with
  | idle =>
    rw [hpc] at hcode
    cases hcode
  | tryPushLoad x =>
    rw [hpc] at hcode
    cases hcode
    obtain ⟨τ, msg, hread, rfl, rfl⟩ := h.latest.load hle hexec
    exact h.quiet_head hv hread (hpc ▸ .tryPushLoad x)
  | tryPushCheck x head =>
    rw [hpc] at hcode
    cases hcode
    obtain ⟨τ, msg, hread, rfl, rfl⟩ := h.latest.load hle hexec
    split
    · exact h.quiet_tail hv hread (hpc ▸ .pushFull ‹_›)
    · exact h.quiet_tail hv hread (hpc ▸ .pushRoom (lt_of_not_ge ‹_›))
  | tryPushClaim x head =>
    rw [hpc, Derived.code] at hcode
    have hoff : (s.pc t).offers ≠ none := by rw [hpc]; simp [Pc.offers]
    split at hcode <;> cases hcode
    · rename_i hspsc
      obtain ⟨τ, msg, hw, hval, rfl⟩ := h.latest.store hle (h.front_head hspsc hoff) hexec
      exact h.claimPush hv hw hval (hpc ▸ .tryPush (Or.inl hspsc)) fun hs =>
        absurd (hs.symm.trans hspsc) (by decide)
    · rename_i hspsc
      have hspsc := eq_false_of_ne_true hspsc
      rcases h.latest.cas hle ((h.gapless hspsc .head).mono fun _ _ => trivial) hexec with
        ⟨msg, hw, hval, hexp, -, -, -, rfl⟩ | ⟨τ, msg, hread, rfl, rfl⟩
      · exact h.claimPush hv hw hval (hpc ▸ .tryPush (Or.inr hexp)) fun _ => rfl
      · exact h.quiet_head hv hread (hpc ▸ .pushRetry hspsc)
  | tryPopLoad =>
    rw [hpc] at hcode
    cases hcode
    obtain ⟨τ, msg, hread, rfl, rfl⟩ := h.latest.load hle hexec
    exact h.quiet_tail hv hread (hpc ▸ .tryPopLoad)
  | tryPopCheck tail =>
    rw [hpc] at hcode
    cases hcode
    obtain ⟨τ, msg, hread, rfl, rfl⟩ := h.latest.load hle hexec
    split
    · exact h.quiet_head hv hread (hpc ▸ .popEmpty ‹_›)
    · exact h.quiet_head hv hread (hpc ▸ .popSome (lt_of_not_ge ‹_›))
  | tryPopClaim tail =>
    rw [hpc, Derived.code] at hcode
    have hpops : (s.pc t).popping = true := by rw [hpc]; rfl
    split at hcode <;> cases hcode
    · rename_i hspsc
      obtain ⟨τ, msg, hw, hval, rfl⟩ := h.latest.store hle (h.front_tail hspsc hpops) hexec
      exact h.claimPop hv hw hval (hpc ▸ .tryPop (Or.inl hspsc)) fun hs =>
        absurd (hs.symm.trans hspsc) (by decide)
    · rename_i hspsc
      have hspsc := eq_false_of_ne_true hspsc
      rcases h.latest.cas hle ((h.gapless hspsc .tail).mono fun _ _ => trivial) hexec with
        ⟨msg, hw, hval, hexp, -, -, -, rfl⟩ | ⟨τ, msg, hread, rfl, rfl⟩
      · exact h.claimPop hv hw hval (hpc ▸ .tryPop (Or.inr hexp)) fun _ => rfl
      · exact h.quiet_tail hv hread (hpc ▸ .popRetry hspsc)
  | pushClaim x =>
    rw [hpc, Derived.code] at hcode
    split at hcode <;> cases hcode
    · rename_i hspsc
      obtain ⟨τ, msg, hread, rfl, rfl⟩ := h.latest.load hle hexec
      exact h.quiet_head hv hread (hpc ▸ .pushLoad hspsc)
    · rename_i hspsc
      have hspsc := eq_false_of_ne_true hspsc
      obtain ⟨msg, hw, hval, -, -, rfl⟩ := h.latest.rmw hle (h.gapless hspsc .head) hexec
      exact h.claimPush hv hw hval (hpc ▸ .push hspsc) fun _ => rfl
  | pushStore x head =>
    have hspsc : D.spsc_ = true := by
      have hl := h.sound.counted.thread t
      rw [show (s.world top).pc t = _ from hpc] at hl
      exact hl.1
    rw [hpc] at hcode
    cases hcode
    obtain ⟨τ, msg, hw, hval, rfl⟩ := h.latest.store hle
      (h.front_head hspsc (by rw [hpc]; simp [Pc.offers])) hexec
    exact h.claimPush hv hw hval (hpc ▸ .store) fun hs =>
      absurd (hs.symm.trans hspsc) (by decide)
  | popClaim =>
    rw [hpc, Derived.code] at hcode
    split at hcode <;> cases hcode
    · rename_i hspsc
      obtain ⟨τ, msg, hread, rfl, rfl⟩ := h.latest.load hle hexec
      exact h.quiet_tail hv hread (hpc ▸ .popLoad hspsc)
    · rename_i hspsc
      have hspsc := eq_false_of_ne_true hspsc
      obtain ⟨msg, hw, hval, -, -, rfl⟩ := h.latest.rmw hle (h.gapless hspsc .tail) hexec
      exact h.claimPop hv hw hval (hpc ▸ .pop hspsc) fun _ => rfl
  | popStore tail =>
    have hspsc : D.spsc_ = true := by
      have hl := h.sound.counted.thread t
      rw [show (s.world top).pc t = _ from hpc] at hl
      exact hl.1
    rw [hpc] at hcode
    cases hcode
    obtain ⟨τ, msg, hw, hval, rfl⟩ := h.latest.store hle
      (h.front_tail hspsc (by rw [hpc]; rfl)) hexec
    exact h.claimPop hv hw hval (hpc ▸ .store) fun hs =>
      absurd (hs.symm.trans hspsc) (by decide)
  | wasSizeLoad headFirst =>
    rw [hpc] at hcode
    cases headFirst <;> cases hcode <;>
      obtain ⟨τ, msg, hread, rfl, rfl⟩ := h.latest.load hle hexec
    · exact h.quiet_tail hv hread (hpc ▸ .sizeTail)
    · exact h.quiet_head hv hread (hpc ▸ .sizeHead)
  | wasSizeHead head =>
    rw [hpc] at hcode
    cases hcode
    obtain ⟨τ, msg, hread, rfl, rfl⟩ := h.latest.load hle hexec
    exact h.quiet_tail hv hread (hpc ▸ .sizedHead)
  | wasSizeTail tail =>
    rw [hpc] at hcode
    cases hcode
    obtain ⟨τ, msg, hread, rfl, rfl⟩ := h.latest.load hle hexec
    exact h.quiet_head hv hread (hpc ▸ .sizedTail)
  | doPush x i p =>
    rw [hpc] at hcode
    cases hcode
    exact h.doPush hpc hexec
  | doPop i p =>
    rw [hpc] at hcode
    cases hcode
    exact h.doPop hpc hexec

end

/-! ## Every step -/

/-- What a thread does of its own it has seen. -/
theorem Good.work (h : Good roles s last top) :
    Good roles { s with view := Function.update s.view t (tick (s.view t) t) } last top := by
  have hle : ∀ u, s.view u ≤ Function.update s.view t (tick (s.view t) t) u :=
    le_update_view le_tick
  have hfront : ∀ u, (Function.update s.view t (tick (s.view t) t) u).1 = (s.view u).1 := by
    intro u
    rcases eq_or_ne u t with rfl | hne
    · rw [Function.update_self]
      rfl
    · rw [Function.update_of_ne hne]
  exact
    { latest := h.latest
      front_le := fun u => (hfront u).le.trans (h.front_le u)
      sound := h.sound
      homed := h.homed
      disciplined := h.disciplined.still le_tick (h.front_le t)
      guarded := fun i => ⟨(h.guarded i).free, fun u hu =>
        ⟨((h.guarded i).owned u hu).1.mono (hle u),
          (congrFun (hfront u) _).trans ((h.guarded i).owned u hu).2⟩⟩
      passed := ⟨fun u i p k hu hk => (h.passed.view u i p k hu hk).trans (hle u),
        h.passed.got⟩ }

/-- One producer's calls, and one consumer's. -/
def OneEach (P C : ι) : Act ι T → Prop
  | .call t op => AtomicQueue.OneEach P C (.call t op)
  | _ => True

/-- The condition on the calls. -/
def OneEach.Of : Option (ι × ι) → Act ι T → Prop
  | none, _ => True
  | some (P, C), a => OneEach P C a

instance (P C : ι) (a : Act ι T) : Decidable (OneEach P C a) :=
  match a with
  | .call _ _ => inferInstanceAs (Decidable (AtomicQueue.OneEach P C _))
  | .work _ | .step _ _ => inferInstanceAs (Decidable True)

/-- The condition on runs of a class with `spsc_`. -/
def Proper (D : Derived T) (ok : Weak D ι → Act ι T → Weak D ι → Prop) : Prop :=
  D.spsc_ = true → ∃ P C, ∀ s a s', ok s a s' → OneEach P C a

/-- **What a step does to the queue** that the latest messages make. -/
inductive Moved (w w' : World D ι) : Act ι T → Prop
  | call {t : ι} {op : Op T} (h : Change w (.call t op) w') : Moved w w' (.call t op)
  | work {t : ι} (h : w' = w) : Moved w w' (.work t)
  | step {t : ι} {c : Choice} (h : Stepped w t w') : Moved w w' (.step t c)

/-- **Every step keeps all.** -/
theorem Good.step (h : Good roles s last top) {totalOrder_ : Bool} {a : Act ι T}
    (hs : (weakMachine D totalOrder_ ι).step s a = some s')
    (hok : OneEach.Of roles a) :
    ∃ last' top', Good roles s' last' top' ∧ Moved (s.world top) (s'.world top') a := by
  cases a with
  | call t op =>
    change Weak.step totalOrder_ s (.call t op) = some s' at hs
    cases hpc : s.pc t <;> simp only [Weak.step, hpc] at hs <;> try cases hs
    obtain ⟨pc, hentry, rfl⟩ := Option.map_eq_some_iff.mp hs
    refine ⟨last, top, h.call hpc hentry ?_, .call (.call hpc hentry)⟩
    rcases roles with _ | ⟨P, C⟩ <;> exact hok
  | work t =>
    change Weak.step totalOrder_ s (.work t) = some s' at hs
    cases hpc : s.pc t <;> simp only [Weak.step, hpc] at hs <;> cases hs
    exact ⟨last, top, h.work, .work rfl⟩
  | step t c =>
    obtain ⟨I, hcode, hrest⟩ := Option.bind_eq_some_iff.mp hs
    obtain ⟨⟨m', v', r'⟩, hexec, rfl⟩ := Option.map_eq_some_iff.mp hrest
    obtain ⟨last', top', hgood, hstep⟩ := h.access hcode hexec
    exact ⟨last', top', hgood, .step hstep⟩

theorem latest_init : Latest (init D ι).mem (fun _ => 0) fun ℓ => ⟨initial D ℓ, ⊥⟩ := by
  refine ⟨fun _ => rfl, fun ℓ τ hτ => if_neg (by omega), fun ℓ τ msg hmsg => ?_⟩
  obtain ⟨-, heq⟩ := Option.ite_none_right_eq_some.mp hmsg
  cases heq
  exact bot_le

theorem world_init : (init D ι).world (fun ℓ => ⟨initial D ℓ, ⊥⟩) = World.init D ι := by
  have hcell : ∀ i : Fin D.ring.slots, (latest (init D ι).mem fun ℓ => ⟨initial D ℓ, ⊥⟩).cell i =
      D.layout.fresh := fun _ => D.shaped.fresh
  have hmem : latest (init D ι).mem (fun ℓ => ⟨initial D ℓ, ⊥⟩) = (World.init D ι).mem := by
    rw [latest, Mem.mk.injEq]
    exact ⟨rfl, rfl, funext hcell⟩
  rw [world, hmem]
  rfl

theorem good_init (hhomed : Homed (World.init D ι) roles) :
    Good roles (init D ι) (fun _ => 0) fun ℓ => ⟨initial D ℓ, ⊥⟩ := by
  have hsettled : ∀ {i v}, (init D ι).mem.Settled i v := fun a ha => absurd ha List.not_mem_nil
  refine ⟨latest_init, fun _ => bot_le, ?_, ?_, ?_,
    fun i => ⟨fun _ => ⟨hsettled, fun _ h => (by cases h)⟩, fun t h => (by cases h)⟩,
    ⟨fun t i p k h => (by cases h), fun r h => absurd h List.not_mem_nil⟩⟩
  · -- a run without steps meets any condition
    have hr : (machine D ι).Run (fun _ _ _ => False) (World.init D ι) := .init
    rw [world_init]
    cases hhomed with
    | crowd hspsc => exact sound_of_run (proper_of_not_spsc hspsc) hr
    | @pair P C _ _ => exact sound_of_run (fun _ => ⟨P, C, fun _ _ _ h => h.elim⟩) hr
  · rwa [world_init]
  · cases hhomed with
    | crowd hspsc => exact .crowd fun ℓ τ msg hτ => absurd hτ (Nat.not_lt_zero τ)
    | pair =>
      exact .pair rfl rfl (fun i => .of_front_eq rfl) fun i => .of_front_eq rfl

/-- The roles of the threads are fixed from the start. -/
theorem Proper.homed {ok : Weak D ι → Act ι T → Weak D ι → Prop} (hok : Proper D ok) :
    ∃ roles, Homed (World.init D ι) roles ∧ ∀ s a s', ok s a s' → OneEach.Of roles a := by
  cases hspsc : D.spsc_ with
  | false => exact ⟨none, .crowd hspsc, fun _ _ _ _ => trivial⟩
  | true =>
    obtain ⟨P, C, hPC⟩ := hok hspsc
    exact ⟨some (P, C), .pair hspsc (.of_idle fun _ => rfl), hPC⟩

section

variable {totalOrder_ : Bool} {ok : Weak D ι → Act ι T → Weak D ι → Prop}

/-- It is good in every state reached. -/
theorem good_of_homed (hhomed : Homed (World.init D ι) roles)
    (hok : ∀ s a s', ok s a s' → OneEach.Of roles a)
    (hr : (weakMachine D totalOrder_ ι).Run ok s) : ∃ last top, Good roles s last top := by
  refine hr.invariant (I := fun s => ∃ last top, Good roles s last top) ⟨_, _, good_init hhomed⟩ ?_
  rintro s a s' - ⟨last, top, h⟩ hs hstep
  obtain ⟨last', top', hgood, -⟩ := h.step hs (hok _ _ _ hstep)
  exact ⟨last', top', hgood⟩

/-- **Every run keeps all.** -/
theorem good_of_run (hok : Proper D ok) (hr : (weakMachine D totalOrder_ ι).Run ok s) :
    ∃ roles last top, Good roles s last top := by
  obtain ⟨roles, hhomed, hroles⟩ := hok.homed
  exact ⟨roles, good_of_homed hhomed hroles hr⟩

/-- **Every step of a run is one of the queue** that the latest messages
make. -/
theorem moved_of_run (hok : Proper D ok) (hr : (weakMachine D totalOrder_ ι).Run ok s)
    {a : Act ι T} (hs : (weakMachine D totalOrder_ ι).step s a = some s') (hstep : ok s a s') :
    ∃ top top', Sound (s.world top) ∧ Moved (s.world top) (s'.world top') a := by
  obtain ⟨roles, hhomed, hroles⟩ := hok.homed
  obtain ⟨last, top, h⟩ := good_of_homed hhomed hroles hr
  obtain ⟨last', top', -, hmoved⟩ := h.step hs (hroles _ _ _ hstep)
  exact ⟨top, top', h.sound, hmoved⟩

end

end Weak

end AtomicQueue
