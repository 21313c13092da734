import AtomicQueue.Concurrent.Shared
import AtomicQueue.Concurrent.Crowding
import AtomicQueue.Concurrent.Fifo
/-!
# The queue is linearizable while nobody is overtaken

Calls of any number of threads reply as the bounded queue would, each at
one moment between its call and its return. A claim on `head_` is the moment
of a push, if there is room, and of the pop that waits for it, if one does;
a claim on `tail_` that of a pop and of the push that waits for its room. A
slot is won only for a claim that has taken effect, so the calls return what
they were given then.
-/

namespace AtomicQueue

open Object (Visible Stage Shared Linearizable)

variable {T ι : Type} [DecidableEq T] {D : Derived T}
variable [DecidableEq ι] {w w' : World D ι} {a : Act ι T} {t t' : ι} {x : T}
variable {ok : World D ι → Act ι T → World D ι → Prop}

/-! ## What has won a slot has taken effect -/

omit [DecidableEq ι] in
/-- A position and the one a lap later are on one slot. -/
theorem World.Unturned.slotOf_sub (h : w.Unturned) {k : ℕ} (hk : k < w.hist.pushes)
    (hle : D.ring.slots ≤ k) : D.ring.slotOf (k - D.ring.slots) = D.ring.slotOf k := by
  have hmod : (k - D.ring.slots) % D.ring.slots = k % D.ring.slots := by
    rw [← Nat.add_mod_right, Nat.sub_add_cancel hle]
  rcases h with hpow | hturn
  · exact hpow.slotOf_eq_iff.mpr hmod
  · have hword : k < 2 ^ 32 := hk.trans hturn
    rw [Ring.slotOf_eq_iff_wrapped, Nat.mod_eq_of_lt hword,
      Nat.mod_eq_of_lt (lt_of_le_of_lt (Nat.sub_le ..) hword)]
    exact hmod

omit [DecidableEq ι] in
/-- **A push wins its slot only where there is room for it.** -/
theorem Sound.put_entered (hS : Sound w) (ho : Channels.Ordered D.ring.slotOf w.hist.chan)
    (hturn : w.Unturned) {k : ℕ} (hk : k ∈ w.hist.chan.puts) : k < w.hist.entered := by
  have hlt := hS.chan.puts_lt k hk
  refine lt_min hlt ?_
  by_contra hge
  have hpos := D.ring.size_pos
  have hslot := hturn.slotOf_sub hlt (by omega)
  have hk' := ho.puts_closed k hk (k - D.ring.slots) (by omega) hslot
  -- neither has been popped, so both would be in the slot
  have hfresh : ∀ j, w.hist.pops ≤ j → j ∉ w.hist.chan.takes.map Prod.snd := by
    intro j hj hmem
    obtain ⟨⟨m, j'⟩, hm, rfl⟩ := List.mem_map.mp hmem
    have hm' := hS.chan.takes_lt m j' hm
    have heq := ho.source_eq m j' hm
    simp only [History.pops] at hj
    omega
  have hcell := (hS.chan.cell_iff (D.ring.slotOf k) k).mpr ⟨hk, rfl, hfresh k (by omega)⟩
  have hcell' := (hS.chan.cell_iff (D.ring.slotOf k) _).mpr ⟨hk', hslot, hfresh _ (by omega)⟩
  rw [hcell, Option.some.injEq] at hcell'
  omega

omit [DecidableEq ι] in
/-- **A pop wins its slot only where there is an element for it.** -/
theorem Sound.take_left (hS : Sound w) (ho : Channels.Ordered D.ring.slotOf w.hist.chan) {k : ℕ}
    (hk : k ∈ w.hist.chan.takes.map Prod.fst) : k < w.hist.left := by
  obtain ⟨⟨m, j⟩, hm, rfl⟩ := List.mem_map.mp hk
  have heq := ho.source_eq m j hm
  exact lt_min (heq ▸ hS.chan.puts_lt j (hS.chan.source_mem m j hm)) (hS.chan.takes_lt m j hm)

/-! ## Who waits -/

omit [DecidableEq ι] in
/-- **A pop claimed ahead of the pushes** is that of a thread in `do_pop`. -/
theorem Sound.exists_pop (hS : Sound w) (ho : Channels.Ordered D.ring.slotOf w.hist.chan)
    (hlt : w.hist.pushes < w.hist.pops) :
    ∃ t i p, w.pc t = .doPop i p ∧ w.hist.popNo t = w.hist.pushes := by
  refine pop_pending hS.popTickets hlt fun hdone => ?_
  have := hS.take_left ho (hS.popTickets.done_served _ hdone)
  rw [History.left] at this
  omega

omit [DecidableEq ι] in
/-- **A push claimed a lap ahead of the pops** is that of a thread in
`do_push`. -/
theorem Sound.exists_push (hS : Sound w) (ho : Channels.Ordered D.ring.slotOf w.hist.chan)
    (hturn : w.Unturned) (hlt : w.hist.pops + D.ring.slots < w.hist.pushes) :
    ∃ t x i p, w.pc t = .doPush x i p ∧ w.hist.pushNo t = w.hist.pops + D.ring.slots := by
  refine push_pending hS.pushTickets hlt fun hdone => ?_
  have := hS.put_entered ho hturn (hS.pushTickets.done_served _ hdone)
  rw [History.entered] at this
  omega

omit [DecidableEq ι] in
/-- No two threads in `do_pop` have one number. -/
theorem Sound.popNo_inj (hS : Sound w) {i i' : Fin D.ring.slots} {p p' : D.layout.Pop}
    (hpc : w.pc t = .doPop i p) (hpc' : w.pc t' = .doPop i' p')
    (heq : w.hist.popNo t = w.hist.popNo t') : t = t' :=
  hS.popTickets.holder_unique (popStatus_ne_out hpc) (popStatus_ne_out hpc') heq

omit [DecidableEq ι] in
theorem Sound.pushNo_inj (hS : Sound w) {i i' : Fin D.ring.slots} {x x' : T}
    {p p' : D.layout.Push} (hpc : w.pc t = .doPush x i p) (hpc' : w.pc t' = .doPush x' i' p')
    (heq : w.hist.pushNo t = w.hist.pushNo t') : t = t' :=
  hS.pushTickets.holder_unique (pushStatus_ne_out hpc) (pushStatus_ne_out hpc') heq

omit [DecidableEq ι] in
/-- A call about to claim on `head_` waits, as a `try_push` or a `push`. -/
theorem ClaimsPush.stage {head : Word} (hc : ClaimsPush w.mem (w.pc t) x head) :
    ∃ op, w.shared.stage t = .waits op ∧
      (op = .push x ∨ op = .tryPush x ∧ (w.pc t).tryingPush = true) := by
  generalize hpc : w.pc t = pc₀ at hc
  rw [World.shared_stage, hpc]
  cases hc with
  | tryPush => exact ⟨_, rfl, Or.inr ⟨rfl, rfl⟩⟩
  | push | store => exact ⟨_, rfl, Or.inl rfl⟩

omit [DecidableEq ι] in
theorem ClaimsPop.stage {tail : Word} (hc : ClaimsPop w.mem (w.pc t) tail) :
    ∃ op, w.shared.stage t = .waits op ∧
      (op = .pop ∨ op = .tryPop ∧ (w.pc t).tryingPop = true) := by
  generalize hpc : w.pc t = pc₀ at hc
  rw [World.shared_stage, hpc]
  cases hc with
  | tryPop => exact ⟨_, rfl, Or.inr ⟨rfl, rfl⟩⟩
  | pop | store => exact ⟨_, rfl, Or.inl rfl⟩

/-! ## Every step is a stretch of steps of the bounded queue -/

/-- The other pushes stay at their stages when a push is claimed, and so do
the pops but the one that waits for it. -/
theorem Sound.stage_claimPush (hS : Sound w) {u : ι} (hne : u ≠ t)
    (hpop : ∀ i p, w.pc u = .doPop i p → w.hist.popNo u ≠ w.hist.pushes) :
    (w.hist.record t (.claimPush x)).stage u (w.pc u) = w.hist.stage u (w.pc u) := by
  refine History.stage_congr (fun y i p hpc => ?_) (fun i p hpc => ?_)
  · have hlt := pushNo_lt hS.pushTickets hpc
    rw [History.record_pushNo_of_ne _ hne, History.entered, History.entered,
      History.record_claimPush_pushes, History.record_claimPush_pops]
    omega
  · have hno := hpop i p hpc
    have hlt := popNo_lt hS.popTickets hpc
    rw [History.record_popNo_of_ne _ hne, History.given, History.given, History.left, History.left,
      History.record_claimPush_pushes, History.record_claimPush_pops]
    by_cases hk : w.hist.popNo u < w.hist.pushes
    · rw [History.record_claimPush_element hk, if_pos (by omega), if_pos (by omega)]
    · rw [if_neg (by omega), if_neg (by omega)]

/-- The other pops stay at their stages when a pop is claimed, and so do the
pushes but the one that waits for its room. -/
theorem Sound.stage_claimPop (hS : Sound w) {u : ι} (hne : u ≠ t)
    (hpush : ∀ y i p, w.pc u = .doPush y i p →
      w.hist.pushNo u ≠ w.hist.pops + D.ring.slots) :
    (w.hist.record t .claimPop).stage u (w.pc u) = w.hist.stage u (w.pc u) := by
  refine History.stage_congr (fun y i p hpc => ?_) (fun i p hpc => ?_)
  · have hno := hpush y i p hpc
    have hlt := pushNo_lt hS.pushTickets hpc
    rw [History.record_pushNo_of_ne _ hne, History.entered, History.entered,
      History.record_claimPop_pops, History.record_claimPop_pushes]
    omega
  · have hlt := popNo_lt hS.popTickets hpc
    rw [History.record_popNo_of_ne _ hne, History.given, History.given, History.left, History.left,
      History.record_claimPop_pops, History.record_claimPop_pushes]
    change (if _ then w.hist.element _ else none) = _
    exact if_congr (by omega) rfl rfl

omit [DecidableEq T] [DecidableEq ι] in
/-- Either kind of push onto a queue with room. -/
theorem boundedQueue_push {n : ℕ} {l : List T} {op : Op T} {b : Prop}
    (hop : op = .push x ∨ op = .tryPush x ∧ b) (hroom : l.length < n) :
    (boundedQueue T n).call l op .done (l ++ [x]) := by
  rcases hop with rfl | ⟨rfl, -⟩
  · exact ⟨hroom, rfl, rfl⟩
  · exact Or.inl ⟨hroom, rfl, rfl⟩

omit [DecidableEq T] [DecidableEq ι] in
/-- Either kind of pop from a queue with an element. -/
theorem boundedQueue_pop {n : ℕ} {l : List T} {op : Op T} {b : Prop}
    (hop : op = .pop ∨ op = .tryPop ∧ b) :
    (boundedQueue T n).call (x :: l) op (.element x) l := by
  rcases hop with rfl | ⟨rfl, -⟩
  · exact ⟨x, rfl, rfl⟩
  · exact Or.inl ⟨x, rfl, rfl⟩

/-- **A claim on `head_`** is the moment of the push where there is room for
it, and of the pop that waits for it, if one does. -/
theorem Sound.path_claimPush (hS : Sound w) (ho : Channels.Ordered D.ring.slotOf w.hist.chan)
    {head : Word} {m : Mem D} {i : Fin D.ring.slots} {p : D.layout.Push}
    (hc : ClaimsPush w.mem (w.pc t) x head)
    (hroom : (w.pc t).tryingPush = true → w.hist.pushes < w.hist.pops + D.ring.slots) :
    Shared.Path (boundedQueue T D.ring.slots) w.shared []
      (w.next t m (.doPush x i p) (.claimPush x)).shared := by
  have hpos := D.ring.size_pos
  obtain ⟨op, hstage, hop⟩ := hc.stage
  have hself : (w.hist.record t (.claimPush x)).stage t (.doPush x i p) =
      if w.hist.pushes < w.hist.pops + D.ring.slots then .served .done else .waits (.push x) := by
    rw [History.stage, History.entered, History.record_claimPush_pushes,
      History.record_claimPush_pops]
    simp only [History.record, Function.update_self]
    exact if_congr (by omega) rfl rfl
  rcases Nat.lt_or_ge w.hist.pushes w.hist.pops with hlt | hge
  · -- the pop with this number waits, and takes effect after the push
    obtain ⟨t', i', p', hpc', hno⟩ := hS.exists_pop ho hlt
    have hne : t' ≠ t := by
      rintro rfl
      have hst := hc.status.2
      rw [hpc', Pc.popStatus] at hst
      split at hst <;> cases hst
    have hempty : w.hist.contents = [] := History.contents_eq_nil hlt.le
    have hstage' : w.shared.stage t' = .waits .pop := by
      rw [World.shared_stage, hpc', History.stage, hno, History.given, History.left,
        if_neg (by omega)]
    have hgiven : (w.hist.record t (.claimPush x)).stage t' (w.pc t') = .served (.element x) := by
      rw [hpc', History.stage, History.record_popNo_of_ne _ hne, hno, History.given, History.left,
        History.record_claimPush_pushes, History.record_claimPush_pops, if_pos (by omega),
        History.record_claimPush_element_self]
    rw [World.shared_next_helped [x] hne (v := [])
      (History.contents_eq_nil (by
        rw [History.record_claimPush_pushes, History.record_claimPush_pops]; omega))
      (hself.trans (if_pos (by omega))) hgiven fun u hu hu' =>
        hS.stage_claimPush hu fun j q hpc heq =>
          hu' (hS.popNo_inj hpc hpc' (heq.trans hno.symm))]
    refine (Shared.Path.one (.take hstage ?_)).append
      (.one (.take ?_ (boundedQueue_pop (b := True) (Or.inl rfl))))
    · rw [World.shared_value, hempty]
      exact boundedQueue_push hop hpos
    · rw [Shared.set_stage_of_ne _ hne]
      exact hstage'
  · have hothers : ∀ u, u ≠ t → (w.hist.record t (.claimPush x)).stage u (w.pc u) =
        w.hist.stage u (w.pc u) := fun u hu => hS.stage_claimPush hu fun j q hpc => by
      have := popNo_lt hS.popTickets hpc
      omega
    rcases Nat.lt_or_ge w.hist.pushes (w.hist.pops + D.ring.slots) with hlt | hfull
    · rw [World.shared_next (History.contents_claimPush hge hlt) (hself.trans (if_pos hlt)) hothers]
      refine .one (.take hstage (boundedQueue_push hop ?_))
      rw [World.shared_value, History.length_contents, History.entered, History.left]
      omega
    · -- no room: the call goes on waiting, so it is a `push`
      obtain rfl : op = .push x := hop.resolve_right fun h => by
        have := hroom h.2
        omega
      rw [World.shared_next (History.contents_claimPush_full hfull)
        (hself.trans (if_neg (by omega))) hothers, ← hstage, ← World.shared_value, Shared.set_self]
      exact .nil _

/-- **A claim on `tail_`** is the moment of the pop where there is an element
for it, and of the push that waits for its room, if one does. -/
theorem Sound.path_claimPop (hS : Sound w) (ho : Channels.Ordered D.ring.slotOf w.hist.chan)
    (hturn : w.Unturned) {tail : Word} {m : Mem D} {i : Fin D.ring.slots} {p : D.layout.Pop}
    (hc : ClaimsPop w.mem (w.pc t) tail)
    (hsome : (w.pc t).tryingPop = true → w.hist.pops < w.hist.pushes) :
    Shared.Path (boundedQueue T D.ring.slots) w.shared []
      (w.next t m (.doPop i p) .claimPop).shared := by
  have hpos := D.ring.size_pos
  obtain ⟨op, hstage, hop⟩ := hc.stage
  have hno : (w.hist.record t .claimPop).popNo t = w.hist.pops := Function.update_self ..
  have hpush : ∀ y j q, w.pc t ≠ .doPush y j q := by
    intro y j q hpc
    have hst := hc.status.1
    rw [hpc, Pc.pushStatus] at hst
    split at hst <;> cases hst
  rcases Nat.lt_or_ge w.hist.pops w.hist.pushes with hlt | hge
  · obtain ⟨y, hy, hcons⟩ := History.contents_eq_cons hpos hlt
    have hself : (w.hist.record t .claimPop).stage t (.doPop i p) = .served (.element y) := by
      have hgiven : (w.hist.record t .claimPop).given w.hist.pops = some y := by
        rw [History.given, History.left, History.record_claimPop_pops,
          History.record_claimPop_pushes, if_pos (by omega)]
        exact hy
      rw [History.stage, hno, hgiven]
    rcases Nat.lt_or_ge (w.hist.pops + D.ring.slots) w.hist.pushes with hfull | hle
    · -- the push a lap later waits, and takes effect after the pop
      obtain ⟨t', x', i', p', hpc', hno'⟩ := hS.exists_push ho hturn hfull
      have hne : t' ≠ t := by
        rintro rfl
        exact hpush x' i' p' hpc'
      have hx' : w.hist.element (w.hist.pops + D.ring.slots) = some x' := by
        rw [← hno', History.element, (push_claim hS.pushTickets hpc').1, Option.map_some]
      have hstage' : w.shared.stage t' = .waits (.push x') := by
        rw [World.shared_stage, hpc', History.stage, hno', History.entered, if_neg (by omega)]
      have hdone : (w.hist.record t .claimPop).stage t' (w.pc t') = .served .done := by
        rw [hpc', History.stage, History.record_pushNo_of_ne _ hne, hno', History.entered,
          History.record_claimPop_pops, History.record_claimPop_pushes, if_pos (by omega)]
      rw [World.shared_next_helped _ hne (History.contents_claimPop_full hpos hfull hx') hself hdone
        fun u hu hu' => hS.stage_claimPop hu fun z j q hpc heq =>
          hu' (hS.pushNo_inj hpc hpc' (heq.trans hno'.symm))]
      refine (Shared.Path.one (.take hstage ?_)).append
        (.one (.take ?_ (boundedQueue_push (b := True) (Or.inl rfl) ?_)))
      · rw [World.shared_value, hcons]
        exact boundedQueue_pop hop
      · rw [Shared.set_stage_of_ne _ hne]
        exact hstage'
      · have hlen : w.hist.contents.length = D.ring.slots := by
          rw [History.length_contents, History.entered, History.left, min_eq_right hfull.le,
            min_eq_right hlt.le, Nat.add_sub_cancel_left]
        rw [hcons, List.length_cons] at hlen
        rw [Shared.set_value]
        omega
    · rw [World.shared_next (History.contents_claimPop hlt hle) hself
        fun u hu => hS.stage_claimPop hu fun z j q hpc => by
          have := pushNo_lt hS.pushTickets hpc
          omega]
      refine .one (.take hstage ?_)
      rw [World.shared_value, hcons]
      exact boundedQueue_pop hop
  · -- no element: the call goes on waiting, so it is a `pop`
    obtain rfl : op = .pop := hop.resolve_right fun h => by
      have := hsome h.2
      omega
    have hself : (w.hist.record t .claimPop).stage t (.doPop i p) = .waits .pop := by
      rw [History.stage, hno, History.given, History.left, History.record_claimPop_pushes,
        if_neg (by omega)]
    have hempty : (w.hist.record t .claimPop).contents = w.hist.contents := by
      rw [History.contents_eq_nil hge, History.contents_eq_nil (by
        rw [History.record_claimPop_pushes, History.record_claimPop_pops]; omega)]
    rw [World.shared_next hempty hself fun u hu => hS.stage_claimPop hu fun z j q hpc => by
        have := pushNo_lt hS.pushTickets hpc
        omega, ← hstage, ← World.shared_value, Shared.set_self]
    exact .nil _

/-! ## What is seen of a step -/

omit [DecidableEq ι] in
theorem World.visible_of_advance {weak : Bool} {r : Mem D × Pc D × Event T D.ring.slots}
    (h : D.advance weak w.mem (w.pc t) = some r) :
    w.visible (.step t weak) = r.2.2.visible t := by
  rw [visible, h]

omit [DecidableEq ι] in
/-- A quiet step shows what its event does, whether or not the exchange it
stands for fails spuriously. -/
theorem Quiet.exists_advance {m : Mem D} {pc pc' : Pc D} {e : Event T D.ring.slots}
    (hq : Quiet m pc pc' e) (weak : Bool) (t : ι) :
    ∃ r, D.advance weak m pc = some r ∧ r.2.2.visible t = e.visible t := by
  cases hq with
  | pushFull h | popEmpty h => exact ⟨_, if_pos h, rfl⟩
  | pushRoom h | popSome h => exact ⟨_, if_neg (not_le_of_gt h), rfl⟩
  | pushRetry hspsc | popRetry hspsc =>
    -- had the exchange succeeded, nothing would be seen of the claim either
    rw [Derived.advance, if_neg (by simp [hspsc])]
    split <;> exact ⟨_, rfl, rfl⟩
  | pushLoad hspsc | popLoad hspsc => exact ⟨_, if_pos hspsc, rfl⟩
  | _ => exact ⟨_, rfl, rfl⟩

omit [DecidableEq ι] in
/-- Nothing is seen of a claim. -/
theorem ClaimsPush.visible {head : Word} (hc : ClaimsPush w.mem (w.pc t) x head) (weak : Bool) :
    w.visible (.step t weak) = [] := by
  generalize hpc : w.pc t = pc₀ at hc
  rw [World.visible, hpc]
  cases hc with
  | tryPush =>
    rw [Derived.advance]
    split_ifs <;> rfl
  | push hspsc => rw [Derived.advance, if_neg (by simp [hspsc])]; rfl
  | store => rfl

omit [DecidableEq ι] in
theorem ClaimsPop.visible {tail : Word} (hc : ClaimsPop w.mem (w.pc t) tail) (weak : Bool) :
    w.visible (.step t weak) = [] := by
  generalize hpc : w.pc t = pc₀ at hc
  rw [World.visible, hpc]
  cases hc with
  | tryPop =>
    rw [Derived.advance]
    split_ifs <;> rfl
  | pop hspsc => rw [Derived.advance, if_neg (by simp [hspsc])]; rfl
  | store => rfl

omit [DecidableEq ι] in
/-- Of the steps in `do_push` the last one is seen, -/
theorem visible_push {weak : Bool} {i : Fin D.ring.slots} {p : D.layout.Push}
    (hpc : w.pc t = .doPush x i p) :
    w.visible (.step t weak) =
      match (D.layout.pushStep weak x (w.mem.cell i) p).2 with
      | .next _ => []
      | .done => [.reply t .done] := by
  rw [World.visible, hpc, Derived.advance, Derived.stepPush]
  cases h : (D.layout.pushStep weak x (w.mem.cell i) p).2 <;> rfl

omit [DecidableEq ι] in
/-- and of those in `do_pop`. -/
theorem visible_pop {weak : Bool} {i : Fin D.ring.slots} {p : D.layout.Pop}
    (hpc : w.pc t = .doPop i p) :
    w.visible (.step t weak) =
      match (D.layout.popStep weak (w.mem.cell i) p).2 with
      | .next _ => []
      | .done y => [.reply t (.element y)] := by
  rw [World.visible, hpc, Derived.advance, Derived.stepPop]
  cases h : (D.layout.popStep weak (w.mem.cell i) p).2 <;> rfl

/-! ## The simulation -/

omit [DecidableEq ι] in
/-- A call begins at a point where it waits. -/
theorem stage_entry {op : Op T} {pc : Pc D} {h : History D.ring.slots ι T}
    (hentry : D.entry op = some pc) : h.stage t pc = .waits op := by
  cases begins_of_entry hentry <;> rfl

/-- **A quiet step** is no step of the bounded queue, or the moment and the
return of a call that is refused or asks for the size. -/
theorem path_quiet {pc : Pc D} {e : Event T D.ring.slots} (weak : Bool)
    (hq : Quiet w.mem (w.pc t) pc e)
    (hfull : (w.pc t).tryingPush = true → pc = .idle →
      w.hist.pops + D.ring.slots ≤ w.hist.pushes)
    (hempty : (w.pc t).tryingPop = true → pc = .idle → w.hist.pushes ≤ w.hist.pops) :
    Shared.Path (boundedQueue T D.ring.slots) w.shared (w.visible (.step t weak))
      (w.next t w.mem pc e).shared := by
  obtain ⟨r, hr, hvis⟩ := hq.exists_advance weak t
  rw [World.visible_of_advance hr, hvis]
  have hrec := History.record_quiet (h := w.hist) (t := t) hq
  rw [World.shared_next_of_claims_eq (by rw [hrec]) (by rw [hrec]) (by rw [hrec]) (by rw [hrec])]
  -- where the call goes on, its stage stays
  have hstay : w.hist.stage t pc = w.hist.stage t (w.pc t) → e.visible t = [] →
      Shared.Path (boundedQueue T D.ring.slots) w.shared (e.visible t)
        (w.shared.set w.shared.value t (w.hist.stage t pc)) := by
    intro hstage hnone
    rw [hstage, hnone, ← World.shared_stage, Shared.set_self]
    exact .nil _
  -- where it ends, it takes effect and returns
  have hend : ∀ op r, w.hist.stage t (w.pc t) = .waits op →
      (boundedQueue T D.ring.slots).call w.hist.contents op r w.hist.contents →
      e.visible t = [.reply t r] → w.hist.stage t pc = .out →
      Shared.Path (boundedQueue T D.ring.slots) w.shared (e.visible t)
        (w.shared.set w.shared.value t (w.hist.stage t pc)) := by
    intro op r hstage hcall hreply hout
    rw [hout, hreply]
    exact .take_reply hstage hcall
  generalize w.pc t = pc₀ at hq hfull hempty hstay hend
  cases hq with
  | pushFull =>
    refine hend _ _ rfl (Or.inr ⟨?_, rfl, rfl⟩) rfl rfl
    have hle := hfull rfl rfl
    rw [History.length_contents, History.entered, History.left]
    omega
  | popEmpty =>
    exact hend _ _ rfl (Or.inr ⟨History.contents_eq_nil (hempty rfl rfl), rfl, rfl⟩) rfl rfl
  | sizedHead | sizedTail => exact hend _ _ rfl ⟨⟨_, rfl⟩, rfl⟩ rfl rfl
  | _ => exact hstay rfl rfl

/-- **Every step is a stretch of steps of the bounded queue.** -/
theorem Sound.path (hS : Sound w) (hS' : Sound w')
    (ho : Channels.Ordered D.ring.slotOf w.hist.chan)
    (ho' : Channels.Ordered D.ring.slotOf w'.hist.chan) (hturn : w.Unturned) (hturn' : w'.Unturned)
    (hB : w.Bounded) (hsize : D.ring.slots ≤ 2 ^ 30) (hcopy : ∀ t, Copied w.hist t (w.pc t))
    (hc : Change w a w') :
    Shared.Path (boundedQueue T D.ring.slots) w.shared (w.visible a) w'.shared := by
  cases hc with
  | @call t op pc hidle hentry =>
    rw [World.shared_next_of_claims_eq rfl rfl rfl rfl, stage_entry hentry]
    refine .one (.call ?_)
    rw [World.shared_stage, hidle]
    rfl
  | @quiet t weak pc e hq =>
    refine path_quiet weak hq ?_ ?_
    · intro htry hidle
      generalize hpc : w.pc t = pc₀ at hq htry
      cases hq with
      | pushFull h => exact hS.counted.full_of_refuse hB hsize (hcopy t) hpc h
      | popEmpty | sizedHead | sizedTail => cases htry
      | _ => cases hidle
    · intro htry hidle
      generalize hpc : w.pc t = pc₀ at hq htry
      cases hq with
      | popEmpty h => exact hS.counted.empty_of_refuse hB (hcopy t) hpc h
      | pushFull | sizedHead | sizedTail => cases htry
      | _ => cases hidle
  | @claimPush t weak x head hc =>
    rw [hc.visible]
    refine hS.path_claimPush ho hc fun htry => ?_
    have hhead := (hS.counted.thread t).head_eq hc
    generalize hpc : w.pc t = pc₀ at hc htry
    cases hc with
    | tryPush hor =>
      have hroom := hS.counted.room_of_claim (hcopy t) (hB.fresh (Or.inl (by rw [hpc]; rfl))) hpc
        hhead.symm
      rw [Ring.asSigned_size (by omega)] at hroom
      omega
    | push | store => cases htry
  | @claimPop t weak tail hc =>
    rw [hc.visible]
    refine hS.path_claimPop ho hturn hc fun htry => ?_
    have htail := (hS.counted.thread t).tail_eq hc
    generalize hpc : w.pc t = pc₀ at hc htry
    cases hc with
    | tryPop hor =>
      exact hS.counted.some_of_claim (hcopy t) (hB.fresh (Or.inr (by rw [hpc]; rfl))) hpc
        htail.symm
    | pop | store => cases htry
  | @pushNext t weak x i p p' hpc h =>
    rw [visible_push hpc, h, World.shared_next_of_claims_eq History.record_pushAt_pushes
      History.record_pushAt_pops rfl rfl]
    have hstage : w.hist.stage t (.doPush x i p') = w.shared.stage t := by
      rw [World.shared_stage, hpc]
      rfl
    rw [hstage, Shared.set_self]
    exact .nil _
  | @pushDone t weak x i p hpc h =>
    rw [visible_push hpc, h, World.shared_next_of_claims_eq History.record_pushAt_pushes
      History.record_pushAt_pops rfl rfl]
    -- the push returned has won its slot, so it has taken effect
    have hput := hS'.put_entered ho' hturn' (hS'.pushTickets.done_served (w.hist.pushNo t)
      (by simp [World.pushTickets, History.record, History.returns]))
    refine .one (.reply ?_)
    rw [World.shared_stage, hpc, History.stage, if_pos]
    rwa [World.next_hist, History.entered_congr History.record_pushAt_pushes
      History.record_pushAt_pops] at hput
  | @popNext t weak i p p' hpc h =>
    rw [visible_pop hpc, h, World.shared_next_of_claims_eq History.record_popAt_pushes
      History.record_popAt_pops rfl rfl]
    have hstage : w.hist.stage t (.doPop i p') = w.shared.stage t := by
      rw [World.shared_stage, hpc]
      rfl
    rw [hstage, Shared.set_self]
    exact .nil _
  | @popDone t weak i p x hpc h =>
    rw [visible_pop hpc, h, World.shared_next_of_claims_eq History.record_popAt_pushes
      History.record_popAt_pops rfl rfl]
    have hmem : w.hist.returns t (w.hist.popNo t) x ∈
        (w.next t (w.mem.set i (D.layout.popStep weak (w.mem.cell i) p).1) .idle
          (.popAt i (D.popWins p (.done x)) (some x))).hist.received := by
      simp [History.record]
    have htook := hS'.take_left ho' (hS'.popTickets.done_served (w.hist.popNo t)
      (List.mem_map_of_mem hmem))
    have hx := received_of_ordered hS' ho' _ hmem
    have hgiven : w.hist.given (w.hist.popNo t) = some x :=
      (History.given_congr History.record_popAt_pushes History.record_popAt_pops).symm.trans
        ((if_pos htook).trans hx)
    refine .one (.reply ?_)
    rw [World.shared_stage, hpc, History.stage, hgiven]

theorem unturned_init : (World.init D ι).Unturned := Or.inr (Nat.two_pow_pos 32)

theorem unturned_of_run (hok : ∀ w a w', ok w a w' → w'.Unturned) (hr : (machine D ι).Run ok w) :
    w.Unturned :=
  hr.invariant (I := World.Unturned) unturned_init fun w a w' _ _ _ h => hok w a w' h

theorem shared_init : (World.init D ι).shared = Shared.init (boundedQueue T D.ring.slots) := rfl

/-- **Where nobody is overtaken the queue is linearizable**: every history
of calls and returns, of `push`, `pop`, `try_push` and `try_pop` by any
number of threads, is one of the bounded queue. The size is at most `2 ^ 30`,
the counts of claims stay near each other, and with `spsc_` one thread pushes
and one pops. -/
theorem linearizable_of_inTurn (hok : Proper D ok) (hsize : D.ring.slots ≤ 2 ^ 30)
    (hturn : ∀ w a w', (machine D ι).Run ok w → ok w a w' → InTurn w a w')
    (hbound : ∀ {w}, (machine D ι).Run ok w → w.Bounded ∧ w.Unturned)
    {es : List (Visible ι (Op T) (Answer T))} (h : (machine D ι).Seen ok World.visible es w) :
    Linearizable (boundedQueue T D.ring.slots) es := by
  have hordered : ∀ {w}, (machine D ι).Run ok w →
      Channels.Ordered D.ring.slotOf w.hist.chan := fun hr =>
    Channels.ordered_of_run (inTurn_of_run hok hturn hr)
  refine Object.linearizable_of_simulation World.shared shared_init ?_ h
  intro w a w' hr hs hstep
  have hr' : (machine D ι).Run ok w' := .step hr hs hstep
  exact (sound_of_run hok hr).path (sound_of_run hok hr') (hordered hr) (hordered hr')
    (hbound hr).2 (hbound hr').2 (hbound hr).1 hsize
    (copied_of_run hok (fun hr => (hbound hr).1.close) hr) (change_of_step hs)

/-- A pop that waits for the push of another thread, while a third one is
refused. -/
theorem linearizable_of_inTurn_run :
    Linearizable (ι := Fin 3) (boundedQueue ℕ 2)
      [.call 2 .pop, .call 0 (.push 5), .reply 0 .done, .call 1 .tryPop, .reply 1 .refused,
        .reply 2 (.element 5)] := by
  obtain ⟨w, hw⟩ := (machine (twoSlots false (.atomic 0)) (Fin 3)).exists_seen_of_watch
    (fun w a w' => InTurn w a w' ∧ w'.Bounded) World.visible
    (Act.run 2 .pop 1 ++ Act.run 0 (.push 5) 2 ++ Act.run 1 .tryPop 2 ++ [.step 2 false])
    [.call 2 .pop, .call 0 (.push 5), .reply 0 .done, .call 1 .tryPop, .reply 1 .refused,
      .reply 2 (.element 5)] (by decide)
  exact linearizable_of_inTurn (proper_of_not_spsc rfl) (by decide) (fun _ _ _ _ h => h.1)
    (fun hr => ⟨bounded_of_run (fun _ _ _ h => h.2) hr, Or.inl ⟨1, rfl⟩⟩) hw

end AtomicQueue
