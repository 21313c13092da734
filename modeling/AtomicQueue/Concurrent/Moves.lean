import AtomicQueue.Concurrent.Drain
import AtomicQueue.Concurrent.Progress
/-!
# Who moves the queue on

What the calls have done is counted: claims, slots won and returns. A step
that adds nothing leaves the channels and the counters alone, so a thread
that could move still can. It can if it has won a slot, or waits for one
that is in the state it waits for; or, before its claim, if there is room
or an element for it. From there its own steps add to the count within
`Pc.near`, where no exchange fails spuriously.
-/

namespace AtomicQueue

variable {T ι : Type} [DecidableEq T] {D : Derived T}
variable {w w' : World D ι} {a : Act ι T} {t u : ι} {i : Fin D.ring.slots} {x : T}
variable {m m' : Mem D} {pc pc' : Pc D} {e : Event T D.ring.slots}

/-! ## What has been done -/

/-- What the calls have done. -/
def World.events (w : World D ι) : ℕ :=
  w.hist.pushes + w.hist.pops + w.hist.chan.puts.length + w.hist.chan.takes.length +
    w.hist.stored.length + w.hist.received.length

/-- Nobody has won slot `i`. -/
def World.Free (w : World D ι) (i : Fin D.ring.slots) : Prop := ∀ t, (w.pc t).owns ≠ some i

/-- **A step that adds nothing.** -/
structure Still (w w' : World D ι) : Prop where
  events : w'.events = w.events
  chan : w'.hist.chan = w.hist.chan
  received : w'.hist.received = w.hist.received
  head : w'.mem.head_ = w.mem.head_
  tail : w'.mem.tail_ = w.mem.tail_
  free : ∀ i, w.Free i → w'.Free i
  slots : ∀ t, (w'.pc t).pushSlot = (w.pc t).pushSlot ∧ (w'.pc t).popSlot = (w.pc t).popSlot

/-! ## Who can move on a slot -/

/-- **Thread `t` can move on its slot**: it has won it, or finds it free and
in the state it waits for. -/
inductive World.Moves (w : World D ι) (t : ι) : Prop
  | owns {i : Fin D.ring.slots} (h : (w.pc t).owns = some i)
  | push {i : Fin D.ring.slots} (h : (w.pc t).pushWaits = some i) (hfree : w.Free i)
      (hcell : w.hist.chan.cell i = none)
  | pop {i : Fin D.ring.slots} (h : (w.pc t).popWaits = some i) (hfree : w.Free i)
      (hcell : w.hist.chan.cell i ≠ none)

/-- It can after a step of another thread that adds nothing. -/
theorem World.Moves.of_still (h : w.Moves t) (hs : Still w w') (hpc : w'.pc t = w.pc t) :
    w'.Moves t := by
  cases h with
  | owns h => exact .owns (hpc ▸ h)
  | push h hfree hcell => exact .push (hpc ▸ h) (hs.free _ hfree) (by rw [hs.chan]; exact hcell)
  | pop h hfree hcell => exact .pop (hpc ▸ h) (hs.free _ hfree) (by rw [hs.chan]; exact hcell)

/-- A push that waits moves if its slot is free and empty, -/
theorem World.Moves.push_waits {p : D.layout.Push} (h : w.Moves t) (hpc : w.pc t = .doPush x i p)
    (hp : D.layout.pushOwns p = false) : w.Free i ∧ w.hist.chan.cell i = none := by
  cases h with
  | owns h => rw [hpc, Pc.owns_doPush, hp] at h; cases h
  | pop h => rw [hpc] at h; cases h
  | push h hfree hcell =>
    rw [hpc, Pc.pushWaits, hp] at h
    cases h
    exact ⟨hfree, hcell⟩

/-- and a pop if it is free and full. -/
theorem World.Moves.pop_waits {p : D.layout.Pop} (h : w.Moves t) (hpc : w.pc t = .doPop i p)
    (hp : D.layout.popOwns p = false) : w.Free i ∧ w.hist.chan.cell i ≠ none := by
  cases h with
  | owns h => rw [hpc, Pc.owns_doPop, hp] at h; cases h
  | push h => rw [hpc] at h; cases h
  | pop h hfree hcell =>
    rw [hpc, Pc.popWaits, hp] at h
    cases h
    exact ⟨hfree, hcell⟩

/-- Whoever can move is on a slot. -/
theorem World.Moves.slot (h : w.Moves t) :
    (w.pc t).pushSlot ≠ none ∨ (w.pc t).popSlot ≠ none := by
  cases hpc : w.pc t with
  | doPush => exact Or.inl (Option.some_ne_none _)
  | doPop => exact Or.inr (Option.some_ne_none _)
  | _ => cases h with | owns h | push h | pop h => rw [hpc] at h; cases h

theorem moves_doPush {p : D.layout.Push} (hpc : w.pc t = .doPush x i p)
    (h : D.layout.pushOwns p = false → w.Free i ∧ w.hist.chan.cell i = none) : w.Moves t := by
  cases hp : D.layout.pushOwns p with
  | true => exact .owns (by rw [hpc, Pc.owns_doPush, if_pos hp])
  | false => exact .push (by rw [hpc, Pc.pushWaits, hp]; rfl) (h hp).1 (h hp).2

theorem moves_doPop {p : D.layout.Pop} (hpc : w.pc t = .doPop i p)
    (h : D.layout.popOwns p = false → w.Free i ∧ w.hist.chan.cell i ≠ none) : w.Moves t := by
  cases hp : D.layout.popOwns p with
  | true => exact .owns (by rw [hpc, Pc.owns_doPop, if_pos hp])
  | false => exact .pop (by rw [hpc, Pc.popWaits, hp]; rfl) (h hp).1 (h hp).2

/-- A free slot without a number is empty, -/
theorem Kept.holds_empty (hK : Kept w) (hfree : w.Free i) (hcell : w.hist.chan.cell i = none) :
    D.spec.Holds (w.mem.cell i) (.free none) := by
  obtain ⟨v, hv, hl⟩ := hK.free_of_unowned hfree
  cases v with
  | none => exact hv
  | some x =>
    obtain ⟨k, hk, -⟩ := hl.cell_of_full
    rw [hcell] at hk
    cases hk

/-- and one with a number is full. -/
theorem Kept.holds_full (hK : Kept w) (hfree : w.Free i) (hcell : w.hist.chan.cell i ≠ none) :
    ∃ x, D.spec.Holds (w.mem.cell i) (.free (some x)) := by
  obtain ⟨v, hv, hl⟩ := hK.free_of_unowned hfree
  cases v with
  | none => exact absurd hl.cell_of_empty hcell
  | some x => exact ⟨x, hv⟩

/-- The steps of a call to the next that adds to what has been done. With a
stale counter it may be refused first. -/
def Pc.near (m : Mem D) : Pc D → ℕ
  | .idle => 4
  | .tryPushLoad _ | .tryPopLoad => 3
  | .tryPushCheck _ head => if head = m.head_ then 2 else 5
  | .tryPushClaim _ head => if head = m.head_ then 1 else 3
  | .tryPopCheck tail => if tail = m.tail_ then 2 else 5
  | .tryPopClaim tail => if tail = m.tail_ then 1 else 3
  | .pushClaim _ | .popClaim => 2
  | .pushStore _ _ | .popStore _ => 1
  | .wasSizeLoad _ | .wasSizeHead _ | .wasSizeTail _ => 0
  | .doPush _ _ p => D.spec.pushRank p
  | .doPop _ p => D.spec.popRank p

theorem Pc.near_congr (hhead : m'.head_ = m.head_) (htail : m'.tail_ = m.tail_) :
    pc.near m' = pc.near m := by
  cases pc <;> simp only [Pc.near, hhead, htail]

/-! ## What a step does -/

variable [DecidableEq ι]

/-- A step outside the slots that claims nothing. -/
theorem still_next (hhist : (w.hist.record t e).chan = w.hist.chan)
    (hstored : (w.hist.record t e).stored = w.hist.stored)
    (hreceived : (w.hist.record t e).received = w.hist.received)
    (hhead : m.head_ = w.mem.head_) (htail : m.tail_ = w.mem.tail_)
    (howns : ∀ i, (w.pc t).owns ≠ some i → pc.owns ≠ some i)
    (hslots : pc.pushSlot = (w.pc t).pushSlot ∧ pc.popSlot = (w.pc t).popSlot) :
    Still w (w.next t m pc e) where
  events := by
    rw [World.events, World.next_hist, History.pushes, History.pops, hhist, hstored, hreceived,
      World.events]
  chan := hhist
  received := hreceived
  head := hhead
  tail := htail
  free i hfree := free_next (howns i (hfree t)) fun t' _ => hfree t'
  slots u := by
    rcases eq_or_ne u t with rfl | hne
    · rwa [World.next_pc_self]
    · rw [World.next_pc_of_ne hne]
      exact ⟨rfl, rfl⟩

/-- A quiet step is on no slot, -/
theorem Quiet.outside (h : Quiet m pc pc' e) : pc.pushSlot = none ∧ pc.popSlot = none := by
  cases h <;> exact ⟨rfl, rfl⟩

/-- nor is a claim. -/
theorem ClaimsPush.slots {head : Word} (h : ClaimsPush m pc x head) :
    pc.pushSlot = none ∧ pc.popSlot = none := by
  cases h <;> exact ⟨rfl, rfl⟩

theorem ClaimsPop.slots {tail : Word} (h : ClaimsPop m pc tail) :
    pc.pushSlot = none ∧ pc.popSlot = none := by
  cases h <;> exact ⟨rfl, rfl⟩

/-- Winning nothing a push owns what it did before. -/
theorem pushOwns_of_not_wins {p p' : D.layout.Push} (h : D.pushWins p (.next p') = false)
    (hp' : D.layout.pushOwns p' = true) : D.layout.pushOwns p = true := by
  simpa [Derived.pushWins, hp'] using h

theorem popOwns_of_not_wins {p p' : D.layout.Pop} (h : D.popWins p (.next p') = false)
    (hp' : D.layout.popOwns p' = true) : D.layout.popOwns p = true := by
  simpa [Derived.popWins, hp'] using h

/-- **Every step adds to what has been done or leaves it alone.** -/
theorem Kept.events_lt_or (hK : Kept w) (h : Change w a w') :
    w.events < w'.events ∨ Still w w' := by
  cases h with
  | call hidle hentry =>
    refine Or.inr (still_next rfl rfl rfl rfl rfl (fun i _ => by rw [entry_owns hentry]; simp) ?_)
    rw [hidle]
    exact entry_slots hentry
  | @quiet t weak pc e hq =>
    have hrec := History.record_quiet (h := w.hist) (t := t) hq
    exact Or.inr (still_next (by rw [hrec]) (by rw [hrec]) (by rw [hrec]) rfl rfl
      (fun i _ => by rw [hq.owns.2]; simp)
      (by rw [hq.outside.1, hq.outside.2]; exact hq.slots))
  | claimPush hc | claimPop hc =>
    refine Or.inl ?_
    simp only [World.events, World.next_hist, History.pushes, History.pops, History.record,
      Channels.push, Channels.pop, List.length_append, List.length_singleton]
    omega
  | @pushNext t weak x i p p' hpc ho =>
    cases hwins : D.pushWins p (.next p') with
    | true =>
      refine Or.inl ?_
      simp only [World.events, World.next_hist, History.pushes, History.pops, History.record,
        if_true, History.put, Channels.put, List.length_append, List.length_singleton]
      simp
    | false =>
      refine Or.inr (still_next rfl rfl rfl rfl rfl (fun j hj => ?_)
        (by rw [hpc]; exact ⟨rfl, rfl⟩))
      rw [Pc.owns_doPush]
      split
      · next hp' => rwa [hpc, Pc.owns_doPush, if_pos (pushOwns_of_not_wins hwins hp')] at hj
      · exact fun h => by cases h
  | @pushDone t weak x i p hpc ho =>
    refine Or.inl ?_
    simp only [World.events, World.next_hist, History.pushes, History.pops, History.record, if_true,
      List.length_append, List.length_singleton]
    split
    · simp only [History.put, Channels.put, List.length_append]
      omega
    · omega
  | @popNext t weak i p p' hpc ho =>
    cases hwins : D.popWins p (.next p') with
    | true =>
      -- a slot won is one with an element
      obtain ⟨φ, φ', hl, -, hm⟩ := hK.popMove weak hpc
      rw [ho] at hm
      obtain ⟨k, hk⟩ : ∃ k, w.hist.chan.cell i = some k := by
        cases hm with
        | win hp hp' =>
          obtain ⟨k, hk, -⟩ := hl.cell_of_full
          exact ⟨k, hk⟩
        | wait hp hp' => simp [Derived.popWins, hp'] at hwins
        | hold hp hp' => simp [Derived.popWins, hp] at hwins
      refine Or.inl ?_
      simp only [World.events, World.next_hist, History.pushes, History.pops, History.record,
        if_true, History.take, hk, Channels.take, List.length_append, List.length_singleton]
      simp
    | false =>
      refine Or.inr (still_next rfl rfl (List.append_nil _) rfl rfl (fun j hj => ?_)
        (by rw [hpc]; exact ⟨rfl, rfl⟩))
      rw [Pc.owns_doPop]
      split
      · next hp' => rwa [hpc, Pc.owns_doPop, if_pos (popOwns_of_not_wins hwins hp')] at hj
      · exact fun h => by cases h
  | @popDone t weak i p x hpc ho =>
    refine Or.inl ?_
    simp only [World.events, World.next_hist, History.pushes, History.pops, History.record,
      Option.map_some, Option.toList_some, List.length_append, List.length_singleton]
    split
    · rw [History.take]
      split
      · simp only [Channels.take, List.length_append]
        omega
      · omega
    · omega

/-- **Its own step adds to what has been done or comes nearer.** -/
theorem Sound.moves_step (hS : Sound w) (h : w.Moves t) (hc : Change w (.step t false) w') :
    w.events < w'.events ∨
      Still w w' ∧ w'.Moves t ∧ (w'.pc t).near w'.mem < (w.pc t).near w.mem := by
  rcases hS.events_lt_or hc with hlt | hs
  · exact Or.inl hlt
  refine Or.inr ⟨hs, ?_⟩
  have hslots := hs.slots t
  have hloc := hS.counted.thread t
  cases hc with
  | @pushNext _ _ x i p p' hpc ho =>
    rw [hpc] at hloc
    refine ⟨moves_doPush World.next_pc_self fun hp' => ?_, ?_⟩
    · have hp : D.layout.pushOwns p = false := by
        by_contra hp
        rw [D.spec.push_keeps (eq_true_of_ne_false hp) ho] at hp'
        cases hp'
      obtain ⟨hfree, hcell⟩ := h.push_waits hpc hp
      exact ⟨hs.free i hfree, by rwa [hs.chan]⟩
    · rw [World.next_pc_self, hpc]
      exact D.spec.push_progress hloc.2
        (fun hp => hS.holds_empty (h.push_waits hpc hp).1 (h.push_waits hpc hp).2) ho
  | @popNext _ _ i p p' hpc ho =>
    rw [hpc] at hloc
    refine ⟨moves_doPop World.next_pc_self fun hp' => ?_, ?_⟩
    · have hp : D.layout.popOwns p = false := by
        by_contra hp
        rw [D.spec.pop_keeps (eq_true_of_ne_false hp) ho] at hp'
        cases hp'
      obtain ⟨hfree, hcell⟩ := h.pop_waits hpc hp
      exact ⟨hs.free i hfree, by rwa [hs.chan]⟩
    · rw [World.next_pc_self, hpc]
      exact D.spec.pop_progress hloc.2
        (fun hp => hS.holds_full (h.pop_waits hpc hp).1 (h.pop_waits hpc hp).2) ho
  -- a return or a claim adds to it, and all other steps are on no slot
  | pushDone hpc ho =>
    rw [hpc, World.next_pc_self] at hslots
    cases hslots.1
  | popDone hpc ho =>
    rw [hpc, World.next_pc_self] at hslots
    cases hslots.2
  | claimPush hc =>
    rw [World.next_pc_self, hc.slots.1] at hslots
    cases hslots.1
  | claimPop hc =>
    rw [World.next_pc_self, hc.slots.2] at hslots
    cases hslots.2
  | quiet hq => exact absurd h.slot (by simp [hq.outside])

/-! ## Before the claim -/

omit [DecidableEq ι] in
/-- **Where there is room a push comes nearer its claim**, once its `head`
is not stale. -/
theorem near_push (hadv : D.advance false m pc = some (m', pc', e)) (hoffers : pc.offers ≠ none)
    (hslot : pc.pushSlot = none) (hroom : asSigned (m.head_ - m.tail_) < asSigned D.ring.size_) :
    pc'.pushSlot ≠ none ∨ m' = m ∧ pc'.near m < pc.near m := by
  cases pc with
  | tryPushLoad x =>
    cases hadv
    exact Or.inr ⟨rfl, by simp [Pc.near]⟩
  | tryPushCheck x head =>
    rw [Derived.advance] at hadv
    by_cases hhead : head = m.head_
    · subst hhead
      rw [if_neg (not_le.mpr hroom)] at hadv
      cases hadv
      exact Or.inr ⟨rfl, by simp [Pc.near]⟩
    · split at hadv <;> cases hadv <;> exact Or.inr ⟨rfl, by simp [Pc.near, hhead]⟩
  | tryPushClaim x head =>
    rw [Derived.advance] at hadv
    split at hadv
    · cases hadv
      exact Or.inl (Option.some_ne_none _)
    · split at hadv <;> cases hadv
      · exact Or.inl (Option.some_ne_none _)
      · next hne =>
        have hstale : head ≠ m.head_ := fun h => hne ⟨h.symm, rfl⟩
        exact Or.inr ⟨rfl, by simp [Pc.near, hstale]⟩
  | pushClaim x =>
    rw [Derived.advance] at hadv
    split at hadv <;> cases hadv
    · exact Or.inr ⟨rfl, by simp [Pc.near]⟩
    · exact Or.inl (Option.some_ne_none _)
  | pushStore x head =>
    cases hadv
    exact Or.inl (Option.some_ne_none _)
  | doPush x i p => cases hslot
  | _ => exact absurd rfl hoffers

omit [DecidableEq ι] in
/-- **Where there is an element a pop comes nearer its claim**, once its
`tail` is not stale. -/
theorem near_pop (hadv : D.advance false m pc = some (m', pc', e)) (hpopping : pc.popping = true)
    (hslot : pc.popSlot = none) (hsome : 0 < asSigned (m.head_ - m.tail_)) :
    pc'.popSlot ≠ none ∨ m' = m ∧ pc'.near m < pc.near m := by
  cases pc with
  | tryPopLoad =>
    cases hadv
    exact Or.inr ⟨rfl, by simp [Pc.near]⟩
  | tryPopCheck tail =>
    rw [Derived.advance] at hadv
    by_cases htail : tail = m.tail_
    · subst htail
      rw [if_neg (not_le.mpr hsome)] at hadv
      cases hadv
      exact Or.inr ⟨rfl, by simp [Pc.near]⟩
    · split at hadv <;> cases hadv <;> exact Or.inr ⟨rfl, by simp [Pc.near, htail]⟩
  | tryPopClaim tail =>
    rw [Derived.advance] at hadv
    split at hadv
    · cases hadv
      exact Or.inl (Option.some_ne_none _)
    · split at hadv <;> cases hadv
      · exact Or.inl (Option.some_ne_none _)
      · next hne =>
        have hstale : tail ≠ m.tail_ := fun h => hne ⟨h.symm, rfl⟩
        exact Or.inr ⟨rfl, by simp [Pc.near, hstale]⟩
  | popClaim =>
    rw [Derived.advance] at hadv
    split at hadv <;> cases hadv
    · exact Or.inr ⟨rfl, by simp [Pc.near]⟩
    · exact Or.inl (Option.some_ne_none _)
  | popStore tail =>
    cases hadv
    exact Or.inl (Option.some_ne_none _)
  | doPop i p => cases hslot
  | _ => cases hpopping

/-- A thread in a call can take its next step. -/
theorem exists_step (weak : Bool) (h : w.pc t ≠ .idle) :
    ∃ m' pc' e, D.advance weak w.mem (w.pc t) = some (m', pc', e) ∧
      (machine D ι).step w (.step t weak) = some (w.next t m' pc' e) := by
  have hsome : (D.advance weak w.mem (w.pc t)).isSome := by
    generalize w.pc t = pc at h
    cases pc with
    | idle => exact absurd rfl h
    | _ =>
      simp only [Derived.advance]
      repeat' split
      all_goals rfl
  obtain ⟨⟨m', pc', e⟩, hadv⟩ := Option.isSome_iff_exists.mp hsome
  refine ⟨m', pc', e, hadv, ?_⟩
  change ((w.toState.step (.step t weak)).map _) = _
  rw [State.step, hadv]
  rfl

/-! ## The counters -/

omit [DecidableEq ι] in
/-- No more was taken than was claimed on either side. -/
theorem Sound.takes_le (hS : Sound w) :
    w.hist.chan.takes.length ≤ w.hist.pops ∧ w.hist.chan.takes.length ≤ w.hist.pushes := by
  constructor
  · have hsub := List.subperm_of_subset hS.chan.takes_nodup fun m hm =>
      List.mem_range.mpr (hS.chan.takes_fst_lt m hm)
    simpa using hsub.length_le
  · have hsub : (w.hist.chan.takes.map Prod.snd).Subperm (List.range w.hist.pushes) := by
      refine List.subperm_of_subset hS.chan.sources_nodup fun k hk => ?_
      obtain ⟨⟨m, k⟩, hmem, rfl⟩ := List.mem_map.mp hk
      exact List.mem_range.mpr (hS.chan.puts_lt k (hS.chan.source_mem m k hmem))
    simpa using hsub.length_le

section

variable [Fintype ι]

omit [DecidableEq ι] in
/-- **Pops are ahead of pushes by no more than the threads**: a number not
taken is that of a thread that waits. -/
theorem Sound.pops_le (hS : Sound w) : w.hist.pops ≤ w.hist.pushes + Fintype.card ι := by
  have hsub : Finset.range w.hist.pops ⊆
      (w.hist.chan.takes.map Prod.fst).toFinset ∪ Finset.univ.image w.hist.popNo := by
    intro k hk
    by_cases htook : k ∈ w.hist.chan.takes.map Prod.fst
    · exact Finset.mem_union_left _ (List.mem_toFinset.mpr htook)
    · obtain ⟨t, p, -, -, rfl⟩ := hS.waits_pop hS.popTickets (Finset.mem_range.mp hk) htook
      exact Finset.mem_union_right _ (Finset.mem_image_of_mem _ (Finset.mem_univ t))
  have hcard := (Finset.card_le_card hsub).trans (Finset.card_union_le _ _)
  have htakes := List.toFinset_card_le (w.hist.chan.takes.map Prod.fst)
  have hthreads : (Finset.univ.image w.hist.popNo).card ≤ Fintype.card ι := Finset.card_image_le
  rw [Finset.card_range] at hcard
  rw [List.length_map] at htakes
  have hle := hS.takes_le.2
  omega

omit [DecidableEq ι] in
/-- **Pushes are ahead of pops by no more than the slots and the threads**:
a number not taken is in a slot or that of a thread that waits. -/
theorem Sound.pushes_le (hS : Sound w) :
    w.hist.pushes ≤ w.hist.pops + D.ring.slots + Fintype.card ι := by
  have hsub : Finset.range w.hist.pushes ⊆ (w.hist.chan.takes.map Prod.snd).toFinset ∪
      Finset.univ.image (fun i => (w.hist.chan.cell i).getD 0) ∪
        Finset.univ.image w.hist.pushNo := by
    intro k hk
    by_cases hput : k ∈ w.hist.chan.puts
    · by_cases htaken : k ∈ w.hist.chan.takes.map Prod.snd
      · exact Finset.mem_union_left _ (Finset.mem_union_left _ (List.mem_toFinset.mpr htaken))
      · have hcell := (hS.chan.cell_iff (D.ring.slotOf k) k).mpr ⟨hput, rfl, htaken⟩
        exact Finset.mem_union_left _ (Finset.mem_union_right _
          (Finset.mem_image.mpr ⟨_, Finset.mem_univ _, by rw [hcell]; rfl⟩))
    · obtain ⟨t, x, p, -, -, rfl⟩ := hS.waits_push (Finset.mem_range.mp hk) hput
      exact Finset.mem_union_right _ (Finset.mem_image_of_mem _ (Finset.mem_univ t))
  have hcard := (Finset.card_le_card hsub).trans (Finset.card_union_le _ _)
  have hunion := Finset.card_union_le (w.hist.chan.takes.map Prod.snd).toFinset
    (Finset.univ.image fun i => (w.hist.chan.cell i).getD 0)
  have htakes := List.toFinset_card_le (w.hist.chan.takes.map Prod.snd)
  have hslots : (Finset.univ.image fun i => (w.hist.chan.cell i).getD 0).card ≤ D.ring.slots :=
    Finset.card_image_le.trans (Finset.card_fin _).le
  have hthreads : (Finset.univ.image w.hist.pushNo).card ≤ Fintype.card ι := Finset.card_image_le
  rw [Finset.card_range] at hcard
  rw [List.length_map] at htakes
  have hle := hS.takes_le.1
  omega

omit [DecidableEq ι] in
/-- The counters tell how far ahead pushes are. -/
theorem Sound.asSigned_sub (hS : Sound w) (hsize : D.ring.slots + Fintype.card ι < 2 ^ 31) :
    asSigned (w.mem.head_ - w.mem.tail_) = (w.hist.pushes : ℤ) - w.hist.pops := by
  have hpops := hS.pops_le
  have hpushes := hS.pushes_le
  rw [hS.counted.head_eq, hS.counted.tail_eq]
  exact Wrap.toInt_sub (by omega) (by omega) (by omega)

end

/-! ## Where nobody can move -/

section

variable (hno : ∀ t, ¬ w.Moves t)
include hno

omit [DecidableEq ι] in
/-- Whoever waits to pop finds its slot empty, -/
theorem cell_of_popWaits (h : (w.pc t).popWaits = some i) : w.hist.chan.cell i = none := by
  by_contra hcell
  exact hno t (.pop h (fun u hu => hno u (.owns hu)) hcell)

omit [DecidableEq ι] in
/-- and whoever waits to push finds it full. -/
theorem cell_of_pushWaits (h : (w.pc t).pushWaits = some i) : w.hist.chan.cell i ≠ none :=
  fun hcell => hno t (.push h (fun u hu => hno u (.owns hu)) hcell)

variable (hS : Sound w)
variable (hchan :
  (Channels.machine (Ticket ι T) (Ticket ι Unit) D.ring.slotOf).Reachable w.hist.chan)
include hS hchan

omit [DecidableEq ι] in
/-- **Where a pop is in flight pops are ahead.** -/
theorem pushes_lt_of_popSlot (h : (w.pc t).popSlot = some i) : w.hist.pushes < w.hist.pops := by
  obtain ⟨p, hpc⟩ := Pc.popSlot_eq.mp h
  have hp : D.layout.popOwns p = false := by
    by_contra hp
    exact hno t (.owns (by rw [hpc, Pc.owns_doPop, if_pos (eq_true_of_ne_false hp)]))
  have hcell := cell_of_popWaits hno (t := t) (i := i) (by rw [hpc, Pc.popWaits, hp]; rfl)
  refine Channels.pushes_lt_pops_of_waits hchan (fun k hk hslot => ?_) hcell
    (popNo_lt hS.popTickets hpc) (hS.slotOf_popNo hpc) fun htook => ?_
  · by_contra hput
    obtain ⟨u, x, q, hpcu, hq, -⟩ := hS.waits_push hk hput
    exact cell_of_pushWaits hno (t := u) (by rw [hpcu, Pc.pushWaits, hq, hslot]; rfl) hcell
  · rw [(pop_claim hS.popTickets hpc).2.1.mp htook] at hp
    cases hp

omit [DecidableEq ι] in
/-- **Where a push is in flight pushes are more than a lap ahead.** -/
theorem pops_lt_of_pushSlot (hpow : D.ring.PowerOfTwo) (h : (w.pc t).pushSlot = some i) :
    w.hist.pops + D.ring.slots < w.hist.pushes := by
  obtain ⟨x, p, hpc⟩ := Pc.pushSlot_eq.mp h
  have hp : D.layout.pushOwns p = false := by
    by_contra hp
    exact hno t (.owns (by rw [hpc, Pc.owns_doPush, if_pos (eq_true_of_ne_false hp)]))
  have hcell := cell_of_pushWaits hno (t := t) (i := i) (by rw [hpc, Pc.pushWaits, hp]; rfl)
  have hload := Channels.load_of_waits hchan (s := i) (k := w.hist.pushNo t)
    (fun m hm hslot => ?_) hcell (pushNo_lt hS.pushTickets hpc) (hS.slotOf_pushNo hpc)
    (fun hput => by rw [(push_claim hS.pushTickets hpc).2.1.mp hput] at hp; cases hp)
  · by_contra hle
    rw [History.pushes, History.pops] at hle
    have hone : Channels.load D.ring.slotOf w.hist.chan.pushes.length i ≤
        Channels.load D.ring.slotOf w.hist.chan.pops.length i + 1 :=
      Channels.load_le_succ fun k k' hk hkk' hk' => hpow.slotOf_ne hkk' (by omega)
    omega
  · by_contra htook
    obtain ⟨u, q, hpcu, hq, -⟩ := hS.waits_pop hS.popTickets hm htook
    exact hcell (cell_of_popWaits hno (t := u) (by rw [hpcu, Pc.popWaits, hq, hslot]; rfl))

omit [DecidableEq ι] in
/-- **Where no push is in flight and pops are not behind**, all that was
pushed has been received. -/
theorem received_eq_of_pushes_le (hpush : ∀ t, (w.pc t).pushSlot = none)
    (hle : w.hist.pushes ≤ w.hist.pops) :
    ((w.hist.received.map Return.element : List T) : Multiset T) =
      (w.hist.chan.pushes.map Ticket.datum : List T) := by
  have hput : ∀ i, Channels.NoPutWaits D.ring.slotOf w.hist.chan i := fun i =>
    hS.noPutWaits fun t => by rw [hpush t]; simp
  have hcell : ∀ i, w.hist.chan.cell i = none := by
    intro i
    by_cases htake : Channels.NoTakeWaits D.ring.slotOf w.hist.chan i
    · exact (Channels.noPutWaits_of_served hchan (Channels.load_mono hle) htake).2
    · rw [Channels.NoTakeWaits] at htake
      push Not at htake
      obtain ⟨m, hm, hslot, htook⟩ := htake
      obtain ⟨t, q, hpc, hq, -⟩ := hS.waits_pop hS.popTickets hm htook
      exact cell_of_popWaits hno (t := t) (by rw [hpc, Pc.popWaits, hq, hslot]; rfl)
  -- everything put has been taken, and every pop that took has returned
  have htaken : w.hist.pushes ≤ w.hist.chan.takes.length := by
    have hsub : (List.range w.hist.pushes).Subperm (w.hist.chan.takes.map Prod.snd) := by
      refine List.subperm_of_subset List.nodup_range fun k hk => ?_
      by_contra hnot
      have hmem := (hS.chan.cell_iff (D.ring.slotOf k) k).mpr
        ⟨hput _ k (List.mem_range.mp hk) rfl, rfl, hnot⟩
      rw [hcell] at hmem
      cases hmem
    simpa using hsub.length_le
  have hdone : w.hist.chan.takes.length ≤ w.hist.received.length := by
    have hsub : (w.hist.chan.takes.map Prod.fst).Subperm (w.hist.received.map Return.no) := by
      refine List.subperm_of_subset hS.chan.takes_nodup fun m hm => ?_
      by_contra hnot
      obtain ⟨t, i, p, hpc, rfl⟩ := pop_pending hS.popTickets (hS.chan.takes_fst_lt m hm) hnot
      exact hno t (.owns (by
        rw [hpc, Pc.owns_doPop, if_pos ((pop_claim hS.popTickets hpc).2.1.mp hm)]))
    simpa using hsub.length_le
  refine Multiset.eq_of_le_of_card_le hS.received_le ?_
  rw [Multiset.coe_card, Multiset.coe_card, List.length_map, List.length_map]
  exact htaken.trans hdone

end

end AtomicQueue
