import AtomicQueue.Concurrent.RealTime
/-!
# The decisions of `try_push` and `try_pop`

Each of them copies its own counter, reads the other one, and claims the
position copied if its counter has not moved since. The copy is the word
of a count that was right during the call (`Copied`). While the two counts
are within half the range of each other, a difference that passes the test
passes it for the counts; and while less than a whole turn of claims is
made during the call, a counter that still shows the copy has not moved.
-/

namespace AtomicQueue

variable {T ι : Type} [DecidableEq T] [DecidableEq ι] {D : Derived T}
variable {w w' : World D ι} {a : Act ι T} {t t' : ι} {x : T} {head tail : Word}
variable {ok : World D ι → Act ι T → World D ι → Prop}

/-- In `try_push`, before its claim. -/
def Pc.tryingPush : Pc D → Bool
  | .tryPushLoad _ | .tryPushCheck _ _ | .tryPushClaim _ _ => true
  | _ => false

/-- In `try_pop`, before its claim. -/
def Pc.tryingPop : Pc D → Bool
  | .tryPopLoad | .tryPopCheck _ | .tryPopClaim _ => true
  | _ => false

/-! ## The copies -/

/-- **What the copy of a counter is worth.** It is the word of a count
between that at the call and the current one, and past the test it is a
position in bounds. -/
def Copied (h : History D.ring.slots ι T) (t : ι) : Pc D → Prop
  | .tryPushCheck _ head =>
    ∃ p, head = BitVec.ofNat 32 p ∧ (h.entry t).pushes ≤ p ∧ p ≤ h.pushes
  | .tryPushClaim _ head =>
    ∃ p, head = BitVec.ofNat 32 p ∧ (h.entry t).pushes ≤ p ∧ p ≤ h.pushes ∧
      (p : ℤ) < h.pops + asSigned D.ring.size_
  | .tryPopCheck tail =>
    ∃ p, tail = BitVec.ofNat 32 p ∧ (h.entry t).pops ≤ p ∧ p ≤ h.pops
  | .tryPopClaim tail =>
    ∃ p, tail = BitVec.ofNat 32 p ∧ (h.entry t).pops ≤ p ∧ p ≤ h.pops ∧ p < h.pushes
  | _ => True

/-- The counts are within half a turn of each other. -/
def World.Close (w : World D ι) : Prop :=
  w.hist.pushes < w.hist.pops + 2 ^ 31 ∧ w.hist.pops ≤ w.hist.pushes + 2 ^ 31

omit [DecidableEq ι] in
/-- A copy keeps its worth as the counts grow. -/
theorem Copied.frame {h h' : History D.ring.slots ι T} {pc : Pc D} (hl : Copied h t pc)
    (hentry : h'.entry t = h.entry t) (hpushes : h.pushes ≤ h'.pushes) (hpops : h.pops ≤ h'.pops) :
    Copied h' t pc := by
  cases pc with
  | tryPushCheck x head =>
    obtain ⟨p, hp, hlo, hhi⟩ := hl
    exact ⟨p, hp, hentry ▸ hlo, hhi.trans hpushes⟩
  | tryPushClaim x head =>
    obtain ⟨p, hp, hlo, hhi, hroom⟩ := hl
    exact ⟨p, hp, hentry ▸ hlo, hhi.trans hpushes, by omega⟩
  | tryPopCheck tail =>
    obtain ⟨p, hp, hlo, hhi⟩ := hl
    exact ⟨p, hp, hentry ▸ hlo, hhi.trans hpops⟩
  | tryPopClaim tail =>
    obtain ⟨p, hp, hlo, hhi, hsome⟩ := hl
    exact ⟨p, hp, hentry ▸ hlo, hhi.trans hpops, by omega⟩
  | _ => trivial

omit [DecidableEq T] in
/-- **A test for full that fails** fails for the counts. -/
theorem lt_of_room {p pops : ℕ} (hfar : p < pops + 2 ^ 31)
    (h : asSigned (BitVec.ofNat 32 p - BitVec.ofNat 32 pops) < asSigned D.ring.size_) :
    (p : ℤ) < pops + asSigned D.ring.size_ := by
  have hsize : -(2 ^ 31 : ℤ) ≤ asSigned D.ring.size_ := BitVec.le_toInt _
  by_contra hge
  -- the difference is then at least the size, which is no less than the least word
  have hdiff : asSigned (BitVec.ofNat 32 p - BitVec.ofNat 32 pops) = (p : ℤ) - pops :=
    Wrap.toInt_sub (by omega) (by omega) (by omega)
  omega

/-- **A test for empty that fails** fails for the counts. -/
theorem lt_of_some {p pushes : ℕ} (hfar : p ≤ pushes + 2 ^ 31)
    (h : 0 < asSigned (BitVec.ofNat 32 pushes - BitVec.ofNat 32 p)) : p < pushes := by
  by_contra hge
  have hdiff : asSigned (BitVec.ofNat 32 pushes - BitVec.ofNat 32 p) = (pushes : ℤ) - p :=
    Wrap.toInt_sub (by omega) (by omega) (by omega)
  omega

omit [DecidableEq ι] in
/-- A copy just made is of the current count. -/
theorem Copied.quiet {m : Mem D} {h : History D.ring.slots ι T} {pc pc' : Pc D}
    {e : Event T D.ring.slots} (hl : Copied h t pc) (hq : Quiet m pc pc' e)
    (hhead : m.head_ = BitVec.ofNat 32 h.pushes) (htail : m.tail_ = BitVec.ofNat 32 h.pops)
    (hpushes : (h.entry t).pushes ≤ h.pushes) (hpops : (h.entry t).pops ≤ h.pops)
    (hfull : h.pushes < h.pops + 2 ^ 31) (hempty : h.pops ≤ h.pushes + 2 ^ 31) :
    Copied h t pc' := by
  cases hq with
  | tryPushLoad | pushRetry => exact ⟨h.pushes, hhead, hpushes, le_rfl⟩
  | tryPopLoad | popRetry => exact ⟨h.pops, htail, hpops, le_rfl⟩
  | pushRoom htest =>
    obtain ⟨p, rfl, hlo, hhi⟩ := hl
    rw [htail] at htest
    exact ⟨p, rfl, hlo, hhi, lt_of_room (by omega) htest⟩
  | popSome htest =>
    obtain ⟨p, rfl, hlo, hhi⟩ := hl
    rw [hhead] at htest
    exact ⟨p, rfl, hlo, hhi, lt_of_some (by omega) htest⟩
  | _ => trivial

/-- **Every step keeps the copies right**, while the counts are close. -/
theorem Copied.step (hC : Counted w) (hpush : w.PushTime) (hpop : w.PopTime) (hclose : w.Close)
    (h : ∀ t, Copied w.hist t (w.pc t)) (hc : Change w a w') : ∀ t, Copied w'.hist t (w'.pc t) := by
  have hnext : ∀ {t : ι} {m : Mem D} {pc : Pc D} {e : Event T D.ring.slots},
      Copied (w.hist.record t e) t pc →
      ∀ t', Copied (w.next t m pc e).hist t' ((w.next t m pc e).pc t') := by
    intro t m pc e hself t'
    rcases eq_or_ne t' t with rfl | hne
    · rw [World.next_pc_self]
      exact hself
    · rw [World.next_pc_of_ne hne]
      exact (h t').frame (History.record_entry_of_ne e hne) (History.record_pushes_le e)
        (History.record_pops_le e)
  cases hc with
  | @call t op pc hidle hentry =>
    refine hnext ?_
    cases begins_of_entry hentry <;> trivial
  | @quiet t weak pc e hq =>
    refine hnext ?_
    rw [History.record_quiet hq]
    exact ((h t).quiet hq hC.head_eq hC.tail_eq (hpush.entry_start t) (hpop.entry_start t) hclose.1
      hclose.2).frame rfl le_rfl le_rfl
  | claimPush hc => exact hnext trivial
  | claimPop hc => exact hnext trivial
  | pushNext hpc ho => exact hnext trivial
  | pushDone hpc ho => exact hnext trivial
  | popNext hpc ho => exact hnext trivial
  | popDone hpc ho => exact hnext trivial

theorem copied_init (t : ι) :
    Copied (World.init D ι).hist t ((World.init D ι).pc t) := by
  change Copied _ t .idle
  trivial

/-- **Every run whose counts stay close keeps the copies right.** -/
theorem copied_of_run (hok : Proper D ok) (hclose : ∀ {w}, (machine D ι).Run ok w → w.Close)
    (hr : (machine D ι).Run ok w) : ∀ t, Copied w.hist t (w.pc t) := by
  refine hr.invariant (I := fun w => ∀ t, Copied w.hist t (w.pc t)) copied_init ?_
  intro w a w' hr h hs _
  exact Copied.step (counted_of_run hok hr) (pushTime_of_run hr) (popTime_of_run hok hr)
    (hclose hr) h (change_of_step hs)

/-! ## The claims -/

/-- Less than a turn of claims was made during the call of thread `t`. -/
def World.Fresh (w : World D ι) (t : ι) : Prop :=
  w.hist.pushes < (w.hist.entry t).pushes + 2 ^ 32 ∧ w.hist.pops < (w.hist.entry t).pops + 2 ^ 32

omit [DecidableEq ι] in
/-- **A counter that shows the copy has not moved**, so `try_push` claims
only where there is room. -/
theorem Counted.room_of_claim (hC : Counted w) (hcopy : Copied w.hist t (w.pc t))
    (hfresh : w.Fresh t) (hpc : w.pc t = .tryPushClaim x head) (hhead : w.mem.head_ = head) :
    (w.hist.pushes : ℤ) < w.hist.pops + asSigned D.ring.size_ := by
  rw [hpc] at hcopy
  obtain ⟨p, rfl, hlo, hhi, hroom⟩ := hcopy
  rw [hC.head_eq] at hhead
  have hp : p = w.hist.pushes :=
    Wrap.eq_of_ofNat_eq hhead.symm hhi (by have := hfresh.1; omega)
  rwa [hp] at hroom

omit [DecidableEq ι] in
/-- And `try_pop` only where a push has claimed before. -/
theorem Counted.some_of_claim (hC : Counted w) (hcopy : Copied w.hist t (w.pc t))
    (hfresh : w.Fresh t) (hpc : w.pc t = .tryPopClaim tail) (htail : w.mem.tail_ = tail) :
    w.hist.pops < w.hist.pushes := by
  rw [hpc] at hcopy
  obtain ⟨p, rfl, hlo, hhi, hsome⟩ := hcopy
  rw [hC.tail_eq] at htail
  have hp : p = w.hist.pops :=
    Wrap.eq_of_ofNat_eq htail.symm hhi (by have := hfresh.2; omega)
  rwa [hp] at hsome

/-! ## Claims and refusals -/

/-- The counts of claims differ by less than `2 ^ 30`, and so do the counts
now from those at the call of any thread that has not decided yet. -/
structure World.Bounded (w : World D ι) : Prop where
  pushes_lt : w.hist.pushes < w.hist.pops + 2 ^ 30
  pops_lt : w.hist.pops < w.hist.pushes + 2 ^ 30
  during : ∀ t, (w.pc t).tryingPush = true ∨ (w.pc t).tryingPop = true →
    w.hist.pushes < (w.hist.entry t).pushes + 2 ^ 30 ∧
      w.hist.pops < (w.hist.entry t).pops + 2 ^ 30

instance [Fintype ι] : Decidable w.Bounded :=
  decidable_of_iff (w.hist.pushes < w.hist.pops + 2 ^ 30 ∧ w.hist.pops < w.hist.pushes + 2 ^ 30 ∧
      ∀ t, (w.pc t).tryingPush = true ∨ (w.pc t).tryingPop = true →
        w.hist.pushes < (w.hist.entry t).pushes + 2 ^ 30 ∧
          w.hist.pops < (w.hist.entry t).pops + 2 ^ 30)
    ⟨fun h => ⟨h.1, h.2.1, h.2.2⟩, fun h => ⟨h.pushes_lt, h.pops_lt, h.during⟩⟩

@[simp] theorem init_pushes : (World.init D ι).hist.pushes = 0 := rfl

@[simp] theorem init_pops : (World.init D ι).hist.pops = 0 := rfl

theorem bounded_init : (World.init D ι).Bounded where
  pushes_lt := by simp
  pops_lt := by simp
  during t h := by rcases h with h | h <;> cases h

theorem bounded_of_run (hok : ∀ w a w', ok w a w' → w'.Bounded) (hr : (machine D ι).Run ok w) :
    w.Bounded :=
  hr.invariant (I := World.Bounded) bounded_init fun w a w' _ _ _ h => hok w a w' h

omit [DecidableEq ι] in
theorem World.Bounded.close (h : w.Bounded) : w.Close := by
  have hpushes := h.pushes_lt
  have hpops := h.pops_lt
  exact ⟨by omega, by omega⟩

omit [DecidableEq ι] in
theorem World.Bounded.fresh (h : w.Bounded)
    (ht : (w.pc t).tryingPush = true ∨ (w.pc t).tryingPop = true) : w.Fresh t := by
  obtain ⟨hpushes, hpops⟩ := h.during t ht
  exact ⟨by omega, by omega⟩

/-- **The step of thread `t` from `w` to `w'` decides rightly.** A position
claimed by `try_push` is less than a lap ahead of the pops, and one claimed
by `try_pop` behind the pushes; and when `try_push` returns `false` the
pushes are a lap ahead, when `try_pop` does the pops are not behind. -/
structure Decides (w : World D ι) (t : ι) (w' : World D ι) : Prop where
  push_room : (w.pc t).tryingPush = true → (w'.pc t).pushSlot ≠ none →
    w'.hist.pushNo t < w.hist.pops + D.ring.slots
  pop_some : (w.pc t).tryingPop = true → (w'.pc t).popSlot ≠ none →
    w'.hist.popNo t < w.hist.pushes
  push_full : (w.pc t).tryingPush = true → w'.pc t = .idle →
    w.hist.pops + D.ring.slots ≤ w.hist.pushes
  pop_empty : (w.pc t).tryingPop = true → w'.pc t = .idle → w.hist.pushes ≤ w.hist.pops

omit [DecidableEq ι] in
/-- A thread that is not about to decide decides nothing. -/
theorem decides_of_not_trying (hpush : (w.pc t).tryingPush = false)
    (hpop : (w.pc t).tryingPop = false) : Decides w t w' := by
  constructor
  all_goals
    intro h
    first
      | rw [hpush] at h; cases h
      | rw [hpop] at h; cases h

omit [DecidableEq ι] in
/-- **A refusal is right at the moment it is made**: the copy is no later
than the counter. -/
theorem Counted.full_of_refuse (hC : Counted w) (hB : w.Bounded) (hsize : D.ring.slots ≤ 2 ^ 30)
    (hcopy : Copied w.hist t (w.pc t)) (hpc : w.pc t = .tryPushCheck x head)
    (h : asSigned D.ring.size_ ≤ asSigned (head - w.mem.tail_)) :
    w.hist.pops + D.ring.slots ≤ w.hist.pushes := by
  have hduring := (hB.during t (Or.inl (by rw [hpc]; rfl))).1
  have hpushes := hB.pushes_lt
  have hpops := hB.pops_lt
  rw [hpc] at hcopy
  obtain ⟨p, rfl, hlo, hhi⟩ := hcopy
  have hdiff : asSigned (BitVec.ofNat 32 p - BitVec.ofNat 32 w.hist.pops) =
      (p : ℤ) - w.hist.pops := Wrap.toInt_sub (by omega) (by omega) (by omega)
  rw [hC.tail_eq, hdiff, Ring.asSigned_size (by omega)] at h
  omega

omit [DecidableEq ι] in
/-- **A refused `try_pop` found no element** at that moment. -/
theorem Counted.empty_of_refuse (hC : Counted w) (hB : w.Bounded)
    (hcopy : Copied w.hist t (w.pc t)) (hpc : w.pc t = .tryPopCheck tail)
    (h : asSigned (w.mem.head_ - tail) ≤ 0) : w.hist.pushes ≤ w.hist.pops := by
  have hduring := (hB.during t (Or.inr (by rw [hpc]; rfl))).2
  have hpushes := hB.pushes_lt
  have hpops := hB.pops_lt
  rw [hpc] at hcopy
  obtain ⟨p, rfl, hlo, hhi⟩ := hcopy
  have hdiff : asSigned (BitVec.ofNat 32 w.hist.pushes - BitVec.ofNat 32 p) =
      (w.hist.pushes : ℤ) - p := Wrap.toInt_sub (by omega) (by omega) (by omega)
  rw [hC.head_eq, hdiff] at h
  omega

/-- **Every step decides rightly.** -/
theorem Counted.decides (hspsc : D.spsc_ = false) (hsize : D.ring.slots ≤ 2 ^ 30) (hC : Counted w)
    (hB : w.Bounded) (hcopy : ∀ t, Copied w.hist t (w.pc t)) (hc : Change w a w') :
    Decides w a.thread w' := by
  have hno : D.spsc_ ≠ true := by simp [hspsc]
  cases hc with
  | call hidle hentry =>
    exact decides_of_not_trying (by rw [Act.thread, hidle]; rfl) (by rw [Act.thread, hidle]; rfl)
  | @quiet t weak pc e hq =>
    change Decides w t _
    -- only the two refusals end a call
    generalize hpc : w.pc t = pc₀ at hq
    cases hq with
    | pushFull h =>
      refine ⟨fun _ hne => absurd (by simp [Pc.pushSlot]) hne, fun ht => ?_, fun _ _ => ?_,
        fun ht => ?_⟩
      · rw [hpc] at ht; cases ht
      · exact hC.full_of_refuse hB hsize (hcopy t) hpc h
      · rw [hpc] at ht; cases ht
    | popEmpty h =>
      refine ⟨fun ht => ?_, fun _ hne => absurd (by simp [Pc.popSlot]) hne, fun ht => ?_,
        fun _ _ => ?_⟩
      · rw [hpc] at ht; cases ht
      · rw [hpc] at ht; cases ht
      · exact hC.empty_of_refuse hB (hcopy t) hpc h
    | sizedHead | sizedTail =>
      exact decides_of_not_trying (by rw [hpc]; rfl) (by rw [hpc]; rfl)
    | _ => constructor <;> simp [Pc.pushSlot, Pc.popSlot]
  | @claimPush t weak x head hc =>
    change Decides w t _
    generalize hpc : w.pc t = pc₀ at hc
    cases hc with
    | tryPush hor =>
      refine ⟨fun _ _ => ?_, fun ht => ?_, fun _ hidle => ?_, fun ht => ?_⟩
      · have hroom := hC.room_of_claim (hcopy t) (hB.fresh (Or.inl (by rw [hpc]; rfl))) hpc
          (hor.resolve_left hno)
        rw [Ring.asSigned_size (by omega)] at hroom
        simp only [World.next_hist, History.record, Function.update_self]
        omega
      · rw [hpc] at ht; cases ht
      · simp at hidle
      · rw [hpc] at ht; cases ht
    | push | store => exact decides_of_not_trying (by rw [hpc]; rfl) (by rw [hpc]; rfl)
  | @claimPop t weak tail hc =>
    change Decides w t _
    generalize hpc : w.pc t = pc₀ at hc
    cases hc with
    | tryPop hor =>
      refine ⟨fun ht => ?_, fun _ _ => ?_, fun ht => ?_, fun _ hidle => ?_⟩
      · rw [hpc] at ht; cases ht
      · have hsome := hC.some_of_claim (hcopy t) (hB.fresh (Or.inr (by rw [hpc]; rfl))) hpc
          (hor.resolve_left hno)
        simpa only [World.next_hist, History.record, Function.update_self] using hsome
      · rw [hpc] at ht; cases ht
      · simp at hidle
    | pop | store => exact decides_of_not_trying (by rw [hpc]; rfl) (by rw [hpc]; rfl)
  | pushNext hpc ho | pushDone hpc ho | popNext hpc ho | popDone hpc ho =>
    exact decides_of_not_trying (by rw [Act.thread, hpc]; rfl) (by rw [Act.thread, hpc]; rfl)

/-! ## Runs of `try_push` and `try_pop` only -/

/-- No call of `push` or `pop`. -/
def TryOnly : Act ι T → Prop
  | .call _ (.push _) | .call _ .pop => False
  | _ => True

instance (a : Act ι T) : Decidable (TryOnly a) :=
  match a with
  | .call _ (.push _) | .call _ .pop => inferInstanceAs (Decidable False)
  | .call _ (.tryPush _) | .call _ .tryPop | .call _ (.wasSize _) | .step _ _ =>
    inferInstanceAs (Decidable True)

/-- In `push` or `pop`, before the claim. -/
def Pc.claiming : Pc D → Bool
  | .pushClaim _ | .pushStore _ _ | .popClaim | .popStore _ => true
  | _ => false

/-- A thread that is to claim after a quiet step was to before. -/
theorem Quiet.claiming {m : Mem D} {pc pc' : Pc D} {e : Event T D.ring.slots}
    (hq : Quiet m pc pc' e) (h : pc'.claiming = true) : pc.claiming = true := by
  cases hq <;> first | rfl | cases h

/-- **Nobody is in `push` or `pop`.** -/
theorem claiming_of_run (hok : ∀ w a w', ok w a w' → TryOnly a) (hr : (machine D ι).Run ok w) :
    ∀ t, (w.pc t).claiming = false := by
  refine hr.invariant (I := fun w => ∀ t, (w.pc t).claiming = false) (fun t => rfl) ?_
  intro w a w' _ ih hs hstep t
  by_contra hclaim
  rw [Bool.not_eq_false] at hclaim
  have hnot : (w.pc t).claiming ≠ true := by rw [ih t]; simp
  have hc := change_of_step hs
  by_cases ht : t = a.thread
  · subst ht
    cases hc <;> simp only [Act.thread, World.next_pc_self] at hclaim hnot
    case call t op pc hidle hentry =>
      have htry := hok _ _ _ hstep
      cases begins_of_entry hentry with
      | push | pop => exact htry
      | tryPush | tryPop | wasSize => cases hclaim
    case quiet hq => exact hnot (hq.claiming hclaim)
    all_goals cases hclaim
  · rw [hc.pc_of_ne ht] at hclaim
    exact hnot hclaim

/-- **The pops are not ahead of the pushes, nor the pushes more than a lap
ahead of the pops.** A size from `2 ^ 31` on is negative as a signed word,
and such a queue is always full. -/
def World.Windowed (w : World D ι) : Prop :=
  w.hist.pops ≤ w.hist.pushes ∧ (w.hist.pushes : ℤ) ≤ w.hist.pops + max (asSigned D.ring.size_) 0

omit [DecidableEq ι] in
theorem World.Windowed.close (h : w.Windowed) : w.Close := by
  have hsize : asSigned D.ring.size_ < 2 ^ 31 := BitVec.toInt_lt
  obtain ⟨hlo, hhi⟩ := h
  exact ⟨by omega, by omega⟩

theorem windowed_init : (World.init D ι).Windowed := by
  simp [World.Windowed]

/-- A step claims a position, on either counter. -/
def Claims (w w' : World D ι) : Prop :=
  w'.hist.pushes ≠ w.hist.pushes ∨ w'.hist.pops ≠ w.hist.pops

instance : Decidable (Claims w w') := inferInstanceAs (Decidable (_ ∨ _))

/-- To record a claim is to make one, -/
theorem claims_push {m : Mem D} {pc : Pc D} {x : T} :
    Claims w (w.next t m pc (.claimPush x)) :=
  Or.inl (by rw [World.next_hist, History.record_claimPush_pushes]; omega)

/-- on either counter. -/
theorem claims_pop {m : Mem D} {pc : Pc D} : Claims w (w.next t m pc .claimPop) :=
  Or.inr (by rw [World.next_hist, History.record_claimPop_pops]; omega)

/-- A claim sees the window as it is, if its call has not seen a turn of
claims. -/
theorem World.Windowed.step (hspsc : D.spsc_ = false) (hC : Counted w)
    (hclaim : ∀ t, (w.pc t).claiming = false) (hcopy : ∀ t, Copied w.hist t (w.pc t))
    (hfresh : (w.pc a.thread).tryingPush = true ∨ (w.pc a.thread).tryingPop = true →
      Claims w w' → w.Fresh a.thread)
    (h : w.Windowed) (hc : Change w a w') : w'.Windowed := by
  have hno : D.spsc_ ≠ true := by simp [hspsc]
  -- most steps leave both counts as they are
  have hsame : ∀ {t m pc e}, (w.hist.record t e).pushes = w.hist.pushes →
      (w.hist.record t e).pops = w.hist.pops → (w.next t m pc e).Windowed := by
    intro t m pc e hpushes hpops
    unfold World.Windowed
    rwa [World.next_hist, hpushes, hpops]
  cases hc with
  | call hidle hentry => exact hsame rfl rfl
  | quiet hq =>
    exact hsame (by rw [History.record_quiet hq]) (by rw [History.record_quiet hq])
  | @claimPush t weak x head hc =>
    generalize hpc : w.pc t = pc₀ at hc
    cases hc with
    | tryPush hor =>
      have hroom := hC.room_of_claim (hcopy t)
        (hfresh (Or.inl (by rw [Act.thread, hpc]; rfl)) claims_push) hpc (hor.resolve_left hno)
      obtain ⟨hlo, hhi⟩ := h
      unfold World.Windowed
      rw [World.next_hist, History.record_claimPush_pushes]
      change w.hist.pops ≤ _ ∧ _ ≤ (w.hist.pops : ℤ) + _
      omega
    | push | store => exact absurd (hclaim t) (by rw [hpc]; simp [Pc.claiming])
  | @claimPop t weak tail hc =>
    generalize hpc : w.pc t = pc₀ at hc
    cases hc with
    | tryPop hor =>
      have hsome := hC.some_of_claim (hcopy t)
        (hfresh (Or.inr (by rw [Act.thread, hpc]; rfl)) claims_pop) hpc (hor.resolve_left hno)
      obtain ⟨hlo, hhi⟩ := h
      unfold World.Windowed
      rw [World.next_hist, History.record_claimPop_pops]
      change _ ≤ w.hist.pushes ∧ (w.hist.pushes : ℤ) ≤ _
      omega
    | pop | store => exact absurd (hclaim t) (by rw [hpc]; simp [Pc.claiming])
  | pushNext hpc ho | pushDone hpc ho =>
    exact hsame (congrArg List.length History.record_pushAt_pushes)
      (congrArg List.length History.record_pushAt_pops)
  | popNext hpc ho | popDone hpc ho =>
    exact hsame (congrArg List.length History.record_popAt_pushes)
      (congrArg List.length History.record_popAt_pops)

/-- **Every run of `try_push` and `try_pop`** in which no call sees a whole
turn of claims keeps the counts a lap apart at most. -/
theorem windowed_of_run (hspsc : D.spsc_ = false) (hok : ∀ w a w', ok w a w' → TryOnly a)
    (hfresh : ∀ w a w', (machine D ι).Run ok w → ok w a w' →
      (w.pc a.thread).tryingPush = true ∨ (w.pc a.thread).tryingPop = true →
        Claims w w' → w.Fresh a.thread)
    (hr : (machine D ι).Run ok w) : w.Windowed ∧ ∀ t, Copied w.hist t (w.pc t) := by
  have hproper : Proper D ok := proper_of_not_spsc hspsc
  refine hr.invariant (I := fun w => w.Windowed ∧ ∀ t, Copied w.hist t (w.pc t))
    ⟨windowed_init, copied_init⟩ ?_
  rintro w a w' hr ⟨hwin, hcopy⟩ hs hstep
  have hC := counted_of_run hproper hr
  exact ⟨hwin.step hspsc hC (claiming_of_run hok hr) hcopy (hfresh w a w' hr hstep)
      (change_of_step hs),
    Copied.step hC (pushTime_of_run hr) (popTime_of_run hproper hr) hwin.close hcopy
      (change_of_step hs)⟩

/-- **The decisions are sound.** In every run of any calls whose counts of
claims stay within `2 ^ 30` of each other and grow by less than `2 ^ 30`
during a `try_push` or `try_pop`, every step decides rightly; and where
only `try_push` and `try_pop` are called, the pushes are ahead of the pops
by `0` to `size_` in every state. -/
theorem decisions_sound (hspsc : D.spsc_ = false) (hsize : D.ring.slots ≤ 2 ^ 30) :
    (∀ w, (machine D ι).Run (fun _ _ w' => w'.Bounded) w →
      ∀ a w', (machine D ι).step w a = some w' → Decides w a.thread w') ∧
      ∀ w, (machine D ι).Run (fun _ a w' => TryOnly a ∧ w'.Bounded) w →
        w.hist.pops ≤ w.hist.pushes ∧ w.hist.pushes ≤ w.hist.pops + D.ring.slots := by
  constructor
  · intro w hr a w' hs
    have hok : Proper D fun _ _ (w' : World D ι) => w'.Bounded := proper_of_not_spsc hspsc
    have hB : ∀ {w : World D ι}, (machine D ι).Run (fun _ _ w' => w'.Bounded) w → w.Bounded :=
      bounded_of_run fun w a w' h => h
    exact (counted_of_run hok hr).decides hspsc hsize (hB hr)
      (copied_of_run hok (fun hr => (hB hr).close) hr) (change_of_step hs)
  · intro w hr
    obtain ⟨⟨hlo, hhi⟩, -⟩ := windowed_of_run hspsc (fun w a w' h => h.1)
      (fun w a w' hr _ ht _ => (bounded_of_run (fun w a w' h => h.2) hr).fresh ht) hr
    rw [Ring.asSigned_size (by omega)] at hhi
    exact ⟨hlo, by omega⟩

/-- Two pushes fill the queue, a third has copied `head_`, and a pop is
between its test and its claim. -/
theorem decisions_sound_run :
    ∃ w : World (twoSlots false (.atomic 0)) (Fin 2), w.hist.pushes = 2 ∧
      w.hist.pushes ≤ w.hist.pops + 2 ∧
        ∀ a w', (machine _ (Fin 2)).step w a = some w' → Decides w a.thread w' := by
  obtain ⟨w, hr, hw⟩ := (machine (twoSlots false (.atomic 0)) (Fin 2)).exists_run_of_execWhile
    (fun _ a w' => TryOnly a ∧ w'.Bounded)
    (Act.run 0 (.tryPush 5) 4 ++ Act.run 0 (.tryPush 6) 4 ++ Act.run 0 (.tryPush 7) 1 ++
      Act.run 1 .tryPop 2)
    (fun w => w.hist.pushes) (b := 2) (by decide)
  obtain ⟨hdecides, hwindow⟩ := decisions_sound (D := twoSlots false (.atomic 0)) (ι := Fin 2) rfl
    (by decide)
  exact ⟨w, hw, (hwindow w hr).2, hdecides w (hr.mono fun _ _ _ h => h.2)⟩

end AtomicQueue
