import AtomicQueue.Concurrent.Decisions
/-!
# What `was_empty` and `was_full` promise

`was_size` loads the two counters one after the other, in either order, and
others claim positions between the loads. The count loaded first is out of
date by then. So one of the two answers is right at the moment of the first
load whatever the others do, and the other answer needs the counter loaded
first to stand still: a `was_empty` that loads `head_` first may miss
pushes, a `was_full` that loads `tail_` first may miss pops.
-/

namespace AtomicQueue

/-- `was_empty` or `was_full`. -/
inductive Asks
  | empty
  | full

variable {T ι : Type} [DecidableEq T] [DecidableEq ι] {D : Derived T}
variable {w w₀ w' : World D ι} {a : Act ι T} {t : ι} {n : ℕ} {vs : List (World D ι)}
variable {ok ok' : World D ι → Act ι T → World D ι → Prop} {m : Mem D} {asks : Asks}
variable {headFirst : Bool}

namespace Asks

/-- It returns `true`, where `capacity()` is `capacity` and `was_size`
returns `n`. -/
def Says (asks : Asks) (capacity n : ℕ) : Prop :=
  match asks with
  | empty => n = 0
  | full => capacity ≤ n

/-- What it says is so at this moment. -/
def Holds (asks : Asks) (w : World D ι) : Prop :=
  match asks with
  | empty => w.hist.pushes ≤ w.hist.pops
  | full => w.hist.pops + D.ring.slots ≤ w.hist.pushes

/-- The counter loaded first is the one that must stand still, and it has
not moved since. -/
def endangers (asks : Asks) (m : Mem D) (pc : Pc D) : Bool :=
  match asks, pc with
  | empty, .wasSizeHead head => m.head_ = head
  | full, .wasSizeTail tail => m.tail_ = tail
  | _, _ => false

/-- That counter moves. -/
def Moves (asks : Asks) (w w' : World D ι) : Prop :=
  match asks with
  | empty => w'.hist.pushes ≠ w.hist.pushes
  | full => w'.hist.pops ≠ w.hist.pops

instance (asks : Asks) : Decidable (asks.Holds w) :=
  match asks with
  | empty => inferInstanceAs (Decidable (_ ≤ _))
  | full => inferInstanceAs (Decidable (_ ≤ _))

instance (asks : Asks) : Decidable (asks.Moves w w') :=
  match asks with
  | empty => inferInstanceAs (Decidable (_ ≠ _))
  | full => inferInstanceAs (Decidable (_ ≠ _))

end Asks

/-- **The call is not misled**: the counter it loaded first does not move
before it loads the other, or the first time it does the answer is right. -/
def Unmisled (asks : Asks) (t : ι) (w w' : World D ι) : Prop :=
  asks.endangers w.mem (w.pc t) = true → asks.Moves w w' → asks.Holds w

instance : Decidable (Unmisled asks t w w') := inferInstanceAs (Decidable (_ → _ → _))

/-- In `was_size`. -/
def Pc.sizing : Pc D → Bool
  | .wasSizeLoad _ | .wasSizeHead _ | .wasSizeTail _ => true
  | _ => false

/-- **A call of `was_size`** by thread `t` that returns `n`, after a run
that meets `ok`, and the states from the one after the call to the one
before the return, by steps that meet `ok'`. -/
def WasSize (ok ok' : World D ι → Act ι T → World D ι → Prop) (t : ι) (headFirst : Bool)
    (vs : List (World D ι)) (n : ℕ) : Prop :=
  ∃ w₀ w weak m, w₀.pc t = .wasSizeLoad headFirst ∧ (machine D ι).Run ok w₀ ∧
    (machine D ι).Path ok' w₀ vs w ∧ (∀ v ∈ vs, (v.pc t).sizing = true) ∧
      D.advance weak w.mem (w.pc t) = some (m, .idle, .sized n)

/-- The counts of pushes and of pops, at any two of these moments, are
within half a turn of each other. -/
def CloseBy (vs : List (World D ι)) : Prop :=
  ∀ v ∈ vs, ∀ v' ∈ vs, v.hist.pushes < v'.hist.pops + 2 ^ 31 ∧ v'.hist.pops ≤ v.hist.pushes + 2 ^ 31

/-! ## Between the loads -/

/-- **What the count loaded is worth.** It is that of an earlier moment,
and where it must not be out of date it is still the current one, or the
answer was right at some moment since. -/
def Loaded (asks : Asks) (vs : List (World D ι)) (w : World D ι) : Pc D → Prop
  | .wasSizeHead head => ∃ v ∈ vs, head = BitVec.ofNat 32 v.hist.pushes ∧
      v.hist.pushes ≤ w.hist.pushes ∧ v.hist.pops ≤ w.hist.pops ∧
      (asks = .empty → w.hist.pushes = v.hist.pushes ∨ ∃ u ∈ vs, asks.Holds u)
  | .wasSizeTail tail => ∃ v ∈ vs, tail = BitVec.ofNat 32 v.hist.pops ∧
      v.hist.pushes ≤ w.hist.pushes ∧ v.hist.pops ≤ w.hist.pops ∧
      (asks = .full → w.hist.pops = v.hist.pops ∨ ∃ u ∈ vs, asks.Holds u)
  | _ => True

/-- Counts only grow. -/
theorem Change.pushes_le (hc : Change w a w') : w.hist.pushes ≤ w'.hist.pushes := by
  cases hc <;> exact History.record_pushes_le _

theorem Change.pops_le (hc : Change w a w') : w.hist.pops ≤ w'.hist.pops := by
  cases hc <;> exact History.record_pops_le _

omit [DecidableEq ι] in
/-- A step of another thread keeps the count loaded worth what it was. -/
theorem Loaded.frame {pc : Pc D} (hl : Loaded asks vs w pc) (hC : Counted w)
    (hw : w ∈ vs) (hpushes : w.hist.pushes ≤ w'.hist.pushes) (hpops : w.hist.pops ≤ w'.hist.pops)
    (hmis : asks.endangers w.mem pc = true → asks.Moves w w' → asks.Holds w) :
    Loaded asks (vs ++ [w']) w' pc := by
  have hsub : ∀ u ∈ vs, u ∈ vs ++ [w'] := fun u hu => List.mem_append_left _ hu
  cases pc with
  | wasSizeHead head =>
    obtain ⟨v, hv, rfl, hlo, hlo', hsame⟩ := hl
    refine ⟨v, hsub v hv, rfl, hlo.trans hpushes, hlo'.trans hpops, ?_⟩
    rintro rfl
    rcases hsame rfl with heq | ⟨u, hu, hholds⟩
    · by_cases hmove : w'.hist.pushes = w.hist.pushes
      · exact Or.inl (hmove.trans heq)
      · -- the first push since the load
        have hstood : w.mem.head_ = BitVec.ofNat 32 v.hist.pushes := by rw [hC.head_eq, heq]
        exact Or.inr ⟨w, hsub w hw, hmis (decide_eq_true hstood) hmove⟩
    · exact Or.inr ⟨u, hsub u hu, hholds⟩
  | wasSizeTail tail =>
    obtain ⟨v, hv, rfl, hlo, hlo', hsame⟩ := hl
    refine ⟨v, hsub v hv, rfl, hlo.trans hpushes, hlo'.trans hpops, ?_⟩
    rintro rfl
    rcases hsame rfl with heq | ⟨u, hu, hholds⟩
    · by_cases hmove : w'.hist.pops = w.hist.pops
      · exact Or.inl (hmove.trans heq)
      · have hstood : w.mem.tail_ = BitVec.ofNat 32 v.hist.pops := by rw [hC.tail_eq, heq]
        exact Or.inr ⟨w, hsub w hw, hmis (decide_eq_true hstood) hmove⟩
    · exact Or.inr ⟨u, hsub u hu, hholds⟩
  | _ => trivial

/-- **Every step keeps it**, the loads among them. -/
theorem Loaded.step (hl : Loaded asks vs w (w.pc t)) (hC : Counted w) (hw : w ∈ vs)
    (hin : (w.pc t).sizing = true) (hin' : (w'.pc t).sizing = true) (hc : Change w a w')
    (hmis : Unmisled asks t w w') : Loaded asks (vs ++ [w']) w' (w'.pc t) := by
  by_cases ht : t = a.thread
  · subst ht
    have hw' : w ∈ vs ++ [w'] := List.mem_append_left _ hw
    cases hc with
    | @quiet t weak pc e hq =>
      change (w.pc t).sizing = true at hin
      change Loaded asks _ _ ((w.next t w.mem pc e).pc t)
      simp only [Act.thread, World.next_pc_self] at hin' ⊢
      generalize hpc : w.pc t = pc₀ at hq hin
      cases hq with
      | sizeHead => exact ⟨w, hw', hC.head_eq, le_rfl, le_rfl, fun _ => Or.inl rfl⟩
      | sizeTail => exact ⟨w, hw', hC.tail_eq, le_rfl, le_rfl, fun _ => Or.inl rfl⟩
      | sizedHead | sizedTail => cases hin'
      | _ => cases hin
    | call hidle => rw [Act.thread, hidle] at hin; cases hin
    | claimPush | claimPop | pushNext | pushDone | popNext | popDone =>
      simp only [Act.thread, World.next_pc_self] at hin'
      cases hin'
  · have hpc := hc.pc_of_ne ht
    rw [hpc]
    exact hl.frame hC hw hc.pushes_le hc.pops_le hmis

/-- The count loaded, all through the call. -/
theorem loaded_of_path (hok : Proper D ok)
    (hpc : w₀.pc t = .wasSizeLoad headFirst) (hr : (machine D ι).Run ok w₀)
    (hp : (machine D ι).Path (fun w a w' => ok w a w' ∧ Unmisled asks t w w') w₀ vs w)
    (hin : ∀ v ∈ vs, (v.pc t).sizing = true) : Loaded asks vs w (w.pc t) := by
  induction hp with
  | nil => rw [hpc]; trivial
  | @step w w' vs a hp h hmeets ih =>
    have hin₀ : ∀ v ∈ vs, (v.pc t).sizing = true := fun v hv => hin v (List.mem_append_left _ hv)
    have hrun := (hp.mono fun _ _ _ h => h.1).run hr w hp.mem_last
    exact (ih hin₀).step (counted_of_run hok hrun) hp.mem_last (hin₀ w hp.mem_last)
      (hin w' (List.mem_append_right _ (List.mem_singleton_self _))) (change_of_step h) hmeets.2

/-! ## The answers -/

omit [DecidableEq ι] in
/-- The signed difference of two counts that are close. -/
theorem wasSizeOf_ofNat {pushes pops : ℕ} (h : pushes < pops + 2 ^ 31)
    (h' : pops ≤ pushes + 2 ^ 31) :
    Derived.wasSizeOf (BitVec.ofNat 32 pushes) (BitVec.ofNat 32 pops) = pushes - pops := by
  rw [Derived.wasSizeOf, asSigned, Wrap.toInt_sub (by omega) (by omega) (by omega)]
  omega

/-- **`was_empty` and `was_full` tell the truth about the call** where the
call is not misled and the counts stay close: a moment of the call is as
they say. Only a `was_empty` that loads `head_` first, or a `was_full` that
loads `tail_` first, can be misled. -/
theorem wasSize_truthful (hok : Proper D ok)
    (h : WasSize ok (fun w a w' => ok w a w' ∧ Unmisled asks t w w') t headFirst vs n)
    (hclose : CloseBy vs) (hanswer : asks.Says D.ring.slots n) : ∃ v ∈ vs, asks.Holds v := by
  obtain ⟨w₀, w, weak, m, hpc, hr, hp, hin, hadv⟩ := h
  have hw := hp.mem_last
  have hC := counted_of_run hok ((hp.mono fun _ _ _ h => h.1).run hr w hw)
  have hl := loaded_of_path hok hpc hr hp hin
  have hpos : 0 < D.ring.slots := D.ring.size_pos
  have hsizing := hin w hw
  cases hpc : w.pc t with
  | wasSizeHead head =>
    rw [hpc] at hl hadv
    obtain ⟨v, hv, rfl, hpushes, hpops, hsame⟩ := hl
    rw [Derived.advance, hC.tail_eq,
      wasSizeOf_ofNat (hclose v hv w hw).1 (hclose v hv w hw).2] at hadv
    cases hadv
    cases asks with
    | empty =>
      have hzero : v.hist.pushes - w.hist.pops = 0 := hanswer
      rcases hsame rfl with heq | hmoment
      · exact ⟨w, hw, show w.hist.pushes ≤ w.hist.pops by omega⟩
      · exact hmoment
    | full =>
      -- there were no fewer at the first load
      have hfull : D.ring.slots ≤ v.hist.pushes - w.hist.pops := hanswer
      exact ⟨v, hv, show v.hist.pops + D.ring.slots ≤ v.hist.pushes by omega⟩
  | wasSizeTail tail =>
    rw [hpc] at hl hadv
    obtain ⟨v, hv, rfl, hpushes, hpops, hsame⟩ := hl
    rw [Derived.advance, hC.head_eq,
      wasSizeOf_ofNat (hclose w hw v hv).1 (hclose w hw v hv).2] at hadv
    cases hadv
    cases asks with
    | empty =>
      -- there were no more at the first load
      have hzero : w.hist.pushes - v.hist.pops = 0 := hanswer
      exact ⟨v, hv, show v.hist.pushes ≤ v.hist.pops by omega⟩
    | full =>
      have hfull : D.ring.slots ≤ w.hist.pushes - v.hist.pops := hanswer
      rcases hsame rfl with heq | hmoment
      · exact ⟨w, hw, show w.hist.pops + D.ring.slots ≤ w.hist.pushes by omega⟩
      · exact hmoment
  | wasSizeLoad headFirst =>
    rw [hpc] at hadv
    cases headFirst <;> cases hadv
  | _ => rw [hpc] at hsizing; cases hsizing

/-! ## Worked calls -/

/-- The order of the loads, before them. -/
def Pc.loadsFirst : Pc D → Option Bool
  | .wasSizeLoad headFirst => some headFirst
  | _ => none

/-- What `was_size` returns from here. -/
def Pc.sizeAt (m : Mem D) : Pc D → Option ℕ
  | .wasSizeHead head => some (Derived.wasSizeOf head m.tail_)
  | .wasSizeTail tail => some (Derived.wasSizeOf m.head_ tail)
  | _ => none

/-- A call computed from schedules of the steps before it and during it. -/
theorem exists_wasSize (ok ok' : World D ι → Act ι T → World D ι → Prop)
    [∀ w a w', Decidable (ok w a w')] [∀ w a w', Decidable (ok' w a w')]
    (headFirst : Bool) (n : ℕ) (before during : List (Act ι T)) {β : Type*}
    (f : List (World D ι) → β) {b : β}
    (h : (((machine D ι).execWhile ok (machine D ι).init before).bind fun w₀ =>
      ((machine D ι).trace ok' [w₀] w₀ during).map fun r =>
        ((w₀.pc t).loadsFirst, r.1.all (fun v => (v.pc t).sizing), (r.2.pc t).sizeAt r.2.mem, f r.1)) =
          some (some headFirst, true, some n, b)) :
    ∃ vs, WasSize ok ok' t headFirst vs n ∧ f vs = b := by
  obtain ⟨w₀, hw₀, hmap⟩ := Option.bind_eq_some_iff.mp h
  obtain ⟨⟨vs, w⟩, htrace, heq⟩ := Option.map_eq_some_iff.mp hmap
  simp only [Prod.mk.injEq] at heq
  obtain ⟨hfirst, hall, hsize, hf⟩ := heq
  refine ⟨vs, ⟨w₀, w, false, w.mem, ?_, Machine.Run.init.execWhile hw₀,
    (Machine.Path.nil w₀).trace htrace, List.all_eq_true.mp hall, ?_⟩, hf⟩
  · cases hpc : w₀.pc t with
    | wasSizeLoad b => rw [hpc] at hfirst; cases hfirst; rfl
    | _ => rw [hpc] at hfirst; cases hfirst
  · cases hpc : w.pc t with
    | wasSizeHead head => rw [hpc] at hsize; cases hsize; rfl
    | wasSizeTail tail => rw [hpc] at hsize; cases hsize; rfl
    | _ => rw [hpc] at hsize; cases hsize

/-- Fewer than three claims were made on either counter. -/
def fewClaims (vs : List (World D ι)) : Bool :=
  vs.all fun v => decide (v.hist.pushes < 3 ∧ v.hist.pops < 3)

omit [DecidableEq ι] in
theorem closeBy_of_fewClaims (h : fewClaims vs = true) : CloseBy vs := by
  intro v hv v' hv'
  have hfew := of_decide_eq_true (List.all_eq_true.mp h v hv)
  have hfew' := of_decide_eq_true (List.all_eq_true.mp h v' hv')
  omega

/-- A `was_empty` that loads `head_` first and sees an element pushed and
popped before it loads `tail_`: it returns `true`, and the push found the
queue empty. -/
theorem wasSize_truthful_run :
    ∃ vs : List (World (twoSlots false (.atomic 0)) (Fin 3)),
      WasSize (fun _ a _ => TryOnly a) (fun w a w' => TryOnly a ∧ Unmisled .empty 1 w w') 1 true vs 0 ∧
        ∃ v ∈ vs, Asks.empty.Holds v := by
  obtain ⟨vs, hsize, hfew⟩ := exists_wasSize (D := twoSlots false (.atomic 0)) (t := (1 : Fin 3))
    (fun _ a _ => TryOnly a) (fun w a w' => TryOnly a ∧ Unmisled .empty 1 w w') true 0
    [.call 1 (.wasSize true)]
    ([.step 1 false] ++ Act.run 0 (.tryPush 5) 4 ++ Act.run 2 .tryPop 4)
    fewClaims (b := true) (by decide)
  exact ⟨vs, hsize, wasSize_truthful (proper_of_not_spsc rfl) hsize (closeBy_of_fewClaims hfew) rfl⟩

/-- **In either order one of the two is misled.** On two slots, one of them
full, thread `1` calls `was_size` and loads one counter. If it is `head_`,
an element is then pushed and one popped, and `was_size` returns `0`,
though the queue held one or two elements all through the call. If it is
`tail_`, an element is then popped and one pushed, and it returns `2`,
though the queue held one or none. -/
theorem wasSize_truthful_fails :
    (¬ ∀ (asks : Asks) (vs : List (World (twoSlots false (.atomic 0)) (Fin 3))) (n : ℕ),
      WasSize (fun _ a _ => TryOnly a) (fun _ a _ => TryOnly a) 1 true vs n → asks.Says 2 n →
        ∃ v ∈ vs, asks.Holds v) ∧
    ¬ ∀ (asks : Asks) (vs : List (World (twoSlots false (.atomic 0)) (Fin 3))) (n : ℕ),
      WasSize (fun _ a _ => TryOnly a) (fun _ a _ => TryOnly a) 1 false vs n → asks.Says 2 n →
        ∃ v ∈ vs, asks.Holds v := by
  constructor
  · intro hall
    obtain ⟨vs, hsize, hnever⟩ := exists_wasSize (D := twoSlots false (.atomic 0)) (t := (1 : Fin 3))
      (fun _ a _ => TryOnly a) (fun _ a _ => TryOnly a) true 0
      (Act.run 0 (.tryPush 5) 4 ++ [.call 1 (.wasSize true)])
      ([.step 1 false] ++ Act.run 0 (.tryPush 6) 4 ++ Act.run 2 .tryPop 4)
      (fun vs => vs.all fun v => decide (¬ Asks.empty.Holds v)) (b := true) (by decide)
    obtain ⟨v, hv, hholds⟩ := hall .empty vs 0 hsize rfl
    exact of_decide_eq_true (List.all_eq_true.mp hnever v hv) hholds
  · intro hall
    obtain ⟨vs, hsize, hnever⟩ := exists_wasSize (D := twoSlots false (.atomic 0)) (t := (1 : Fin 3))
      (fun _ a _ => TryOnly a) (fun _ a _ => TryOnly a) false 2
      (Act.run 0 (.tryPush 5) 4 ++ [.call 1 (.wasSize false)])
      ([.step 1 false] ++ Act.run 2 .tryPop 4 ++ Act.run 0 (.tryPush 6) 4)
      (fun vs => vs.all fun v => decide (¬ Asks.full.Holds v)) (b := true) (by decide)
    obtain ⟨v, hv, hholds⟩ := hall .full vs 2 hsize (le_refl 2)
    exact of_decide_eq_true (List.all_eq_true.mp hnever v hv) hholds

end AtomicQueue
