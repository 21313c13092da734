import AtomicQueue.Concurrent.Returns
/-!
# Numbers and time

A call claims its number between its begin and its return. So if one
call returned before another began, it has the smaller number, whichever
threads made them. `InTime` is the bookkeeping of this for one of the two
counters; the history keeps it for both.
-/

namespace AtomicQueue

variable {T ι : Type} [DecidableEq T] [DecidableEq ι] {D : Derived T}
variable {w w' : World D ι} {a : Act ι T} {t : ι}
variable {ok : World D ι → Act ι T → World D ι → Prop}

/-- **The numbers of one counter, in time.** `start` is the count a call
began at, and a busy thread is between its claim and its return. -/
structure InTime (clock count : ℕ) (start : Entry → ℕ) (entry : ι → Entry) (no : ι → ℕ)
    (busy : ι → Prop) (returns : List (Return ι T)) : Prop where
  entry_time : ∀ t, (entry t).time ≤ clock
  entry_start : ∀ t, start (entry t) ≤ count
  busy_no : ∀ t, busy t → start (entry t) ≤ no t
  return_lt : ∀ r ∈ returns, r.no < count
  return_call : ∀ r ∈ returns, r.call.time ≤ clock
  before_entry : ∀ r ∈ returns, ∀ t, r.time < (entry t).time → r.no < start (entry t)
  /-- A call that returned before another began has the smaller number. -/
  before : ∀ r ∈ returns, ∀ r' ∈ returns, r.time < r'.call.time → r.no < r'.no

namespace InTime

variable {clock count : ℕ} {start : Entry → ℕ} {entry : ι → Entry} {no : ι → ℕ}
variable {busy busy' : ι → Prop} {returns : List (Return ι T)}

omit [DecidableEq T] [DecidableEq ι] in
/-- A step of no concern to the counter. -/
theorem tick (h : InTime clock count start entry no busy returns)
    (hbusy : ∀ t, busy' t → busy t) : InTime (clock + 1) count start entry no busy' returns where
  entry_time t := (h.entry_time t).trans (Nat.le_succ _)
  entry_start := h.entry_start
  busy_no t ht := h.busy_no t (hbusy t ht)
  return_lt := h.return_lt
  return_call r hr := (h.return_call r hr).trans (Nat.le_succ _)
  before_entry := h.before_entry
  before := h.before

omit [DecidableEq T] in
/-- A call begins. -/
theorem call (h : InTime clock count start entry no busy returns) {e : Entry}
    (htime : e.time = clock + 1) (hstart : start e = count)
    (hbusy : ∀ t', busy' t' → busy t' ∧ t' ≠ t) :
    InTime (clock + 1) count start (Function.update entry t e) no busy' returns where
  entry_time t' := by
    rcases eq_or_ne t' t with rfl | hne
    · rw [Function.update_self]
      omega
    · rw [Function.update_of_ne hne]
      exact (h.entry_time t').trans (Nat.le_succ _)
  entry_start t' := by
    rcases eq_or_ne t' t with rfl | hne
    · rw [Function.update_self]
      omega
    · rw [Function.update_of_ne hne]
      exact h.entry_start t'
  busy_no t' ht' := by
    obtain ⟨hb, hne⟩ := hbusy t' ht'
    rw [Function.update_of_ne hne]
    exact h.busy_no t' hb
  return_lt := h.return_lt
  return_call r hr := (h.return_call r hr).trans (Nat.le_succ _)
  before_entry r hr t' := by
    rcases eq_or_ne t' t with rfl | hne
    · rw [Function.update_self, hstart]
      intro _
      exact h.return_lt r hr
    · rw [Function.update_of_ne hne]
      exact h.before_entry r hr t'
  before := h.before

omit [DecidableEq T] in
/-- A number is claimed. -/
theorem claim (h : InTime clock count start entry no busy returns)
    (hbusy : ∀ t', busy' t' → t' ≠ t → busy t') :
    InTime (clock + 1) (count + 1) start entry (Function.update no t count) busy' returns where
  entry_time t' := (h.entry_time t').trans (Nat.le_succ _)
  entry_start t' := (h.entry_start t').trans (Nat.le_succ _)
  busy_no t' ht' := by
    rcases eq_or_ne t' t with rfl | hne
    · rw [Function.update_self]
      exact h.entry_start t'
    · rw [Function.update_of_ne hne]
      exact h.busy_no t' (hbusy t' ht' hne)
  return_lt r hr := (h.return_lt r hr).trans (Nat.lt_succ_self _)
  return_call r hr := (h.return_call r hr).trans (Nat.le_succ _)
  before_entry := h.before_entry
  before := h.before

omit [DecidableEq T] [DecidableEq ι] in
/-- A call returns. -/
theorem ret (h : InTime clock count start entry no busy returns) {r : Return ι T}
    (hno : r.no = no t) (hcall : r.call = entry t) (htime : r.time = clock + 1) (ht : busy t)
    (hlt : no t < count) (hbusy : ∀ t', busy' t' → busy t') :
    InTime (clock + 1) count start entry no busy' (returns ++ [r]) where
  entry_time t' := (h.entry_time t').trans (Nat.le_succ _)
  entry_start := h.entry_start
  busy_no t' ht' := h.busy_no t' (hbusy t' ht')
  return_lt r' hr' := by
    rcases List.mem_append.mp hr' with hr' | hr'
    · exact h.return_lt r' hr'
    · rw [List.mem_singleton.mp hr', hno]
      exact hlt
  return_call r' hr' := by
    rcases List.mem_append.mp hr' with hr' | hr'
    · exact (h.return_call r' hr').trans (Nat.le_succ _)
    · rw [List.mem_singleton.mp hr', hcall]
      exact (h.entry_time t).trans (Nat.le_succ _)
  before_entry r' hr' t' hlt' := by
    rcases List.mem_append.mp hr' with hr' | hr'
    · exact h.before_entry r' hr' t' hlt'
    · rw [List.mem_singleton.mp hr', htime] at hlt'
      have := h.entry_time t'
      omega
  before r₁ hr₁ r₂ hr₂ hlt' := by
    rcases List.mem_append.mp hr₁ with hr₁ | hr₁ <;> rcases List.mem_append.mp hr₂ with hr₂ | hr₂
    · exact h.before r₁ hr₁ r₂ hr₂ hlt'
    · rw [List.mem_singleton.mp hr₂, hcall] at hlt'
      rw [List.mem_singleton.mp hr₂, hno]
      exact (h.before_entry r₁ hr₁ t hlt').trans_le (h.busy_no t ht)
    · -- a return now is not before a call that has returned
      rw [List.mem_singleton.mp hr₁, htime] at hlt'
      have := h.return_call r₂ hr₂
      omega
    · rw [List.mem_singleton.mp hr₁, List.mem_singleton.mp hr₂, htime, hcall] at hlt'
      have := h.entry_time t
      omega

end InTime

/-- The pushes in time. -/
def World.PushTime (w : World D ι) : Prop :=
  InTime w.hist.clock w.hist.pushes Entry.pushes w.hist.entry w.hist.pushNo
    (fun t => (w.pc t).pushStatus ≠ .out) w.hist.stored

/-- The pops in time. -/
def World.PopTime (w : World D ι) : Prop :=
  InTime w.hist.clock w.hist.pops Entry.pops w.hist.entry w.hist.popNo
    (fun t => (w.pc t).popStatus ≠ .out) w.hist.received

/-- What a thread is after a step it was before, if the thread that stepped
was. -/
theorem World.of_next {P : Pc D → Prop} {m : Mem D} {pc : Pc D} {e : Event T D.ring.slots}
    (h : P pc → P (w.pc t)) : ∀ t', P ((w.next t m pc e).pc t') → P (w.pc t') := by
  intro t' ht'
  rcases eq_or_ne t' t with rfl | hne
  · rw [World.next_pc_self] at ht'
    exact h ht'
  · rwa [World.next_pc_of_ne hne] at ht'

omit [DecidableEq ι] in
/-- In `do_push` a thread is not out, -/
theorem pushStatus_ne_out {x : T} {i : Fin D.ring.slots} {p : D.layout.Push}
    (hpc : w.pc t = .doPush x i p) : (w.pc t).pushStatus ≠ .out := by
  rw [hpc, Pc.pushStatus]
  split <;> simp

omit [DecidableEq ι] in
/-- nor in `do_pop`. -/
theorem popStatus_ne_out {i : Fin D.ring.slots} {p : D.layout.Pop} (hpc : w.pc t = .doPop i p) :
    (w.pc t).popStatus ≠ .out := by
  rw [hpc, Pc.popStatus]
  split <;> simp

theorem Change.pushTime (h : w.PushTime) (hB : Tickets.Inv w.pushTickets) (hc : Change w a w') :
    w'.PushTime := by
  cases hc with
  | @call t op pc hidle hentry =>
    refine InTime.call (t := t) h rfl rfl fun t' ht' => ?_
    -- a call that begins has claimed nothing yet
    have hne : t' ≠ t := by
      rintro rfl
      rw [World.next_pc_self] at ht'
      exact ht' (entry_status hentry).1
    rw [World.next_pc_of_ne hne] at ht'
    exact ⟨ht', hne⟩
  | quiet hq =>
    unfold World.PushTime
    rw [World.next_hist, History.record_quiet hq]
    exact h.tick
      (World.of_next (P := fun pc => pc.pushStatus ≠ .out) (by rw [hq.status.1]; exact id))
  | @claimPush t weak x head hc =>
    unfold World.PushTime
    rw [World.next_hist, History.record_claimPush_pushes]
    refine InTime.claim h fun t' ht' hne => ?_
    rwa [World.next_pc_of_ne hne] at ht'
  | claimPop hc =>
    exact h.tick (World.of_next (P := fun pc => pc.pushStatus ≠ .out)
      fun hst => absurd rfl hst)
  | pushNext hpc ho =>
    unfold World.PushTime
    rw [World.next_hist, History.pushes, History.record_pushAt_pushes]
    exact h.tick (World.of_next (P := fun pc => pc.pushStatus ≠ .out)
      fun _ => pushStatus_ne_out hpc)
  | @pushDone t weak x i p hpc ho =>
    have hbusy := pushStatus_ne_out hpc
    unfold World.PushTime
    rw [World.next_hist, History.pushes, History.record_pushAt_pushes]
    exact InTime.ret (t := t) h rfl rfl rfl hbusy (pushNo_lt hB hpc)
      (World.of_next (P := fun pc => pc.pushStatus ≠ .out) fun _ => hbusy)
  | popNext hpc ho =>
    unfold World.PushTime
    rw [World.next_hist, History.pushes, History.record_popAt_pushes]
    exact h.tick (World.of_next (P := fun pc => pc.pushStatus ≠ .out)
      fun hst => absurd rfl hst)
  | popDone hpc ho =>
    unfold World.PushTime
    rw [World.next_hist, History.pushes, History.record_popAt_pushes]
    exact h.tick (World.of_next (P := fun pc => pc.pushStatus ≠ .out)
      fun hst => absurd rfl hst)

theorem Change.popTime (h : w.PopTime) (hB : Tickets.Inv w.popTickets) (hc : Change w a w') :
    w'.PopTime := by
  cases hc with
  | @call t op pc hidle hentry =>
    refine InTime.call (t := t) h rfl rfl fun t' ht' => ?_
    have hne : t' ≠ t := by
      rintro rfl
      rw [World.next_pc_self] at ht'
      exact ht' (entry_status hentry).2
    rw [World.next_pc_of_ne hne] at ht'
    exact ⟨ht', hne⟩
  | quiet hq =>
    unfold World.PopTime
    rw [World.next_hist, History.record_quiet hq]
    exact h.tick
      (World.of_next (P := fun pc => pc.popStatus ≠ .out) (by rw [hq.status.2]; exact id))
  | claimPush hc =>
    exact h.tick (World.of_next (P := fun pc => pc.popStatus ≠ .out)
      fun hst => absurd rfl hst)
  | @claimPop t weak tail hc =>
    unfold World.PopTime
    rw [World.next_hist, History.record_claimPop_pops]
    refine InTime.claim h fun t' ht' hne => ?_
    rwa [World.next_pc_of_ne hne] at ht'
  | pushNext hpc ho =>
    unfold World.PopTime
    rw [World.next_hist, History.pops, History.record_pushAt_pops]
    exact h.tick (World.of_next (P := fun pc => pc.popStatus ≠ .out)
      fun hst => absurd rfl hst)
  | pushDone hpc ho =>
    unfold World.PopTime
    rw [World.next_hist, History.pops, History.record_pushAt_pops]
    exact h.tick (World.of_next (P := fun pc => pc.popStatus ≠ .out)
      fun hst => absurd rfl hst)
  | popNext hpc ho =>
    unfold World.PopTime
    rw [World.next_hist, History.pops, History.record_popAt_pops]
    have hrec : ∀ {h : History D.ring.slots ι T} {t i wins},
        (h.record t (.popAt i wins none)).received = h.received := List.append_nil _
    rw [hrec]
    exact h.tick (World.of_next (P := fun pc => pc.popStatus ≠ .out)
      fun _ => popStatus_ne_out hpc)
  | @popDone t weak i p x hpc ho =>
    have hbusy := popStatus_ne_out hpc
    unfold World.PopTime
    rw [World.next_hist, History.pops, History.record_popAt_pops]
    exact InTime.ret (t := t) h rfl rfl rfl hbusy (popNo_lt hB hpc)
      (World.of_next (P := fun pc => pc.popStatus ≠ .out) fun _ => hbusy)

omit [DecidableEq T] [DecidableEq ι] in
theorem inTime_init {start : Entry → ℕ} (h : start ⟨0, 0, 0⟩ = 0) {no : ι → ℕ} {busy : ι → Prop}
    (hbusy : ∀ t, ¬ busy t) :
    InTime (T := T) 0 0 start (fun _ => ⟨0, 0, 0⟩) no busy [] := by
  refine ⟨fun _ => le_rfl, fun _ => h.le, fun t ht => absurd ht (hbusy t), ?_, ?_, ?_, ?_⟩ <;> simp

/-- **A push that returned before another was called has the smaller
number.** -/
theorem pushTime_of_run (hr : (machine D ι).Run ok w) : w.PushTime := by
  refine hr.invariant (I := World.PushTime) ?_ ?_
  · exact @inTime_init T ι Entry.pushes rfl _ _ fun t ht => ht rfl
  intro w a w' hr h hs _
  exact (change_of_step hs).pushTime h (pushTickets_of_run hr)

/-- **A pop that returned before another was called has the smaller
number.** -/
theorem popTime_of_run (hok : Proper D ok) (hr : (machine D ι).Run ok w) : w.PopTime := by
  refine hr.invariant (I := World.PopTime) ?_ ?_
  · exact @inTime_init T ι Entry.pops rfl _ _ fun t ht => ht rfl
  intro w a w' hr h hs _
  exact (change_of_step hs).popTime h (popTickets_of_run hok hr)

end AtomicQueue
