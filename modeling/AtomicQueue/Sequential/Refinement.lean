import AtomicQueue.Sequential.Calls
/-!
# A queue called by one thread at a time is a list

Every point of a call is one of `During`, every call comes to its end and
at no point waits, and what it replies is what the list replies: the queue
refines `ringFifo`, the bounded list with the number of the position its
first element is on. The number matters on a ring whose size is not a power
of two, where a push may find the next position on a slot of the list;
there `ringFifo` says nothing.
-/

namespace AtomicQueue

variable {T : Type} [DecidableEq T] {D : Derived T} {R : Ring}
variable {m m' m₀ : Mem D} {pc : Pc D} {l l' : List T} {c : Call T} {r r' : Reply T} {p p' : ℕ}

instance {p n : ℕ} : Decidable (R.Clear p n) := Nat.decidableBallLT n _

/-- **The bounded list of a ring**, with the number of its first
position. -/
def ringFifo (R : Ring) (s : ℕ × List T) (c : Call T) : Option (Reply T × ℕ × List T) :=
  if c.appends = true ∧ s.2.length < R.slots ∧ ¬ R.Clear s.1 s.2.length then none
  else (fifo R.slots s.2 c).map fun q => (q.1, s.1 + q.1.taken, q.2)

omit [DecidableEq T] in
theorem ringFifo_eq_some (h : ringFifo R (p, l) c = some (r, p', l')) :
    fifo R.slots l c = some (r, l') ∧ p' = p + r.taken ∧
      (c.appends = true → l.length < R.slots → R.Clear p l.length) := by
  rw [ringFifo] at h
  split at h
  · cases h
  · rename_i hclear
    obtain ⟨⟨r₁, l₁⟩, hfifo, heq⟩ := Option.map_eq_some_iff.mp h
    cases heq
    refine ⟨hfifo, rfl, fun happends hroom => ?_⟩
    by_contra hnot
    exact hclear ⟨happends, hroom, hnot⟩

omit [DecidableEq T] in
/-- A push onto an empty ring. -/
theorem ringFifo_nil_tryPush (p : ℕ) (x : T) :
    ringFifo R (p, []) (.tryPush x) = some (.tryPush true none, p, [x]) := by
  have hclear : R.Clear p 0 := fun j hj => absurd hj (Nat.not_lt_zero j)
  have hroom : ([] : List T).length < R.slots := R.size_pos
  rw [ringFifo, if_neg fun h => h.2.2 hclear, fifo, if_pos hroom]
  rfl

omit [DecidableEq T] in
/-- An empty ring is run through its positions by pushes and pops. -/
theorem ringFifo_turns (x y : T) (k : ℕ) :
    Object.replies (ringFifo R) (0, []) (turns x y k) = some (turnReplies x k, k, []) := by
  refine replies_turns (a := fun k => (k, [])) (fun k => ?_) k
  rw [Object.replies, ringFifo_nil_tryPush]
  rfl

/-! ## The points of a call -/

/-- The first point of a call that the list has a reply for. -/
theorem During.entry {op : Op T} (hop : c.Makes op) (hentry : D.entry op = some pc)
    (hfifo : fifo D.ring.slots l c = some (r, l')) : During D m₀ l c m₀ pc := by
  cases c with
  | tryPush x =>
    cases hop
    obtain ⟨hx, heq⟩ := Option.ite_none_right_eq_some.mp hentry
    cases heq
    exact .tryPushLoad hx
  | tryPop x =>
    cases hop
    cases hentry
    exact .tryPopLoad
  | push x =>
    cases hop
    obtain ⟨hx, heq⟩ := Option.ite_none_right_eq_some.mp hentry
    cases heq
    exact .pushClaim hx (Option.ite_none_right_eq_some.mp hfifo).1
  | pop =>
    cases hop
    cases hentry
    cases l with
    | nil => cases hfifo
    | cons y rest => exact .popClaim rfl
  | wasSize | wasEmpty | wasFull =>
    obtain ⟨headFirst, rfl⟩ := hop
    cases hentry
    exact .wasSizeLoad trivial

/-- **Every point of a call made alone.** -/
theorem During.of_within (hrep : Represents D m₀ p l) (hsize : D.ring.slots < 2 ^ 31)
    (hclear : c.appends = true → l.length < D.ring.slots → D.ring.Clear p l.length)
    (hfifo : fifo D.ring.slots l c = some (r, l')) (h : D.Within m₀ c m pc) :
    During D m₀ l c m pc := by
  induction h with
  | begin hop hentry => exact .entry hop hentry hfifo
  | step _ hadv hpc ih =>
    obtain ⟨-, hd, -⟩ | ⟨hidle, -⟩ := ih.step hrep hsize hclear hadv
    · exact hd
    · exact absurd hidle hpc

/-- **At no point does it wait.** -/
theorem During.not_waits (h : During D m₀ l c m pc) : ¬ D.Waits m pc := by
  cases h with
  | @doPush _ x cell q hc hx hroom hq hcell =>
    rintro ⟨howns, hwait⟩
    rw [howns] at hcell
    rw [Mem.set_cell_self, D.spec.awaitsPush_eq hcell] at hwait
    cases hwait
  | @doPop _ y rest cell q hc hl hq hcell =>
    rintro ⟨howns, hwait⟩
    rw [howns] at hcell
    rw [Mem.set_cell_self, D.spec.awaitsPop_eq hcell] at hwait
    cases hwait
  | _ => exact id

/-- A thread in a call has a next step. -/
theorem exists_advance (weak : Bool) (m : Mem D) (hpc : pc ≠ .idle) :
    ∃ r, D.advance weak m pc = some r := by
  rw [← Option.isSome_iff_exists]
  cases pc with
  | idle => exact absurd rfl hpc
  | tryPushCheck | tryPushClaim | tryPopCheck | tryPopClaim | pushClaim | popClaim =>
    simp only [Derived.advance]
    split_ifs <;> rfl
  | _ => rfl

theorem During.ne_idle (h : During D m₀ l c m pc) : pc ≠ .idle := by
  cases h <;> simp

/-- **The call ends**: without spurious failures every step comes closer to
the end. -/
theorem During.exists_call (hrep : Represents D m₀ p l) (hsize : D.ring.slots < 2 ^ 31)
    (hclear : c.appends = true → l.length < D.ring.slots → D.ring.Clear p l.length)
    (hw : D.Within m₀ c m pc) (h : During D m₀ l c m pc) : ∃ r m', D.object.call m₀ c r m' := by
  induction hn : pc.rank using Nat.strong_induction_on generalizing m pc with
  | _ n ih =>
    obtain ⟨⟨m', pc', e⟩, hadv⟩ := exists_advance false m h.ne_idle
    obtain ⟨hpc, hd, hrank⟩ | ⟨rfl, r, l', -, hreply, -⟩ := h.step hrep hsize hclear hadv
    · exact ih _ (hn ▸ hrank rfl) (.step hw hadv hpc) hd rfl
    · exact ⟨r, m', m, pc, false, e, hw, hadv, hreply⟩

/-! ## The queue refines the list -/

/-- **What a call replies**, and that a refusal leaves the memory as it
was. -/
theorem Represents.reply_eq (hrep : Represents D m p l) (hsize : D.ring.slots < 2 ^ 31)
    (hspec : ringFifo D.ring (p, l) c = some (r, p', l')) (hcall : D.object.call m c r' m') :
    r' = r ∧ Represents D m' p' l' ∧ (r.refused = true → m' = m) := by
  obtain ⟨hfifo, rfl, hclear⟩ := ringFifo_eq_some hspec
  obtain ⟨m₁, pc, weak, e, hw, hadv, hreply⟩ := hcall
  have hd := During.of_within hrep hsize hclear hfifo hw
  obtain ⟨hpc, -⟩ | ⟨-, r₁, l₁, hfifo₁, hreply₁, hrep₁, hrefused⟩ :=
    hd.step hrep hsize hclear hadv
  · exact absurd rfl hpc
  · rw [hfifo] at hfifo₁
    cases hfifo₁
    rw [hreply] at hreply₁
    cases hreply₁
    exact ⟨rfl, hrep₁, hrefused⟩

/-- **The calls of a queue refine the list of its ring.** -/
theorem object_refines (hsize : D.ring.slots < 2 ^ 31) :
    D.object.Refines (ringFifo D.ring) D.Admits fun m s => Represents D m s.1 s.2 where
  sound hrep _ hspec hcall := by
    obtain ⟨hr, hrep', -⟩ := hrep.reply_eq hsize hspec hcall
    exact ⟨hr, hrep'⟩
  total {m s c r s'} hrep hok hspec := by
    obtain ⟨hfifo, -, hclear⟩ := ringFifo_eq_some hspec
    obtain ⟨op, pc, hop, hentry⟩ : ∃ op pc, c.Makes op ∧ D.entry op = some pc := by
      cases c with
      | tryPush x => exact ⟨_, _, rfl, if_pos hok⟩
      | push x => exact ⟨_, _, rfl, if_pos hok⟩
      | tryPop x => exact ⟨_, _, rfl, rfl⟩
      | pop => exact ⟨_, _, rfl, rfl⟩
      | wasSize | wasEmpty | wasFull => exact ⟨_, _, ⟨true, rfl⟩, rfl⟩
    exact During.exists_call hrep hsize hclear (.begin hop hentry)
      (During.entry hop hentry hfifo)

/-! ## In the queue with its threads -/

section

variable {ι : Type} [DecidableEq ι] {w : World D ι} {t : ι} {calls : List (Call T)}
variable {replies : List (Reply T)} {e : Event T D.ring.slots} {weak : Bool}

/-- A step of a thread that is in a call. -/
theorem reachable_next (hr : (machine D ι).Reachable w)
    (hadv : D.advance weak w.mem (w.pc t) = some (m, pc, e)) :
    (machine D ι).Reachable (w.next t m pc e) := by
  refine hr.step (a := .step t weak) ?_ trivial
  change (w.toState.step (.step t weak)).map _ = _
  rw [State.step, hadv]
  rfl

/-- **A call made alone is a run of its thread**, the others standing
still. -/
theorem exists_run_of_within (hr : (machine D ι).Reachable w) (hidle : w.pc t = .idle)
    (h : D.Within w.mem c m pc) :
    ∃ w' : World D ι,
      (machine D ι).Reachable w' ∧ w'.mem = m ∧ w'.pc = Function.update w.pc t pc := by
  induction h with
  | @begin op pc hop hentry =>
    refine ⟨w.next t w.mem pc (.call op), hr.step (a := .call t op) ?_ trivial, rfl, rfl⟩
    change (w.toState.step (.call t op)).map _ = _
    simp only [State.step, hidle, hentry, Option.map_some]
    rfl
  | @step m pc weak m' pc' e _ hadv _ ih =>
    obtain ⟨w₁, hr₁, rfl, hpc₁⟩ := ih
    have hself : w₁.pc t = pc := by rw [hpc₁, Function.update_self]
    refine ⟨w₁.next t m' pc' e, reachable_next hr₁ (hself ▸ hadv), rfl, ?_⟩
    rw [World.next_pc, hpc₁, Function.update_idem]

/-- **Calls made one after the other are a run of the queue with its
threads**, in which one thread makes them. -/
theorem exists_run_of_calls (t : ι) (hr : (machine D ι).Reachable w) (hm : w.mem = m₀)
    (hidle : ∀ t, w.pc t = .idle) (h : D.object.Calls m₀ calls replies m) :
    ∃ w' : World D ι, (machine D ι).Reachable w' ∧ w'.mem = m ∧ ∀ t, w'.pc t = .idle := by
  induction h generalizing w with
  | nil m => exact ⟨w, hr, hm, hidle⟩
  | @cons m₀ m₁ m c r calls replies hcall _ ih =>
    subst hm
    obtain ⟨m₂, pc, weak, e, hw, hadv, -⟩ := hcall
    obtain ⟨w₁, hr₁, rfl, hpc₁⟩ := exists_run_of_within hr (hidle t) hw
    have hself : w₁.pc t = pc := by rw [hpc₁, Function.update_self]
    refine ih (reachable_next hr₁ (hself ▸ hadv)) rfl fun t' => ?_
    rw [World.next_pc, hpc₁, Function.update_idem]
    rcases eq_or_ne t' t with rfl | hne
    · rw [Function.update_self]
    · rw [Function.update_of_ne hne, hidle t']

end

end AtomicQueue
