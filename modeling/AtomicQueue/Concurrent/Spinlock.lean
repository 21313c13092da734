import AtomicQueue.Model.Spinlock
import AtomicQueue.Common.Wrap
/-!
# The ticket lock hands itself on

The tickets are words of numbers, and so is `next_` while every release is
by `unlock(ticket)`: it is the number of releases so far. A waiting thread
has a number no less, and fewer than `2 ^ 32` more, so it is let in just
when the number is its own. So the numbers are granted in their order, and
the one let in is alone. `unlock()` passes its sum to `unlock(ticket)`,
which adds one again; a lock so released skips a ticket.
-/

namespace AtomicQueue

namespace TicketSpinlock

open Ticket (Status)

variable {ι : Type} [DecidableEq ι] {w w' : World ι} {a : Act ι} {t t' : ι} {m : TicketSpinlock}
variable {pc : Pc} {e : Event} {ok : World ι → Act ι → World ι → Prop}

/-- **Everything a step can do**: begin a call, or make the next access of
one. -/
inductive Change (w : World ι) : Act ι → World ι → Prop
  | enter {a : Act ι} {pc : Pc} (h : enter a (w.pc a.thread) = some pc) :
      Change w a (w.next a.thread w.mem pc .silent)
  | take {t : ι} (hpc : w.pc t = .fetchAdd) :
      Change w (.step t)
        (w.next t { w.mem with ticket_ := w.mem.ticket_ + 1 } (.load w.mem.ticket_) .take)
  | grant {t : ι} {ticket : Word} (hpc : w.pc t = .load ticket) (hturn : ticket - w.mem.next_ = 0) :
      Change w (.step t) (w.next t w.mem (.held ticket) .grant)
  | wait {t : ι} {ticket : Word} (hpc : w.pc t = .load ticket) :
      Change w (.step t) (w.next t w.mem (.pause ticket (ticket - w.mem.next_)) .silent)
  | pause {t : ι} {ticket position : Word} (hpc : w.pc t = .pause ticket position) :
      Change w (.step t) (w.next t w.mem
        (if position - 1 ≠ 0 then .pause ticket (position - 1) else .load ticket) .silent)
  | unlockLoad {t : ι} (hpc : w.pc t = .unlockLoad) :
      Change w (.step t) (w.next t w.mem (.unlockStore true (w.mem.next_ + 1)) .silent)
  | release {t : ι} {argumentless : Bool} {ticket : Word}
      (hpc : w.pc t = .unlockStore argumentless ticket) :
      Change w (.step t) (w.next t { w.mem with next_ := ticket + 1 } .out
        (.release argumentless (ticket + 1)))

/-- **Every step is one of these.** -/
theorem change_of_step (h : (machine ι).step w a = some w') : Change w a w' := by
  change World.step w a = some w' at h
  cases a with
  | lock t | unlock t | unlockTicket t =>
    obtain ⟨pc, henter, rfl⟩ := Option.map_eq_some_iff.mp h
    exact .enter henter
  | step t =>
    obtain ⟨r, hadv, rfl⟩ := Option.map_eq_some_iff.mp h
    cases hpc : w.pc t with
    | out | held ticket => rw [hpc] at hadv; cases hadv
    | fetchAdd => rw [hpc] at hadv; cases hadv; exact .take hpc
    | load ticket =>
      rw [hpc, advance] at hadv
      split at hadv
      · rename_i hturn
        cases hadv
        exact .grant hpc hturn
      · cases hadv
        exact .wait hpc
    | pause ticket position => rw [hpc] at hadv; cases hadv; exact .pause hpc
    | unlockLoad => rw [hpc] at hadv; cases hadv; exact .unlockLoad hpc
    | unlockStore argumentless ticket => rw [hpc] at hadv; cases hadv; exact .release hpc

/-! ## What is so in every run -/

/-- What a thread does with its ticket. -/
def Pc.status : Pc → Status Unit
  | .out | .fetchAdd => .out
  | .load _ | .pause _ _ => .waiting ()
  | .held _ | .unlockLoad | .unlockStore _ _ => .served ()

/-- The tickets are those of the threads in the lock, and `ticket_` is
their number. -/
structure Matched (w : World ι) : Prop where
  status_eq : ∀ t, w.tickets.status t = (w.pc t).status
  inv : Tickets.Inv w.tickets
  ticket_eq : w.mem.ticket_ = BitVec.ofNat 32 w.tickets.issued.length

namespace World

@[simp] theorem next_mem : (w.next t m pc e).mem = m := by cases e <;> rfl

@[simp] theorem next_pc : (w.next t m pc e).pc = Function.update w.pc t pc := by cases e <;> rfl

end World

omit [DecidableEq ι] in
/-- A call that begins has no ticket yet. -/
theorem enter_status {pc' : Pc} (h : enter a pc = some pc') : pc'.status = pc.status := by
  cases a <;> cases pc <;> cases h <;> rfl

/-- A step changes the tickets as it changes the status. -/
theorem Matched.of_status (h : Matched w) {s : Tickets ι Unit} (hs : w'.tickets = s)
    (hinv : Tickets.Inv s) (hstatus : s.status = Function.update w.tickets.status t pc.status)
    (hpc : w'.pc = Function.update w.pc t pc)
    (hticket : w'.mem.ticket_ = BitVec.ofNat 32 s.issued.length) : Matched w' where
  status_eq t' := by
    rw [hs, hstatus, hpc]
    rcases eq_or_ne t' t with rfl | hne
    · rw [Function.update_self, Function.update_self]
    · rw [Function.update_of_ne hne, Function.update_of_ne hne, h.status_eq]
  inv := hs ▸ hinv
  ticket_eq := hs ▸ hticket

/-- A thread that only looks stays matched with its ticket, -/
theorem Matched.silent (h : Matched w) (hst : pc.status = (w.pc t).status) :
    Matched (w.next t w.mem pc .silent) := by
  refine h.of_status (s := w.tickets) rfl h.inv ?_ rfl h.ticket_eq
  rw [hst, ← h.status_eq, Function.update_eq_self]

/-- **and every step keeps the threads matched.** -/
theorem Matched.change (h : Matched w) (hc : Change w a w') : Matched w' := by
  cases hc with
  | enter henter => exact h.silent (enter_status henter)
  | @take t hpc =>
    have hst := h.status_eq t
    rw [hpc] at hst
    refine h.of_status rfl (h.inv.take () hst) rfl rfl ?_
    change w.mem.ticket_ + 1 = BitVec.ofNat 32 (w.tickets.issued ++ [_]).length
    rw [List.length_append, List.length_singleton, Wrap.ofNat_succ, h.ticket_eq]
  | @grant t ticket hpc hturn =>
    have hst := h.status_eq t
    rw [hpc] at hst
    exact h.of_status rfl (h.inv.serve hst) rfl rfl h.ticket_eq
  | wait hpc | unlockLoad hpc => exact h.silent (by rw [hpc]; rfl)
  | pause hpc =>
    refine h.silent ?_
    rw [hpc]
    split <;> rfl
  | @release t argumentless ticket hpc =>
    have hst := h.status_eq t
    rw [hpc] at hst
    exact h.of_status rfl (h.inv.finish hst) rfl rfl h.ticket_eq

omit [DecidableEq ι] in
theorem matched_init : Matched (World.init : World ι) where
  status_eq _ := rfl
  inv := Tickets.inv_empty
  ticket_eq := rfl

/-! ## Releases by ticket -/

/-- What the local variable of a thread is worth: the word of its number,
but for the one that `unlock()` passes on. -/
def Local (no : ℕ) : Pc → Prop
  | .load ticket | .pause ticket _ | .held ticket | .unlockStore false ticket =>
    ticket = BitVec.ofNat 32 no
  | .unlockStore true ticket => ticket = BitVec.ofNat 32 no + 1
  | .out | .fetchAdd | .unlockLoad => True

/-- **The numbers are granted and released in their order**, and `next_` is
the number of releases. -/
structure Orderly (w : World ι) : Prop where
  next_eq : w.mem.next_ = BitVec.ofNat 32 w.tickets.done.length
  local_of : ∀ t, Local (w.tickets.no t) (w.pc t)
  served_eq : w.tickets.served = List.range w.tickets.served.length
  done_eq : w.tickets.done = List.range w.tickets.done.length
  done_le : w.tickets.done.length ≤ w.tickets.served.length
  served_le : w.tickets.served.length ≤ w.tickets.done.length + 1

namespace Orderly

omit [DecidableEq ι] in
/-- Tickets are served in order, -/
theorem mem_served (h : Orderly w) {k : ℕ} :
    k ∈ w.tickets.served ↔ k < w.tickets.served.length := by
  rw [h.served_eq, List.mem_range, List.length_range]

omit [DecidableEq ι] in
/-- and released in order. -/
theorem mem_done (h : Orderly w) {k : ℕ} : k ∈ w.tickets.done ↔ k < w.tickets.done.length := by
  rw [h.done_eq, List.mem_range, List.length_range]

omit [DecidableEq ι] in
/-- **Who was served has the number next.** -/
theorem no_eq_of_served (h : Orderly w) (hM : Matched w) (ht : (w.pc t).status = .served ()) :
    w.tickets.no t = w.tickets.done.length ∧
      w.tickets.served.length = w.tickets.done.length + 1 := by
  obtain ⟨-, hserved, hdone⟩ := hM.inv.of_served t () ((hM.status_eq t).trans ht)
  rw [h.mem_served] at hserved
  rw [h.mem_done] at hdone
  have := h.served_le
  omega

omit [DecidableEq ι] in
/-- **A waiting thread whose number is next finds it so**, and nobody else
is served then. -/
theorem no_eq_of_waiting (h : Orderly w) (hM : Matched w) (hfew : w.outstanding < 2 ^ 32)
    {ticket : Word} (hpc : w.pc t = .load ticket) (hzero : ticket - w.mem.next_ = 0) :
    w.tickets.no t = w.tickets.done.length ∧
      w.tickets.served.length = w.tickets.done.length := by
  have hst : w.tickets.status t = .waiting () := by rw [hM.status_eq, hpc]; rfl
  obtain ⟨-, hserved, hdone⟩ := hM.inv.of_waiting t () hst
  have hlt := hM.inv.no_lt (t := t) (by rw [hst]; simp)
  rw [h.mem_served] at hserved
  rw [h.mem_done] at hdone
  have hlocal := h.local_of t
  rw [hpc] at hlocal
  have hword : BitVec.ofNat 32 w.tickets.done.length = BitVec.ofNat 32 (w.tickets.no t) := by
    rw [← h.next_eq, ← show ticket = _ from hlocal]
    exact ((BitVec.sub_eq_iff_eq_add.mp hzero).trans (BitVec.zero_add _)).symm
  rw [World.outstanding] at hfew
  have heq := Wrap.eq_of_ofNat_eq hword (by omega) (by omega)
  have := h.done_le
  omega

/-- The others' numbers are as they were. -/
theorem locals (h : Orderly w) (n : ι → ℕ) (hself : Local (n t) pc)
    (hother : ∀ t' ≠ t, n t' = w.tickets.no t') (t' : ι) :
    Local (n t') (Function.update w.pc t pc t') := by
  rcases eq_or_ne t' t with rfl | hne
  · rwa [Function.update_self]
  · rw [Function.update_of_ne hne, hother t' hne]
    exact h.local_of t'

/-- A step that only looks keeps the order. -/
theorem silent (h : Orderly w) (hself : Local (w.tickets.no t) pc) :
    Orderly (w.next t w.mem pc .silent) where
  next_eq := h.next_eq
  local_of := h.locals _ hself fun _ _ => rfl
  served_eq := h.served_eq
  done_eq := h.done_eq
  done_le := h.done_le
  served_le := h.served_le

end Orderly

/-- **Every step by ticket keeps the order.** -/
theorem Orderly.change (h : Orderly w) (hM : Matched w) (hfew : w.outstanding < 2 ^ 32)
    (hticket : ∀ r ∈ w'.released, r.argumentless = false) (hc : Change w a w') : Orderly w' := by
  have hlocal_of : ∀ {t pc}, w.pc t = pc → Local (w.tickets.no t) pc :=
    fun {t _} hpc => hpc ▸ h.local_of t
  cases hc with
  | @enter a pc henter =>
    refine h.silent ?_
    have hlocal := h.local_of a.thread
    generalize w.pc a.thread = pc₀ at henter hlocal
    cases a <;> cases pc₀ <;> cases henter <;> trivial
  | @take t hpc =>
    refine ⟨h.next_eq, h.locals (w.tickets.take t ()).no ?_ ?_, h.served_eq, h.done_eq,
      h.done_le, h.served_le⟩
    · change w.mem.ticket_ = _
      simp only [hM.ticket_eq, Tickets.take, Function.update_self]
    · exact fun t' hne => Function.update_of_ne hne _ _
  | @grant t ticket hpc hturn =>
    -- the one let in is the next to be served
    obtain ⟨hno, hlen⟩ := h.no_eq_of_waiting hM hfew hpc hturn
    have hlocal : ticket = BitVec.ofNat 32 (w.tickets.no t) := hlocal_of hpc
    refine ⟨h.next_eq, h.locals w.tickets.no hlocal fun _ _ => rfl, ?_, h.done_eq, ?_, ?_⟩
    all_goals simp only [World.next, Tickets.serve, List.length_append, List.length_singleton]
    · rw [List.range_succ, ← h.served_eq, hno, hlen]
    · omega
    · omega
  | wait hpc =>
    have hlocal := hlocal_of hpc
    exact h.silent hlocal
  | pause hpc =>
    have hlocal := hlocal_of hpc
    refine h.silent ?_
    split <;> exact hlocal
  | @unlockLoad t hpc =>
    have hno := (h.no_eq_of_served (t := t) hM (by rw [hpc]; rfl)).1
    refine h.silent ?_
    change w.mem.next_ + 1 = BitVec.ofNat 32 _ + 1
    rw [h.next_eq, hno]
  | @release t argumentless ticket hpc =>
    obtain ⟨hno, hlen⟩ := h.no_eq_of_served (t := t) hM (by rw [hpc]; rfl)
    obtain rfl : argumentless = false := hticket _ (List.mem_append_right _ List.mem_cons_self)
    have hlocal : ticket = BitVec.ofNat 32 (w.tickets.no t) := hlocal_of hpc
    refine ⟨?_, h.locals w.tickets.no trivial fun _ _ => rfl, h.served_eq, ?_, ?_, ?_⟩
    all_goals simp only [World.next, Tickets.finish, List.length_append, List.length_singleton]
    · rw [Wrap.ofNat_succ, ← hno, hlocal]
    · rw [List.range_succ, ← h.done_eq, hno]
    · omega
    · omega

/-! ## The hand-off -/

/-- Ticket `k` was issued, and has not been released. -/
def Outstanding (w : World ι) (k : ℕ) : Prop :=
  k < w.tickets.issued.length ∧ k ∉ w.tickets.done

/-- **The lock is due to the smallest ticket outstanding**, or to the next
to be issued when there is none. -/
def Due (w : World ι) : Prop :=
  ∃ k, w.mem.next_ = BitVec.ofNat 32 k ∧
    (IsLeast {k | Outstanding w k} k ∨
      (∀ j, ¬ Outstanding w j) ∧ k = w.tickets.issued.length)

/-- **Every release left `next_` at the ticket after its own, and the lock
is due.** -/
def HandedOn (w : World ι) : Prop :=
  (∀ r ∈ w.released, r.next = BitVec.ofNat 32 r.no + 1) ∧ Due w

/-- Every release was by the ticket that `lock()` returned. -/
def ByTicket (w : World ι) : Prop := ∀ r ∈ w.released, r.argumentless = false

instance (w : World ι) : Decidable (ByTicket w) :=
  inferInstanceAs (Decidable (∀ r ∈ w.released, _))

omit [DecidableEq ι] in
/-- In an orderly state every thread waits for its own ticket, and releases
it. -/
theorem Orderly.due (h : Orderly w) (hM : Matched w) : Due w := by
  refine ⟨w.tickets.done.length, h.next_eq, ?_⟩
  have hle : w.tickets.done.length ≤ w.tickets.issued.length := by
    have hlt : ∀ k < w.tickets.done.length, k < w.tickets.issued.length := fun k hk =>
      hM.inv.served_lt k (hM.inv.done_served k (h.mem_done.mpr hk))
    by_contra hgt
    exact Nat.lt_irrefl _ (hlt w.tickets.issued.length (by omega))
  rcases Nat.lt_or_ge w.tickets.done.length w.tickets.issued.length with hlt | hge
  · refine .inl ⟨⟨hlt, fun hmem => Nat.lt_irrefl _ (h.mem_done.mp hmem)⟩, fun j hj => ?_⟩
    exact Nat.le_of_not_lt fun hjlt => hj.2 (h.mem_done.mpr hjlt)
  · exact .inr ⟨fun j hj => hj.2 (h.mem_done.mpr (by have := hj.1; omega)), by omega⟩

/-- **What a release stores is told by which `unlock` it was.** -/
theorem Change.released (h : Orderly w) (hc : Change w a w') :
    w'.released = w.released ∨ ∃ r, w'.released = w.released ++ [r] ∧
      (r.next = BitVec.ofNat 32 r.no + 1 ↔ r.argumentless = false) := by
  cases hc with
  | enter | take | grant | wait | pause | unlockLoad => exact .inl rfl
  | @release t argumentless ticket hpc =>
    have hlocal := h.local_of t
    rw [hpc] at hlocal
    refine .inr ⟨_, rfl, ?_⟩
    cases argumentless with
    | false => exact iff_of_true (congrArg (· + 1) (show ticket = _ from hlocal)) rfl
    | true =>
      refine iff_of_false (fun heq => ?_) Bool.noConfusion
      obtain rfl : ticket = _ := hlocal
      have hskip : BitVec.ofNat 32 (w.tickets.no t) + 1 + 1
          = BitVec.ofNat 32 (w.tickets.no t) + 1 := heq
      generalize BitVec.ofNat 32 (w.tickets.no t) = word at hskip
      bv_omega

/-- **A lock is in order for as long as every release is by ticket**, and
its releases tell when one was not. -/
structure Told (w : World ι) : Prop where
  matched : Matched w
  orderly : ByTicket w → Orderly w
  next_iff : (∀ r ∈ w.released, r.next = BitVec.ofNat 32 r.no + 1) ↔ ByTicket w

omit [DecidableEq ι] in
theorem told_init : Told (World.init : World ι) where
  matched := matched_init
  orderly _ := ⟨rfl, fun _ => trivial, rfl, rfl, Nat.le_refl _, Nat.zero_le _⟩
  next_iff := iff_of_true (fun _ hr => absurd hr List.not_mem_nil)
    (fun _ hr => absurd hr List.not_mem_nil)

theorem Change.released_mono (hc : Change w a w') {r : Release} (hr : r ∈ w.released) :
    r ∈ w'.released := by
  cases hc with
  | enter | take | grant | wait | pause | unlockLoad => exact hr
  | release => exact List.mem_append_left _ hr

/-- **Every step keeps this**, with fewer than `2 ^ 32` tickets outstanding. -/
theorem Told.change (h : Told w) (hfew : w.outstanding < 2 ^ 32) (hc : Change w a w') :
    Told w' := by
  have hback : ByTicket w' → ByTicket w := fun hw' r hr => hw' r (hc.released_mono hr)
  refine ⟨h.matched.change hc, fun hw' => ?_, ?_⟩
  · exact (h.orderly (hback hw')).change h.matched hfew hw' hc
  · by_cases hw : ByTicket w
    · -- nothing was skipped yet, so what is stored now tells
      rcases hc.released (h.orderly hw) with hsame | ⟨r, hr, hnext⟩
      · rw [ByTicket, hsame]
        exact h.next_iff
      · rw [ByTicket, hr]
        simp only [List.forall_mem_append, List.forall_mem_singleton]
        exact and_congr h.next_iff hnext
    · refine iff_of_false (fun hnext => hw (h.next_iff.mp fun r hr => ?_)) (mt hback hw)
      exact hnext r (hc.released_mono hr)

theorem told_of_run (hok : ∀ w a w', ok w a w' → w'.outstanding < 2 ^ 32)
    (hr : (machine ι).Run ok w) : Told w ∧ w.outstanding < 2 ^ 32 := by
  have h0 : Told (World.init : World ι) ∧ (World.init : World ι).outstanding < 2 ^ 32 :=
    ⟨told_init, Nat.two_pow_pos 32⟩
  refine Machine.Run.invariant (M := machine ι) (I := fun w => Told w ∧ w.outstanding < 2 ^ 32)
    h0 ?_ hr
  exact fun w a w' _ h hstep hokw =>
    ⟨h.1.change h.2 (change_of_step hstep), hok _ _ _ hokw⟩

/-- **The lock is handed on just when it is released by ticket.** In every
run with fewer than `2 ^ 32` tickets outstanding, `next_` was left at the
ticket after the releasing one every time, and is the smallest outstanding,
if and only if no release so far was by the argumentless `unlock()`. -/
theorem handedOn_iff
    (hr : (machine ι).Run (fun _ _ w' => w'.outstanding < 2 ^ 32) w) :
    HandedOn w ↔ ByTicket w := by
  have hT := (told_of_run (fun _ _ _ h => h) hr).1
  constructor
  · exact fun h => hT.next_iff.mp h.1
  · exact fun h => ⟨hT.next_iff.mpr h, (hT.orderly h).due hT.matched⟩

/-- One thread locks and unlocks by ticket, then a second thread does. -/
theorem handedOn_iff_run :
    ∃ w : World (Fin 2), w.mem = ⟨2, 2⟩ ∧ w.released.length = 2 ∧ (HandedOn w ↔ ByTicket w) := by
  obtain ⟨w, hr, hw⟩ := (machine (Fin 2)).exists_run_of_execWhile
    (fun _ _ w' => w'.outstanding < 2 ^ 32)
    [.lock 0, .step 0, .step 0, .unlockTicket 0, .lock 1, .step 1, .step 1, .step 0, .step 1,
      .step 1, .unlockTicket 1, .step 1]
    (fun w => (w.mem, w.released.length)) (b := (⟨2, 2⟩, 2)) (by decide)
  rw [Prod.mk.injEq] at hw
  exact ⟨w, hw.1, hw.2, handedOn_iff hr⟩

/-- `lock()` and then `unlock()` by one thread leave `next_` at 2, and the
next ticket to be issued is 1. -/
theorem handedOn_fails :
    ∃ w : World (Fin 2), (machine (Fin 2)).Run (fun _ _ w' => w'.outstanding < 2 ^ 32) w ∧
      w.mem = ⟨1, 2⟩ ∧ w.released = [⟨true, 0, 2⟩] ∧ ¬ Due w := by
  obtain ⟨w, hr, hw⟩ := (machine (Fin 2)).exists_run_of_execWhile
    (fun _ _ w' => w'.outstanding < 2 ^ 32)
    [.lock 0, .step 0, .step 0, .unlock 0, .step 0, .step 0]
    (fun w => (w.mem, w.released, w.tickets.issued.length, w.tickets.done))
    (b := (⟨1, 2⟩, [⟨true, 0, 2⟩], 1, [0])) (by decide)
  simp only [Prod.mk.injEq] at hw
  obtain ⟨hmem, hreleased, hissued, hdone⟩ := hw
  refine ⟨w, hr, hmem, hreleased, ?_⟩
  rintro ⟨k, hnext, hleast | ⟨-, hk⟩⟩
  · have hmem_k : Outstanding w k := hleast.1
    rw [Outstanding, hissued, hdone, List.mem_singleton] at hmem_k
    omega
  · rw [hk, hissued, hmem] at hnext
    exact absurd hnext (by decide)

/-! ## Scoped locks -/

/-- The act of a thread that holds the lock by a `LockGuard`, which releases
it by its ticket. -/
def Act.Scoped : Act ι → Prop
  | .unlock _ => False
  | .lock _ | .unlockTicket _ | .step _ => True

instance : DecidablePred (Act.Scoped (ι := ι))
  | .unlock _ => inferInstanceAs (Decidable False)
  | .lock _ | .unlockTicket _ | .step _ => inferInstanceAs (Decidable True)

/-- Not inside the argumentless `unlock()`. -/
def Pc.Scoped : Pc → Prop
  | .unlockLoad | .unlockStore true _ => False
  | .out | .fetchAdd | .load _ | .pause _ _ | .held _ | .unlockStore false _ => True

/-- A `LockGuard` is held from the return of `lock()` until the store that
releases it. -/
def Pc.Holding (pc : Pc) : Prop := pc.status = .served ()

/-- No thread is inside the argumentless `unlock()`, and none was. -/
structure AllScoped (w : World ι) : Prop where
  pc : ∀ t, (w.pc t).Scoped
  byTicket : ByTicket w

theorem AllScoped.next (h : AllScoped w) (hpc : pc.Scoped)
    (hrel : ∀ r ∈ (w.next t m pc e).released, r.argumentless = false) :
    AllScoped (w.next t m pc e) := by
  refine ⟨fun t' => ?_, hrel⟩
  rw [World.next_pc]
  rcases eq_or_ne t' t with rfl | hne
  · rwa [Function.update_self]
  · rw [Function.update_of_ne hne]
    exact h.pc t'

/-- **With guards alone no release is without its ticket.** -/
theorem AllScoped.change (h : AllScoped w) (ha : a.Scoped) (hc : Change w a w') :
    AllScoped w' := by
  cases hc with
  | @enter a pc henter =>
    refine h.next ?_ h.byTicket
    generalize w.pc a.thread = pc₀ at henter
    cases a <;> cases pc₀ <;> cases henter <;> trivial
  | take | grant | wait => exact h.next trivial h.byTicket
  | pause =>
    refine h.next ?_ h.byTicket
    split <;> trivial
  | @unlockLoad t hpc =>
    have hsc := h.pc t
    rw [hpc] at hsc
    exact hsc.elim
  | @release t argumentless ticket hpc =>
    have hsc := h.pc t
    rw [hpc] at hsc
    cases argumentless with
    | true => exact hsc.elim
    | false =>
      refine h.next trivial fun r hr => ?_
      rcases List.mem_append.mp hr with hr | hr
      · exact h.byTicket r hr
      · rw [List.mem_singleton.mp hr]

/-- **Mutual exclusion and fairness.** At most one thread holds the lock,
the lock was granted by the order of the `fetch_add`s with no ticket
skipped, and it is due to the smallest one outstanding. -/
structure Fair (w : World ι) : Prop where
  alone : ∀ t t', (w.pc t).Holding → (w.pc t').Holding → t = t'
  in_order : w.tickets.served = List.range w.tickets.served.length
  due : Due w

omit [DecidableEq ι] in
theorem Orderly.fair (h : Orderly w) (hM : Matched w) : Fair w where
  alone t t' ht ht' := by
    have hout : ∀ {t}, (w.pc t).Holding → w.tickets.status t ≠ .out := fun {t} ht => by
      rw [hM.status_eq t, show (w.pc t).status = _ from ht]
      simp
    refine hM.inv.holder_unique (hout ht) (hout ht') ?_
    rw [(h.no_eq_of_served hM ht).1, (h.no_eq_of_served hM ht').1]
  in_order := h.served_eq
  due := h.due hM

/-- **Scoped locks exclude one another and are granted first come, first
served**, in every run with fewer than `2 ^ 32` outstanding. -/
theorem scoped_fair
    (hr : (machine ι).Run (fun _ a w' => a.Scoped ∧ w'.outstanding < 2 ^ 32) w) : Fair w := by
  have hT := (told_of_run (fun _ _ _ h => h.2) hr).1
  have hS : AllScoped w := by
    have hinit : AllScoped (World.init : World ι) :=
      ⟨fun _ => trivial, fun _ hr => absurd hr List.not_mem_nil⟩
    refine Machine.Run.invariant (M := machine ι) hinit ?_ hr
    exact fun w a w' _ h hstep hok => h.change hok.1 (change_of_step hstep)
  exact (hT.orderly hS.byTicket).fair hT.matched

/-- A second thread waits while the first holds the lock, and is granted it
at the release. -/
theorem scoped_fair_run :
    ∃ w : World (Fin 2), w.tickets.served = [0, 1] ∧ (∃ ticket, w.pc 1 = .held ticket) ∧
      Fair w := by
  obtain ⟨w, hr, hw⟩ := (machine (Fin 2)).exists_run_of_execWhile
    (fun _ a w' => a.Scoped ∧ w'.outstanding < 2 ^ 32)
    [.lock 0, .step 0, .lock 1, .step 1, .step 1, .step 0, .unlockTicket 0, .step 1, .step 0,
      .step 1]
    (fun w => (w.tickets.served, w.pc 1)) (b := ([0, 1], .held 1)) (by decide)
  rw [Prod.mk.injEq] at hw
  exact ⟨w, hw.1, ⟨_, hw.2⟩, scoped_fair hr⟩

end TicketSpinlock

end AtomicQueue
