import AtomicQueue.Common.Wrap
import AtomicQueue.Model.SpinlockOrders
/-!
# One thread at a time under a `LockGuard`

The messages of `ticket_` are numbered without gaps, so each thread has a
ticket of its own whatever it has seen. The values of `next_` count the
calls that have returned, so one out of date is the ticket of such a call
and of no thread that waits. So the thread that finds its ticket there has
read the latest message, and with it all that was done under the lock
before.
-/

namespace AtomicQueue

open Views Object

namespace TicketSpinlock

variable {N C R ι : Type} {W : N → Type} {plain : ∀ n, W n} {body : C → Body W R}

/-- The ticket of a thread, once it has one. -/
def GuardPc.ticket : GuardPc W C R → Option Word
  | .load _ ticket | .pause _ ticket _ | .locked ticket _ => some ticket
  | .idle | .fetchAdd _ => none

/-- Whether a thread is in the scope of its guard. -/
def GuardPc.inside : GuardPc W C R → Bool
  | .locked _ _ => true
  | _ => false

/-- In the scope of its guard a thread is in the body, -/
theorem GuardPc.inside_iff {pc : GuardPc W C R} :
    pc.inside = true ↔ ∃ ticket b, pc = .locked ticket b := by
  cases pc <;> simp [GuardPc.inside]

/-- and has a ticket. -/
theorem GuardPc.ticket_of_inside {pc : GuardPc W C R} (h : pc.inside = true) :
    pc.ticket ≠ none := by
  cases pc <;> first | exact Option.some_ne_none _ | cases h

/-- A thread waits until it finds its ticket. -/
def GuardPc.toSection : GuardPc W C R → Section W C R
  | .idle => .idle
  | .fetchAdd c | .load c _ | .pause c _ _ => .waits c
  | .locked _ b => .inside b

theorem GuardPc.inside_of_section {pc : GuardPc W C R} {b : Body W R}
    (h : pc.toSection = .inside b) :
    pc.inside = true := by
  cases pc <;> first | rfl | cases h

namespace Guarded

variable {s s' : Guarded W C R ι} {t u : ι} {last : Loc → ℕ} {no : ι → ℕ} {served : ℕ}
variable {top : ∀ _ : Loc, Message ι Loc Word}

/-! ## What every run keeps -/

/-- **The tickets, the calls served and what the owner has seen.** Thread
`t` with a ticket has number `no t`, and `served` calls have returned. -/
structure Kept (s : Guarded W C R ι) (last : Loc → ℕ) (top : ∀ _ : Loc, Message ι Loc Word)
    (no : ι → ℕ) (served : ℕ) : Prop where
  latest : Latest s.mem last top
  front_le : ∀ t, (s.view t).1 ≤ last
  full : ∀ τ ≤ last .ticket_, s.mem.msgs .ticket_ τ ≠ none
  issued : (top .ticket_).value = BitVec.ofNat 32 (last .ticket_)
  next_eq : (top .next_).value = BitVec.ofNat 32 served
  served_le : served ≤ last .ticket_
  /-- A value of `next_` that is out of date is the ticket of a call that has
  returned. -/
  stale : ∀ τ msg, τ < last .next_ → s.mem.msgs .next_ τ = some msg →
    ∃ k < served, msg.value = BitVec.ofNat 32 k
  holds : ∀ t ticket, (s.pc t).ticket = some ticket →
    ticket = BitVec.ofNat 32 (no t) ∧ served ≤ no t ∧ no t < last .ticket_
  inj : ∀ t u, (s.pc t).ticket ≠ none → (s.pc u).ticket ≠ none → no t = no u → t = u
  free : (∀ t, (s.pc t).inside = false) → ∀ n, s.mem.Settled n (top .next_).view
  owns : ∀ t, (s.pc t).inside = true →
    no t = served ∧ (s.view t).1 .next_ = last .next_ ∧ ∀ n, s.mem.Settled n (s.view t)

/-- **One thread is in the scope of the lock.** -/
theorem Kept.alone (h : Kept s last top no served) (ht : (s.pc t).inside = true)
    (hu : (s.pc u).inside = true) : t = u :=
  h.inj t u (GuardPc.ticket_of_inside ht) (GuardPc.ticket_of_inside hu)
    ((h.owns t ht).1.trans (h.owns u hu).1.symm)

theorem kept_init : Kept (init C R ι plain) (fun _ => 0) (fun _ => ⟨0, ⊥⟩) (fun _ => 0) 0 where
  latest :=
    ⟨fun _ => rfl, fun _ τ hτ => if_neg (by omega), fun _ τ msg hmsg => by
      obtain ⟨-, heq⟩ := Option.ite_none_right_eq_some.mp hmsg
      cases heq
      exact bot_le⟩
  front_le _ := bot_le
  full τ hτ := by
    obtain rfl := Nat.le_zero.mp hτ
    exact Option.some_ne_none _
  issued := rfl
  next_eq := rfl
  served_le := le_rfl
  stale τ _ hτ := absurd hτ (Nat.not_lt_zero τ)
  holds t ticket h := by cases h
  inj t u h := absurd rfl h
  free _ n a ha := absurd ha List.not_mem_nil
  owns t h := by cases h

/-- The tickets issued are fewer than there are. -/
theorem Kept.lt_of_unturned (h : Kept s last top no served) (hs : s.Unturned) :
    last .ticket_ < 2 ^ 32 :=
  not_le.mp fun hle => h.full _ hle hs

/-- The increments of `ticket_` leave no gap. -/
theorem Kept.gapless (h : Kept s last top no served) :
    Gapless s.mem last .ticket_ fun _ => True :=
  fun τ _ hτ _ _ => h.full (τ + 1) hτ

variable [DecidableEq ι]

theorem next_pc_self {m : Memory ι (fun _ : Loc => Word) W} {v : View ι Loc} {pc : GuardPc W C R} :
    (s.next t m v pc).pc t = pc := Function.update_self ..

theorem next_pc_of_ne {m : Memory ι (fun _ : Loc => Word) W} {v : View ι Loc} {pc : GuardPc W C R}
    (h : u ≠ t) : (s.next t m v pc).pc u = s.pc u := Function.update_of_ne h ..

theorem next_view_self {m : Memory ι (fun _ : Loc => Word) W} {v : View ι Loc}
    {pc : GuardPc W C R} : (s.next t m v pc).view t = v := Function.update_self ..

theorem next_view_of_ne {m : Memory ι (fun _ : Loc => Word) W} {v : View ι Loc}
    {pc : GuardPc W C R} (h : u ≠ t) : (s.next t m v pc).view u = s.view u :=
  Function.update_of_ne h ..

variable {m' : Memory ι (fun _ : Loc => Word) W} {v' : View ι Loc} {pc' : GuardPc W C R}

/-- A thread that keeps its ticket leaves all as they are. -/
theorem next_ticket (h : pc'.ticket = (s.pc t).ticket) (u : ι) :
    ((s.next t m' v' pc').pc u).ticket = (s.pc u).ticket := by
  rcases eq_or_ne u t with rfl | hne
  · rwa [next_pc_self]
  · rw [next_pc_of_ne hne]

/-! ## The steps -/

/-- **A thread outside the scope of the lock only looks.** -/
theorem Kept.look (h : Kept s last top no served) (hv' : v'.1 ≤ last)
    (hticket : pc'.ticket = (s.pc t).ticket) (hold : (s.pc t).inside = false)
    (hnew : pc'.inside = false) : Kept (s.next t s.mem v' pc') last top no served := by
  have hpc : ∀ u, ((s.next t s.mem v' pc').pc u).ticket = (s.pc u).ticket := next_ticket hticket
  have hinside : ∀ u, ((s.next t s.mem v' pc').pc u).inside = (s.pc u).inside := fun u => by
    rcases eq_or_ne u t with rfl | hne
    · rw [next_pc_self, hold, hnew]
    · rw [next_pc_of_ne hne]
  refine ⟨h.latest, front_le_update h.front_le hv', h.full, h.issued, h.next_eq, h.served_le,
    h.stale, fun u ticket hu => h.holds u ticket ((hpc u).symm.trans hu),
    fun u w hu hw => h.inj u w (by rwa [← hpc]) (by rwa [← hpc]),
    fun hfree => h.free fun u => (hinside u).symm.trans (hfree u), fun u hu => ?_⟩
  have hne : u ≠ t := by
    rintro rfl
    rw [hinside, hold] at hu
    cases hu
  rw [next_view_of_ne hne]
  exact h.owns u ((hinside u).symm.trans hu)

/-- **A thread takes a ticket**, the next one. -/
theorem Kept.take (h : Kept s last top no served) {o : Order} {msg : Message ι Loc Word}
    (hw : Writes s.mem last top .ticket_ o (last .ticket_ + 1) msg m' v')
    (hval : msg.value = (top .ticket_).value + 1) (hnone : (s.pc t).ticket = none)
    (hticket : pc'.ticket = some (top .ticket_).value) (hnew : pc'.inside = false) :
    Kept (s.next t m' v' pc') (Function.update last .ticket_ (last .ticket_ + 1))
      (Function.update top .ticket_ msg) (Function.update no t (last .ticket_)) served := by
  have hmsgs : m'.msgs .next_ = s.mem.msgs .next_ := by
    rw [hw.memory]
    exact Memory.add_msgs_of_ne (by decide)
  have hlog : m'.log = s.mem.log := by
    rw [hw.memory]
    rfl
  have hold : ∀ u, u ≠ t → ((s.next t m' v' pc').pc u) = s.pc u := fun u hne => next_pc_of_ne hne
  have hlast : Function.update last .ticket_ (last .ticket_ + 1) .next_ = last .next_ :=
    Function.update_of_ne (by decide) ..
  have htop : Function.update top .ticket_ msg .next_ = top .next_ :=
    Function.update_of_ne (by decide) ..
  have hout : ∀ u, ((s.next t m' v' pc').pc u).inside = true →
      u ≠ t ∧ (s.pc u).inside = true := fun u hu => by
    rcases eq_or_ne u t with rfl | hne
    · rw [next_pc_self, hnew] at hu
      cases hu
    · exact ⟨hne, hold u hne ▸ hu⟩
  -- the others have earlier numbers
  have hlt : ∀ u, u ≠ t → ((s.next t m' v' pc').pc u).ticket ≠ none → no u < last .ticket_ := by
    intro u hne hu
    rw [hold u hne] at hu
    obtain ⟨ticket, hticket⟩ := Option.ne_none_iff_exists'.mp hu
    exact (h.holds u ticket hticket).2.2
  refine
    { latest := hw.latest
      front_le := front_le_update
        (fun u => (h.front_le u).trans (le_update_last (Nat.le_succ _))) hw.front_le
      full := fun τ hτ => ?full
      issued := ?issued
      next_eq := htop ▸ h.next_eq
      served_le := ?served_le
      stale := fun τ msg' hτ hmsg => h.stale τ msg' (hlast ▸ hτ) (hmsgs ▸ hmsg)
      holds := fun u ticket hu => ?holds
      inj := fun u w hu hw' heq => ?inj
      free := fun hfree n => ?free
      owns := fun u hu => ?owns }
  case full =>
    rw [Function.update_self] at hτ
    change m'.msgs .ticket_ τ ≠ none
    rw [hw.memory, Memory.add_msgs_self]
    rcases eq_or_ne τ (last .ticket_ + 1) with rfl | hne
    · rw [Function.update_self]
      exact Option.some_ne_none _
    · rw [Function.update_of_ne hne]
      exact h.full τ (by omega)
  case issued =>
    rw [Function.update_self, Function.update_self, hval, h.issued]
    exact (BitVec.ofNat_add _ _).symm
  case served_le =>
    rw [Function.update_self]
    exact h.served_le.trans (Nat.le_succ _)
  case holds =>
    rw [Function.update_self]
    rcases eq_or_ne u t with rfl | hne
    · rw [next_pc_self, hticket, Option.some.injEq, h.issued] at hu
      rw [Function.update_self]
      exact ⟨hu.symm, h.served_le, Nat.lt_succ_self _⟩
    · rw [hold u hne] at hu
      obtain ⟨heq, hle, hlt⟩ := h.holds u ticket hu
      rw [Function.update_of_ne hne]
      exact ⟨heq, hle, hlt.trans (Nat.lt_succ_self _)⟩
  case inj =>
    rcases eq_or_ne u t with rfl | hne
    · rcases eq_or_ne w u with rfl | hne'
      · rfl
      · rw [Function.update_self, Function.update_of_ne hne'] at heq
        exact absurd heq (hlt w hne' hw').ne'
    · rcases eq_or_ne w t with rfl | hne'
      · rw [Function.update_self, Function.update_of_ne hne] at heq
        exact absurd heq (hlt u hne hu).ne
      · rw [Function.update_of_ne hne, Function.update_of_ne hne'] at heq
        exact h.inj u w (hold u hne ▸ hu) (hold w hne' ▸ hw') heq
  case free =>
    rw [htop]
    change ∀ a ∈ m'.log n, _
    rw [hlog]
    refine h.free (fun u => ?_) n
    rcases eq_or_ne u t with rfl | hne
    · by_contra hin
      exact GuardPc.ticket_of_inside (eq_true_of_ne_false hin) hnone
    · rw [← hold u hne]
      exact hfree u
  case owns =>
    obtain ⟨hne, hin⟩ := hout u hu
    obtain ⟨heq, hcur, hset⟩ := h.owns u hin
    rw [next_view_of_ne hne, Function.update_of_ne hne, hlast]
    refine ⟨heq, hcur, fun n => ?_⟩
    change ∀ a ∈ m'.log n, _
    rw [hlog]
    exact hset n

omit [DecidableEq ι] in
/-- **A thread that finds its ticket** has read the latest message, it is its
turn, and nobody is in the scope of the lock. -/
theorem Kept.found (h : Kept s last top no served) (hturn : last .ticket_ < 2 ^ 32) {τ : ℕ}
    {msg : Message ι Loc Word} (hr : Reads s.mem last (s.view t) .next_ .acquire τ msg v')
    {c : C} {ticket : Word} (hpc : s.pc t = .load c ticket) (hfound : ticket - msg.value = 0) :
    τ = last .next_ ∧ msg = top .next_ ∧ no t = served ∧ ∀ u, (s.pc u).inside = false := by
  obtain ⟨hticket, hle, hlt⟩ := h.holds t ticket (by rw [hpc]; rfl)
  have hvalue : msg.value = BitVec.ofNat 32 (no t) := by
    rw [← hticket]
    exact ((BitVec.sub_eq_iff_eq_add.mp hfound).trans (BitVec.zero_add _)).symm
  have hno : ∀ k ≤ no t, msg.value = BitVec.ofNat 32 k → k = no t := fun k hk hmsg =>
    Wrap.eq_of_ofNat_eq (hmsg.symm.trans hvalue) (by omega) (by omega)
  have hτ : τ = last .next_ := by
    refine le_antisymm (h.latest.le_last hr.found) (not_lt.mp fun hlt => ?_)
    obtain ⟨k, hk, hmsg⟩ := h.stale τ msg hlt hr.found
    have := hno k (by omega) hmsg
    omega
  have htop : msg = top .next_ := h.latest.eq_top (hτ ▸ hr.found)
  have hserved : no t = served := (hno served hle (htop ▸ h.next_eq)).symm
  refine ⟨hτ, htop, hserved, fun u => ?_⟩
  by_contra hin
  have hin := eq_true_of_ne_false hin
  have heq := h.inj u t (GuardPc.ticket_of_inside hin) (by rw [hpc]; exact Option.some_ne_none _)
    ((h.owns u hin).1.trans hserved.symm)
  rw [heq, hpc] at hin
  cases hin

/-- It has seen all that was done under the lock. -/
theorem Kept.enter (h : Kept s last top no served) (hturn : last .ticket_ < 2 ^ 32) {τ : ℕ}
    {msg : Message ι Loc Word} (hr : Reads s.mem last (s.view t) .next_ .acquire τ msg v')
    {c : C} {ticket : Word} (hpc : s.pc t = .load c ticket) (hfound : ticket - msg.value = 0)
    {b : Body W R} :
    Kept (s.next t s.mem v' (.locked ticket b)) last top no served := by
  obtain ⟨rfl, rfl, hserved, hnobody⟩ := h.found hturn hr hpc hfound
  have hpcs : ∀ u, ((s.next t s.mem v' (.locked ticket b)).pc u).ticket = (s.pc u).ticket :=
    next_ticket (by rw [hpc]; rfl)
  refine ⟨h.latest, front_le_update h.front_le hr.front_le, h.full, h.issued, h.next_eq,
    h.served_le, h.stale, fun u x hu => h.holds u x ((hpcs u).symm.trans hu),
    fun u w hu hw => h.inj u w (by rwa [← hpcs]) (by rwa [← hpcs]), fun hfree => ?_,
    fun u hu => ?_⟩
  · have hin := hfree t
    rw [next_pc_self] at hin
    cases hin
  · rcases eq_or_ne u t with rfl | hne
    · rw [next_view_self]
      exact ⟨hserved, le_antisymm (hr.front_le _) hr.le_front,
        fun n => (h.free hnobody n).mono (hr.received rfl)⟩
    · rw [next_pc_of_ne hne, hnobody u] at hu
      cases hu

/-- The owner accesses what the lock guards. -/
theorem Kept.access [DecidableEq N] (h : Kept s last top no served) {ticket : Word}
    {b b' : Body W R} (hpc : s.pc t = .locked ticket b) {n : N} {writes : Bool} {y : W n} :
    Kept (s.next t (s.mem.access n ⟨t, (s.view t).2 t + 1, writes⟩ y) (tick (s.view t) t)
      (.locked ticket b')) last top no served := by
  have hin : (s.pc t).inside = true := by
    rw [hpc]
    rfl
  have hpcs : ∀ u, ((s.next t (s.mem.access n ⟨t, (s.view t).2 t + 1, writes⟩ y)
      (tick (s.view t) t) (.locked ticket b')).pc u).ticket = (s.pc u).ticket :=
    next_ticket (by rw [hpc]; rfl)
  refine ⟨h.latest.access, front_le_update h.front_le (h.front_le t), h.full, h.issued, h.next_eq,
    h.served_le, h.stale, fun u x hu => h.holds u x ((hpcs u).symm.trans hu),
    fun u w hu hw => h.inj u w (by rwa [← hpcs]) (by rwa [← hpcs]), fun hfree => ?_,
    fun u hu => ?_⟩
  · have hin := hfree t
    rw [next_pc_self] at hin
    cases hin
  · rcases eq_or_ne u t with rfl | hne
    · obtain ⟨heq, hcur, hset⟩ := h.owns u hin
      rw [next_view_self]
      refine ⟨heq, hcur, fun n' => ?_⟩
      rcases eq_or_ne n' n with rfl | hne
      · exact ((hset n').mono le_tick).access
      · intro a ha
        exact (hset n').mono le_tick a (by rwa [← Memory.access_log_of_ne hne])
    · rw [next_pc_of_ne hne] at hu
      exact absurd (h.alone hu hin) hne

/-- **The owner leaves**, passing on what it has seen to the next number. -/
theorem Kept.leave (h : Kept s last top no served) {τ : ℕ} {msg : Message ι Loc Word}
    (hw : Writes s.mem last top .next_ .release τ msg m' v') (hle : s.view t ≤ v')
    {ticket : Word} {b : Body W R} (hpc : s.pc t = .locked ticket b)
    (hval : msg.value = ticket + 1) :
    Kept (s.next t m' v' .idle) (Function.update last .next_ τ) (Function.update top .next_ msg)
      no (served + 1) := by
  have hin : (s.pc t).inside = true := by
    rw [hpc]
    rfl
  obtain ⟨hserved, -, hset⟩ := h.owns t hin
  obtain ⟨hticket, -, hlt⟩ := h.holds t ticket (by rw [hpc]; rfl)
  have hmsgs : m'.msgs .ticket_ = s.mem.msgs .ticket_ := by
    rw [hw.memory]
    exact Memory.add_msgs_of_ne (by decide)
  have hlog : m'.log = s.mem.log := by
    rw [hw.memory]
    rfl
  have hlast : Function.update last .next_ τ .ticket_ = last .ticket_ :=
    Function.update_of_ne (by decide) ..
  have htop : Function.update top .next_ msg .ticket_ = top .ticket_ :=
    Function.update_of_ne (by decide) ..
  have hold : ∀ u, ((s.next t m' v' .idle).pc u).ticket ≠ none →
      u ≠ t ∧ (s.next t m' v' .idle).pc u = s.pc u := fun u hu => by
    rcases eq_or_ne u t with rfl | hne
    · rw [next_pc_self] at hu
      exact absurd rfl hu
    · exact ⟨hne, next_pc_of_ne hne⟩
  refine
    { latest := hw.latest
      front_le := front_le_update
        (fun u => (h.front_le u).trans (le_update_last hw.after.le)) hw.front_le
      full := fun τ' hτ => hmsgs ▸ h.full τ' (hlast ▸ hτ)
      issued := by rw [hlast, htop]; exact h.issued
      next_eq := ?next_eq
      served_le := by rw [hlast]; omega
      stale := fun τ' msg' hτ hmsg => ?stale
      holds := fun u x hu => ?holds
      inj := fun u w hu hw' heq => h.inj u w ((hold u hu).2 ▸ hu) ((hold w hw').2 ▸ hw') heq
      free := fun _ n => ?free
      owns := fun u hu => ?owns }
  case next_eq =>
    rw [Function.update_self, hval, hticket, hserved]
    exact (BitVec.ofNat_add _ _).symm
  case stale =>
    rw [Function.update_self] at hτ
    change m'.msgs .next_ τ' = some msg' at hmsg
    rw [hw.memory, Memory.add_msgs_self, Function.update_of_ne hτ.ne] at hmsg
    rcases (h.latest.le_last hmsg).lt_or_eq with hbefore | rfl
    · obtain ⟨k, hk, heq⟩ := h.stale τ' msg' hbefore hmsg
      exact ⟨k, hk.trans (Nat.lt_succ_self _), heq⟩
    · rw [h.latest.eq_top hmsg]
      exact ⟨served, Nat.lt_succ_self _, h.next_eq⟩
  case holds =>
    obtain ⟨hne, heq⟩ := hold u (by rw [hu]; exact Option.some_ne_none _)
    rw [heq] at hu
    obtain ⟨hx, hge, hlt'⟩ := h.holds u x hu
    have hother : no u ≠ served := fun hno =>
      hne (h.inj u t (by rw [hu]; exact Option.some_ne_none _) (GuardPc.ticket_of_inside hin)
        (hno.trans hserved.symm))
    rw [hlast]
    exact ⟨hx, by omega, hlt'⟩
  case free =>
    rw [Function.update_self]
    change ∀ a ∈ m'.log n, _
    rw [hlog]
    exact (hset n).mono (hle.trans (hw.released rfl))
  case owns =>
    obtain ⟨hne, heq⟩ := hold u (GuardPc.ticket_of_inside hu)
    rw [heq] at hu
    exact absurd (h.alone hu hin) hne

variable [DecidableEq N]

/-- Where the threads are with their calls. -/
def sections (s : Guarded W C R ι) (t : ι) : Section W C R := (s.pc t).toSection

omit [DecidableEq N] in
/-- Only the thread that steps changes its section. -/
theorem sections_next {pc : GuardPc W C R} : sections (s.next t m' v' pc) =
    Function.update (sections s) t pc.toSection :=
  Function.comp_update GuardPc.toSection s.pc t pc

/-- A step that does nothing for the call. -/
theorem critical_still {p : ∀ n, W n} {pc : GuardPc W C R}
    (hpc : pc.toSection = (s.pc t).toSection) :
    Critical body p (sections s) [] p (sections (s.next t m' v' pc)) := by
  rw [sections_next]
  exact .stay hpc

omit [DecidableEq ι] [DecidableEq N] in
/-- While one thread is inside no other is. -/
theorem Kept.others (h : Kept s last top no served) (hin : (s.pc t).inside = true) :
    ∀ u, u ≠ t → ∀ b, sections s u ≠ .inside b :=
  fun _ hne _ hu => hne (h.alone (GuardPc.inside_of_section hu) hin)

/-- **Every access keeps this, and one call runs at a time.** -/
theorem Kept.exec (h : Kept s last top no served) {c : Choice}
    {I : Instr (fun _ : Loc => Word) W (GuardPc W C R × Option R)} {r : GuardPc W C R × Option R}
    (hcode : code body (s.pc t) = some I) (hexec : I.exec c t s.mem (s.view t) = some (m', v', r))
    (hturn : (s.next t m' v' r.1).Unturned) :
    (∃ last top no served, Kept (s.next t m' v' r.1) last top no served) ∧
      Critical body s.mem.plain (sections s) (s.visible (.step t c)) m'.plain
        (sections (s.next t m' v' r.1)) := by
  have hle := Instr.le_exec hexec
  cases hpc : s.pc t with
  | idle =>
    rw [hpc] at hcode
    cases hcode
  | fetchAdd d =>
    rw [hpc] at hcode
    cases hcode
    obtain ⟨msg, hw, hval, -, -, rfl⟩ := h.latest.rmw (h.front_le t) h.gapless hexec
    have hplain : m'.plain = s.mem.plain := by
      rw [hw.memory]
      rfl
    refine ⟨⟨_, _, _, _, h.take hw hval (by rw [hpc]; rfl) rfl rfl⟩, ?_⟩
    rw [visible, hpc, hplain]
    exact critical_still (by rw [hpc]; rfl)
  | load d ticket =>
    rw [hpc] at hcode
    cases hcode
    obtain ⟨τ, msg, hr, rfl, rfl⟩ := h.latest.load (h.front_le t) hexec
    rw [visible, hpc]
    by_cases hfound : ticket - msg.value = 0
    · simp only [if_pos hfound]
      have hlt := h.lt_of_unturned hturn
      obtain ⟨-, -, -, hnobody⟩ := h.found hlt hr hpc hfound
      refine ⟨⟨_, _, _, _, h.enter hlt hr hpc hfound⟩, ?_⟩
      rw [sections_next]
      refine .enter (t := t) (c := d) (by rw [sections, hpc]; rfl) fun u b hu => ?_
      exact absurd ((hnobody u).symm.trans (GuardPc.inside_of_section hu)) (by decide)
    · simp only [if_neg hfound]
      exact ⟨⟨_, _, _, _, h.look hr.front_le (by rw [hpc]; rfl) (by rw [hpc]; rfl) rfl⟩,
        critical_still (by rw [hpc]; rfl)⟩
  | pause d ticket position =>
    rw [hpc] at hcode
    cases hcode
    cases hexec
    rw [visible, hpc]
    dsimp only
    split
    · exact ⟨⟨_, _, _, _, h.look (h.front_le t) (by rw [hpc]; rfl) (by rw [hpc]; rfl) rfl⟩,
        critical_still (by rw [hpc]; rfl)⟩
    · exact ⟨⟨_, _, _, _, h.look (h.front_le t) (by rw [hpc]; rfl) (by rw [hpc]; rfl) rfl⟩,
        critical_still (by rw [hpc]; rfl)⟩
  | locked ticket b =>
    rw [hpc] at hcode
    have hin : (s.pc t).inside = true := by
      rw [hpc]
      rfl
    have hsection : sections s t = .inside b := by
      rw [sections, hpc]
      rfl
    cases b with
    | ret r =>
      cases hcode
      obtain ⟨τ, msg, hw, hval, rfl⟩ := h.latest.store (h.front_le t) (h.owns t hin).2.1 hexec
      have hplain : m'.plain = s.mem.plain := by
        rw [hw.memory]
        rfl
      refine ⟨⟨_, _, _, _, h.leave hw hle hpc hval⟩, ?_⟩
      rw [visible, hpc, hplain, sections_next]
      exact .leave hsection (h.others hin)
    | access n writes f k =>
      cases hcode
      obtain ⟨rfl, rfl, rfl⟩ := Instr.exec_plain hexec
      refine ⟨⟨_, _, _, _, h.access hpc⟩, ?_⟩
      rw [visible, hpc, sections_next]
      exact .access hsection (h.others hin)

/-- **Every step keeps the lock, and is one of a critical section.** -/
theorem Kept.step (h : Kept s last top no served) {a : Act ι C}
    (hs : (guardedMachine plain body ι).step s a = some s') (hturn : s'.Unturned) :
    (∃ last top no served, Kept s' last top no served) ∧
      Critical body s.mem.plain (sections s) (s.visible a) s'.mem.plain (sections s') := by
  cases a with
  | call t d =>
    change Guarded.step body s (.call t d) = some s' at hs
    cases hpc : s.pc t <;> simp only [Guarded.step, hpc] at hs <;> cases hs
    refine ⟨⟨_, _, _, _, h.look (h.front_le t) (by rw [hpc]; rfl) (by rw [hpc]; rfl) rfl⟩, ?_⟩
    rw [sections_next]
    exact .call (by rw [sections, hpc]; rfl)
  | work t =>
    change Guarded.step body s (.work t) = some s' at hs
    cases hpc : s.pc t <;> simp only [Guarded.step, hpc] at hs <;> cases hs
    exact ⟨⟨_, _, _, _, h.look (h.front_le t) (by rw [hpc]) (by rw [hpc]; rfl) rfl⟩,
      critical_still (by rw [hpc])⟩
  | step t c =>
    obtain ⟨I, hcode, hrest⟩ := Option.bind_eq_some_iff.mp hs
    obtain ⟨⟨m', v', r⟩, hexec, rfl⟩ := Option.map_eq_some_iff.mp hrest
    exact h.exec hcode hexec hturn

/-! ## What the lock is for -/

/-- It is kept in every state reached. -/
theorem kept_of_run (hr : (guardedMachine plain body ι).Run (fun _ _ s' => s'.Unturned) s) :
    ∃ last top no served, Kept s last top no served := by
  refine hr.invariant (I := fun s => ∃ last top no served, Kept s last top no served)
    ⟨_, _, _, _, kept_init⟩ ?_
  rintro s a s' - ⟨last, top, no, served, h⟩ hs hturn
  exact (h.step hs hturn).1

/-- **One thread at a time** is in the scope of its guard, -/
theorem alone_of_run (hr : (guardedMachine plain body ι).Run (fun _ _ s' => s'.Unturned) s)
    {ticket ticket' : Word} {b b' : Body W R} (ht : s.pc t = .locked ticket b)
    (hu : s.pc u = .locked ticket' b') : t = u := by
  obtain ⟨last, top, no, served, hk⟩ := kept_of_run hr
  exact hk.alone (GuardPc.inside_iff.mpr ⟨_, _, ht⟩) (GuardPc.inside_iff.mpr ⟨_, _, hu⟩)

/-- **and it has seen all accesses to what the lock guards**, so that none
races. -/
theorem not_races_of_run (hr : (guardedMachine plain body ι).Run (fun _ _ s' => s'.Unturned) s)
    {ticket : Word} {b : Body W R} (ht : s.pc t = .locked ticket b) (n : N) (writes : Bool) :
    ¬ s.mem.Races (s.view t) n writes := by
  obtain ⟨last, top, no, served, hk⟩ := kept_of_run hr
  exact ((hk.owns t (GuardPc.inside_iff.mpr ⟨_, _, ht⟩)).2.2 n).not_races

/-- The calls take effect one after the other. -/
theorem linearizable {es : List (Visible ι C R)}
    (h : (guardedMachine plain body ι).Seen (fun _ _ s' => s'.Unturned) visible es s) :
    Linearizable (Object.ofBody plain body) es := by
  refine linearizable_of_critical (fun s => s.mem.plain) sections (fun _ => rfl)
    (fun s a s' hr hs hturn => ?_) h
  obtain ⟨last, top, no, served, hk⟩ := kept_of_run hr
  exact (hk.step hs hturn).2

/-- **`TicketSpinlock` makes what runs under it atomic**, though a ticket is
taken by a relaxed access and the loads of `next_` may be out of date: in
every run with fewer calls than there are tickets the calls take effect one
after the other, one thread at a time is in the scope of its guard, and no
access to what the lock guards races. -/
theorem atomic_of_guarded {es : List (Visible ι C R)}
    (h : (guardedMachine plain body ι).Seen (fun _ _ s' => s'.Unturned) visible es s) :
    Linearizable (Object.ofBody plain body) es ∧
      (∀ t u ticket ticket' b b',
        s.pc t = .locked ticket b → s.pc u = .locked ticket' b' → t = u) ∧
      ∀ t ticket b, s.pc t = .locked ticket b →
        ∀ n writes, ¬ s.mem.Races (s.view t) n writes :=
  ⟨linearizable h, fun _ _ _ _ _ _ => alone_of_run h.run, fun _ _ _ => not_races_of_run h.run⟩

/-- Thread `1` takes the second ticket, loads `next_` before and after
thread `0` has moved it on, the second time by a value out of date, and
counts after it. -/
theorem atomic_of_guarded_run :
    Linearizable (ι := Fin 2) (Object.ofBody (fun _ : Unit => (0 : ℕ))
        fun _ : Unit => .access () false id fun n => .access () true (· + 1) fun _ => .ret n)
      [.call 0 (), .call 1 (), .reply 0 0, .reply 1 1] := by
  obtain ⟨w, hw⟩ := (guardedMachine (fun _ : Unit => (0 : ℕ))
      (fun _ : Unit => .access () false id fun n => .access () true (· + 1) fun _ => .ret n)
      (Fin 2)).exists_seen_of_watch
    (fun _ _ s' => s'.Unturned) visible
    ([.call 0 ()] ++ [(0, 0)].map (Act.access 0) ++ [.call 1 ()] ++
      [(1, 0), (0, 0)].map (Act.access 1) ++
      [(0, 0), (0, 0), (0, 0), (0, 3)].map (Act.access 0) ++
      [(0, 0), (0, 0), (0, 0), (3, 0), (0, 0), (0, 0), (0, 5)].map (Act.access 1))
    [.call 0 (), .call 1 (), .reply 0 0, .reply 1 1] (by decide)
  exact (atomic_of_guarded hw).1

end Guarded

end TicketSpinlock

end AtomicQueue
