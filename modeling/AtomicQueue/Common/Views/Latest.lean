import AtomicQueue.Common.Views.Basic
/-!
# The latest messages

The last message of each location, and what an access does to it. A thread
may read older messages. But a read-modify-write has to read the last one if
the place after every other is taken (`Gapless`), and so has a load that a
thread acts upon if no older message it may read has such a value
(`Current`). Where all accesses but loads read the last messages, the last
messages are a memory that all threads see.
-/

namespace Views

variable {ι L N : Type} {V : L → Type} {W : N → Type} {R : Type}
variable {m m' : Memory ι V W} {v v' : View ι L} {last : L → ℕ}
variable {top : ∀ ℓ, Message ι L (V ℓ)} {ℓ ℓ' : L} {τ : ℕ}
variable {msg : Message ι L (V ℓ)} {P : V ℓ → Prop}

/-- **The latest messages**: `top ℓ` is at place `last ℓ`, nothing comes
after it, and no message sends along anything later. -/
structure Latest (m : Memory ι V W) (last : L → ℕ) (top : ∀ ℓ, Message ι L (V ℓ)) : Prop where
  msg : ∀ ℓ, m.msgs ℓ (last ℓ) = some (top ℓ)
  free : ∀ ℓ τ, last ℓ < τ → m.msgs ℓ τ = none
  front_le : ∀ ℓ τ msg, m.msgs ℓ τ = some msg → msg.view.1 ≤ last

/-- What the latest messages and the plain locations hold. -/
def Memory.latest (m : Memory ι V W) (top : ∀ ℓ, Message ι L (V ℓ)) : Store V W where
  value ℓ := (top ℓ).value
  plain := m.plain

/-- A place with a message is not after the last one. -/
theorem Latest.le_last (h : Latest m last top) (hmsg : m.msgs ℓ τ = some msg) : τ ≤ last ℓ := by
  by_contra hlt
  rw [h.free ℓ τ (by omega)] at hmsg
  cases hmsg

/-- At its place the last message is the one known. -/
theorem Latest.eq_top (h : Latest m last top) (hmsg : m.msgs ℓ (last ℓ) = some msg) :
    msg = top ℓ :=
  Option.some.inj (hmsg.symm.trans (h.msg ℓ))

/-- An access to a plain location leaves the messages. -/
theorem Latest.access [DecidableEq N] {n : N} {a : Access ι} {y : W n} (h : Latest m last top) :
    Latest (m.access n a y) last top :=
  ⟨h.msg, h.free, h.front_le⟩

/-! ## Stale messages -/

/-- After every message but the latest, if its value is one of `P`, the next
place is taken. -/
def Gapless (m : Memory ι V W) (last : L → ℕ) (ℓ : L) (P : V ℓ → Prop) : Prop :=
  ∀ τ msg, τ < last ℓ → m.msgs ℓ τ = some msg → P msg.value → m.msgs ℓ (τ + 1) ≠ none

/-- Of the messages that a thread may read, none but the latest has a value
of `P`. -/
def Current (m : Memory ι V W) (last : L → ℕ) (v : View ι L) (ℓ : L) (P : V ℓ → Prop) : Prop :=
  ∀ τ msg, v.1 ℓ ≤ τ → τ < last ℓ → m.msgs ℓ τ = some msg → ¬ P msg.value

/-- A read-modify-write that finds the next place free has read the last
message, -/
theorem Gapless.eq_last (h : Gapless m last ℓ P) (hL : Latest m last top)
    (hmsg : m.msgs ℓ τ = some msg) (hP : P msg.value) (hfree : m.msgs ℓ (τ + 1) = none) :
    τ = last ℓ ∧ msg = top ℓ := by
  have hτ : τ = last ℓ := by
    refine le_antisymm (hL.le_last hmsg) ?_
    by_contra hlt
    exact h τ msg (by omega) hmsg hP hfree
  subst hτ
  exact ⟨rfl, hL.eq_top hmsg⟩

/-- and so has whoever reads a value for which it is current. -/
theorem Current.eq_last (h : Current m last v ℓ P) (hL : Latest m last top) (hle : v.1 ℓ ≤ τ)
    (hmsg : m.msgs ℓ τ = some msg) (hP : P msg.value) : τ = last ℓ ∧ msg = top ℓ := by
  have hτ : τ = last ℓ := by
    refine le_antisymm (hL.le_last hmsg) ?_
    by_contra hlt
    exact h τ msg hle (by omega) hmsg hP
  subst hτ
  exact ⟨rfl, hL.eq_top hmsg⟩

theorem Gapless.mono {Q : V ℓ → Prop} (h : Gapless m last ℓ P) (hsub : ∀ x, Q x → P x) :
    Gapless m last ℓ Q :=
  fun τ msg hlt hmsg hQ => h τ msg hlt hmsg (hsub _ hQ)

/-- Who has seen the last message is current, -/
theorem Current.of_front_eq (h : v.1 ℓ = last ℓ) : Current m last v ℓ P :=
  fun τ _ hle hlt => absurd hlt (by omega)

/-- and stays so with more seen. -/
theorem Current.mono (h : Current m last v ℓ P) (hle : v ≤ v') : Current m last v' ℓ P :=
  fun τ msg hτ => h τ msg ((hle.1 ℓ).trans hτ)

/-! ## One message more -/

section

variable [DecidableEq L]

/-- A message is added at its place, -/
theorem Memory.add_msgs_self : (m.add ℓ τ msg).msgs ℓ = Function.update (m.msgs ℓ) τ (some msg) :=
  Function.update_self ..

/-- and no other location has it. -/
theorem Memory.add_msgs_of_ne (h : ℓ' ≠ ℓ) : (m.add ℓ τ msg).msgs ℓ' = m.msgs ℓ' :=
  Function.update_of_ne h ..

theorem le_update_last (h : last ℓ ≤ τ) : last ≤ Function.update last ℓ τ := fun ℓ' => by
  rcases eq_or_ne ℓ' ℓ with rfl | hne
  · rw [Function.update_self]
    exact h
  · rw [Function.update_of_ne hne]

/-- **A message after the last one** is the last one. -/
theorem Latest.add (h : Latest m last top) (hτ : last ℓ < τ)
    (hfront : msg.view.1 ≤ Function.update last ℓ τ) :
    Latest (m.add ℓ τ msg) (Function.update last ℓ τ) (Function.update top ℓ msg) where
  msg ℓ' := by
    rcases eq_or_ne ℓ' ℓ with rfl | hne
    · rw [Memory.add_msgs_self, Function.update_self, Function.update_self, Function.update_self]
    · rw [Memory.add_msgs_of_ne hne, Function.update_of_ne hne, Function.update_of_ne hne]
      exact h.msg ℓ'
  free ℓ' τ' hlt := by
    rcases eq_or_ne ℓ' ℓ with rfl | hne
    · rw [Function.update_self] at hlt
      rw [Memory.add_msgs_self, Function.update_of_ne hlt.ne']
      exact h.free _ τ' (hτ.trans hlt)
    · rw [Function.update_of_ne hne] at hlt
      rw [Memory.add_msgs_of_ne hne]
      exact h.free ℓ' τ' hlt
  front_le ℓ' τ' msg' hmsg := by
    have hold : ∀ {msg'}, m.msgs ℓ' τ' = some msg' → msg'.view.1 ≤ Function.update last ℓ τ :=
      fun hmsg => (h.front_le ℓ' τ' _ hmsg).trans (le_update_last hτ.le)
    rcases eq_or_ne ℓ' ℓ with rfl | hne
    · rw [Memory.add_msgs_self] at hmsg
      rcases eq_or_ne τ' τ with rfl | hne
      · rw [Function.update_self] at hmsg
        cases hmsg
        exact hfront
      · rw [Function.update_of_ne hne] at hmsg
        exact hold hmsg
    · rw [Memory.add_msgs_of_ne hne] at hmsg
      exact hold hmsg

/-- What a store adds at another location changes no chain here, -/
theorem Gapless.add_of_ne (h : Gapless m last ℓ P) (hne : ℓ ≠ ℓ')
    {msg' : Message ι L (V ℓ')} :
    Gapless (m.add ℓ' τ msg') (Function.update last ℓ' τ) ℓ P := by
  intro τ' msg hlt hmsg
  rw [Function.update_of_ne hne] at hlt
  rw [Memory.add_msgs_of_ne hne] at hmsg ⊢
  exact h τ' msg hlt hmsg

/-- and nobody is less current here for it. -/
theorem Current.add_of_ne (h : Current m last v ℓ P) (hne : ℓ ≠ ℓ')
    {msg' : Message ι L (V ℓ')} :
    Current (m.add ℓ' τ msg') (Function.update last ℓ' τ) v ℓ P := by
  intro τ' msg hle hlt hmsg
  rw [Function.update_of_ne hne] at hlt
  rw [Memory.add_msgs_of_ne hne] at hmsg
  exact h τ' msg hle hlt hmsg

/-- The places up to the latest message stay taken, and the one after it is
if the new message is there, as that of a read-modify-write is. -/
theorem Gapless.add (h : Gapless m last ℓ P) (hL : Latest m last top) (hτ : last ℓ < τ)
    (hnext : P (top ℓ).value → τ = last ℓ + 1) :
    Gapless (m.add ℓ τ msg) (Function.update last ℓ τ) ℓ P := by
  intro τ' msg' hlt hmsg hP
  rw [Function.update_self] at hlt
  rw [Memory.add_msgs_self, Function.update_of_ne hlt.ne] at hmsg
  rw [Memory.add_msgs_self]
  rcases eq_or_ne (τ' + 1) τ with rfl | hne
  · rw [Function.update_self]
    simp
  · rw [Function.update_of_ne hne]
    rcases (hL.le_last hmsg).lt_or_eq with hold | rfl
    · exact h τ' msg' hold hmsg hP
    · rw [hL.eq_top hmsg] at hP
      exact absurd (hnext hP).symm hne

/-- A message after one with a value not of `P` leaves none of them stale. -/
theorem Current.add (h : Current m last v ℓ P) (hL : Latest m last top)
    (hP : ¬ P (top ℓ).value) : Current (m.add ℓ τ msg) (Function.update last ℓ τ) v ℓ P := by
  intro τ' msg' hle hlt hmsg
  rw [Function.update_self] at hlt
  rw [Memory.add_msgs_self, Function.update_of_ne hlt.ne] at hmsg
  rcases (hL.le_last hmsg).lt_or_eq with hold | rfl
  · exact h τ' msg' hle hold hmsg
  · rw [hL.eq_top hmsg]
    exact hP

end

/-! ## What an access does to the latest messages -/

variable {t : ι} {c : Choice} {o success failure : Order} {x expected desired : V ℓ} {r r' : R}
variable {k : V ℓ → R}

/-- **A load of the message at place `τ`.** -/
structure Reads (m : Memory ι V W) (last : L → ℕ) (v : View ι L) (ℓ : L) (o : Order) (τ : ℕ)
    (msg : Message ι L (V ℓ)) (v' : View ι L) : Prop where
  found : m.msgs ℓ τ = some msg
  le : v.1 ℓ ≤ τ
  le_front : τ ≤ v'.1 ℓ
  front_le : v'.1 ≤ last
  received : o.acquires = true → msg.view ≤ v'

/-- **A store of a message at place `τ`**, after all others. -/
structure Writes [DecidableEq L] (m : Memory ι V W) (last : L → ℕ) (top : ∀ ℓ, Message ι L (V ℓ)) 
    (ℓ : L) (o : Order) (τ : ℕ) (msg : Message ι L (V ℓ)) (m' : Memory ι V W) (v' : View ι L) :
    Prop where
  memory : m' = m.add ℓ τ msg
  after : last ℓ < τ
  latest : Latest m' (Function.update last ℓ τ) (Function.update top ℓ msg)
  front_le : v'.1 ≤ Function.update last ℓ τ
  front : v'.1 ℓ = τ
  released : o.releases = true → v' ≤ msg.view

/-- All threads have seen no more than the latest messages after one of them
has moved. -/
theorem front_le_update [DecidableEq ι] {view : ι → View ι L} (h : ∀ u, (view u).1 ≤ last)
    (hv' : v'.1 ≤ last) (u : ι) : (Function.update view t v' u).1 ≤ last := by
  rcases eq_or_ne u t with rfl | hne
  · rwa [Function.update_self]
  · rw [Function.update_of_ne hne]
    exact h u

section

variable [DecidableEq L]

/-- What a store of a message after the last one leaves. -/
theorem Latest.writes (h : Latest m last top) (hτ : last ℓ < τ)
    (hv : v'.1 ≤ Function.update last ℓ τ ∧ v'.1 ℓ = τ)
    (hmsg : msg.view.1 ≤ Function.update last ℓ τ) (hsend : o.send v' ≤ msg.view) :
    Writes m last top ℓ o τ msg (m.add ℓ τ msg) v' where
  memory := rfl
  after := hτ
  latest := h.add hτ hmsg
  front_le := hv.1
  front := hv.2
  released ho := by
    rwa [send_of_releases ho] at hsend

/-- **Read-modify-writes leave no gaps**, nor does a store after a message
that nobody reads so. -/
theorem Gapless.writes {P : ∀ ℓ, V ℓ → Prop} (h : ∀ ℓ, Gapless m last ℓ (P ℓ))
    (hL : Latest m last top) (hw : Writes m last top ℓ o τ msg m' v')
    (hnext : P ℓ (top ℓ).value → τ = last ℓ + 1) (ℓ' : L) :
    Gapless m' (Function.update last ℓ τ) ℓ' (P ℓ') := by
  rw [hw.memory]
  rcases eq_or_ne ℓ' ℓ with rfl | hne
  · exact (h ℓ').add hL hw.after hnext
  · exact (h ℓ').add_of_ne hne

variable [DecidableEq ι]

theorem le_see_sup {w : View ι L} : τ ≤ (see v t ℓ τ ⊔ w).1 ℓ := by
  have hle : see v t ℓ τ ≤ see v t ℓ τ ⊔ w := le_sup_left
  exact see_front_self.ge.trans (hle.1 ℓ)

/-- A message not older than what its thread has seen, read. -/
theorem Latest.reads (h : Latest m last top) (hv : v.1 ≤ last) (hmsg : m.msgs ℓ τ = some msg)
    (hle : v.1 ℓ ≤ τ) : Reads m last v ℓ o τ msg (see v t ℓ τ ⊔ o.receive msg.view) where
  found := hmsg
  le := hle
  le_front := le_see_sup
  front_le := sup_le (see_front_le hv (h.le_last hmsg))
    (receive_le.1.trans (h.front_le ℓ τ msg hmsg))
  received ho := by
    rw [receive_of_acquires ho]
    exact le_sup_right

/-- A thread that stores at a place sees no later one. -/
theorem Latest.front_eq {w : View ι L} (hτ : last ℓ < τ) (hv : v.1 ≤ last) (hw : w.1 ≤ last) :
    (see v t ℓ τ ⊔ w).1 ≤ Function.update last ℓ τ ∧ (see v t ℓ τ ⊔ w).1 ℓ = τ := by
  have hle : last ≤ Function.update last ℓ τ := le_update_last hτ.le
  have hfront : (see v t ℓ τ ⊔ w).1 ≤ Function.update last ℓ τ :=
    sup_le (see_front_le (hv.trans hle) (by rw [Function.update_self])) (hw.trans hle)
  exact ⟨hfront, le_antisymm ((hfront ℓ).trans (Function.update_self ..).le) le_see_sup⟩

/-- What a read-modify-write of the latest message does, apart from the
result. -/
theorem Latest.exchange (hL : Latest m last top) (hv : v.1 ≤ last) {y : V ℓ}
    (hv' : v' = see v t ℓ (last ℓ + 1) ⊔ o.receive (top ℓ).view)
    (hm' : m' = m.add ℓ (last ℓ + 1) ⟨y, (top ℓ).view ⊔ o.send v'⟩) :
    ∃ msg, Writes m last top ℓ o (last ℓ + 1) msg m' v' ∧ msg.value = y ∧
      (top ℓ).view ≤ msg.view ∧ (o.acquires = true → (top ℓ).view ≤ v') := by
  have htop : (top ℓ).view.1 ≤ last := hL.front_le ℓ _ _ (hL.msg ℓ)
  have hfront := Latest.front_eq (w := o.receive (top ℓ).view) (t := t)
    (Nat.lt_succ_self (last ℓ)) hv (receive_le.1.trans htop)
  rw [← hv'] at hfront
  subst hm'
  refine ⟨_, hL.writes (Nat.lt_succ_self _) hfront ?_ le_sup_right, rfl, le_sup_left, fun ho => ?_⟩
  · exact sup_le (htop.trans (le_update_last (Nat.le_succ _)))
      (send_le.1.trans hfront.1)
  · rw [hv', receive_of_acquires ho]
    exact le_sup_right

variable [DecidableEq N] [∀ ℓ, DecidableEq (V ℓ)]

/-- **A load reads a message**, and changes nothing. -/
theorem Latest.load (hL : Latest m last top) (hv : v.1 ≤ last)
    (h : (Instr.load (W := W) ℓ o k).exec c t m v = some (m', v', r)) :
    ∃ τ msg, Reads m last v ℓ o τ msg v' ∧ m' = m ∧ r = k msg.value := by
  obtain ⟨msg, hmsg, hle, rfl, rfl, rfl⟩ := Instr.exec_load h
  exact ⟨c.read, msg, hL.reads hv hmsg hle, rfl, rfl⟩

/-- **A store by a thread that has seen the latest message** comes after it. -/
theorem Latest.store (hL : Latest m last top) (hv : v.1 ≤ last) (hcur : v.1 ℓ = last ℓ)
    (h : (Instr.store (W := W) ℓ x o r').exec c t m v = some (m', v', r)) :
    ∃ τ msg, Writes m last top ℓ o τ msg m' v' ∧ msg.value = x ∧ r = r' := by
  obtain ⟨hlt, hfree, rfl, rfl, rfl⟩ := Instr.exec_store h
  rw [hcur] at hlt
  have hfront := Latest.front_eq (w := ⊥) (t := t) hlt hv (bot_le (a := last))
  rw [sup_bot_eq] at hfront
  exact ⟨c.write, ⟨x, o.send (see v t ℓ c.write)⟩,
    hL.writes hlt hfront (send_le.1.trans hfront.1) le_rfl, rfl, rfl⟩

/-- **A read-modify-write reads the latest message**, if the place after
every other is taken. -/
theorem Latest.rmw (hL : Latest m last top) (hv : v.1 ≤ last) {f : V ℓ → V ℓ}
    (hgap : Gapless m last ℓ fun _ => True)
    (h : (Instr.rmw (W := W) ℓ o f k).exec c t m v = some (m', v', r)) :
    ∃ msg, Writes m last top ℓ o (last ℓ + 1) msg m' v' ∧ msg.value = f (top ℓ).value ∧
      (top ℓ).view ≤ msg.view ∧ (o.acquires = true → (top ℓ).view ≤ v') ∧
      r = k (top ℓ).value := by
  obtain ⟨msg, hmsg, hle, hfree, hv', hm', rfl⟩ := Instr.exec_rmw h
  obtain ⟨hτ, rfl⟩ := hgap.eq_last hL hmsg trivial hfree
  rw [hτ] at hv' hm'
  obtain ⟨msg', hw, hval, hge, hrec⟩ := hL.exchange hv hv' hm'
  exact ⟨msg', hw, hval, hge, hrec, rfl⟩

/-- **A compare-exchange that succeeds reads the latest message**, if the
place after every other with the value expected is taken. -/
theorem Latest.cas (hL : Latest m last top) (hv : v.1 ≤ last)
    (hgap : Gapless m last ℓ fun x => x = expected)
    (h : (Instr.cas (W := W) ℓ expected desired success failure r' k).exec c t m v =
      some (m', v', r)) :
    (∃ msg, Writes m last top ℓ success (last ℓ + 1) msg m' v' ∧ msg.value = desired ∧
        (top ℓ).value = expected ∧ (top ℓ).view ≤ msg.view ∧
        (success.acquires = true → (top ℓ).view ≤ v') ∧ c.fails = false ∧ r = r') ∨
      ∃ τ msg, Reads m last v ℓ failure τ msg v' ∧ m' = m ∧ r = k msg.value := by
  obtain ⟨msg, hmsg, hle, ⟨hval, hfails, hfree, hv', hm', rfl⟩ | ⟨rfl, rfl, rfl⟩⟩ :=
    Instr.exec_cas h
  · obtain ⟨hτ, rfl⟩ := hgap.eq_last hL hmsg hval hfree
    rw [hτ] at hv' hm'
    obtain ⟨msg', hw, hdes, hge, hrec⟩ := hL.exchange hv hv' hm'
    exact Or.inl ⟨msg', hw, hdes, hval, hge, hrec, hfails, rfl⟩
  · exact Or.inr ⟨c.read, msg, hL.reads hv hmsg hle, rfl, rfl⟩

end

/-! ## No access need be out of date -/

section

variable [DecidableEq L]

/-- The latest messages after one more. -/
theorem Memory.add_latest :
    (m.add ℓ τ msg).latest (Function.update top ℓ msg) = (m.latest top).set ℓ msg.value := by
  rw [latest, Store.set, Store.mk.injEq]
  refine ⟨funext fun ℓ' => ?_, rfl⟩
  rcases eq_or_ne ℓ' ℓ with rfl | hne
  · rw [Function.update_self, Function.update_self]
  · rw [Function.update_of_ne hne, Function.update_of_ne hne]
    rfl

variable [DecidableEq ι] [DecidableEq N] [∀ ℓ, DecidableEq (V ℓ)]

/-- What one step on the latest messages leads to. -/
def Memory.Follows (m : Memory ι V W) (v : View ι L) (t : ι) (i : Instr V W R) (last : L → ℕ)
    (q : Store V W × R) : Prop :=
  ∃ c m' v' last' top', i.exec c t m v = some (m', v', q.2) ∧ Latest m' last' top' ∧
    m'.latest top' = q.1 ∧ v'.1 ≤ last' ∧ last ≤ last'

/-- A store after the latest message. -/
theorem Latest.follows_store (h : Latest m last top) (hv : v.1 ≤ last) {i : Instr V W R}
    (c : Choice) (ℓ : L) (msg : Message ι L (V ℓ)) {w : View ι L} (hw : w.1 ≤ last)
    (hview : msg.view.1 ≤ last ⊔ (see v t ℓ (last ℓ + 1) ⊔ w).1)
    (hexec : i.exec c t m v =
      some (m.add ℓ (last ℓ + 1) msg, see v t ℓ (last ℓ + 1) ⊔ w, r)) :
    m.Follows v t i last ((m.latest top).set ℓ msg.value, r) := by
  have hle : last ≤ Function.update last ℓ (last ℓ + 1) := le_update_last (Nat.le_succ _)
  have hfront := (Latest.front_eq (t := t) (Nat.lt_succ_self (last ℓ)) hv hw).1
  exact ⟨c, _, _, _, _, hexec, h.add (Nat.lt_succ_self _) (hview.trans (sup_le hle hfront)),
    Memory.add_latest, hfront, hle⟩

/-- A load of the latest message. -/
theorem Latest.follows_load (h : Latest m last top) (hv : v.1 ≤ last) {i : Instr V W R}
    (c : Choice) (ℓ : L) {w : View ι L} (hw : w.1 ≤ last)
    (hexec : i.exec c t m v = some (m, see v t ℓ (last ℓ) ⊔ w, r)) :
    m.Follows v t i last (m.latest top, r) :=
  ⟨c, m, _, last, top, hexec, h, rfl, sup_le (see_front_le hv le_rfl) hw, le_rfl⟩

omit [DecidableEq N] [∀ ℓ, DecidableEq (V ℓ)] in
/-- Where the next place is free a read-modify-write succeeds. -/
theorem exchange_free {y : V ℓ} (h : m.msgs ℓ (τ + 1) = none) :
    Views.exchange m v t ℓ τ o msg y =
      some (m.add ℓ (τ + 1) ⟨y, msg.view ⊔ o.send (see v t ℓ (τ + 1) ⊔ o.receive msg.view)⟩,
        see v t ℓ (τ + 1) ⊔ o.receive msg.view) :=
  if_pos (by rw [h]; rfl)

/-- **Whatever one memory that all threads see allows, this one does**, by
accesses to the latest messages. -/
theorem Latest.follows_run (h : Latest m last top) (hv : v.1 ≤ last) (t : ι) (fails : Bool)
    (i : Instr V W R) : m.Follows v t i last (i.run fails (m.latest top)) := by
  have hread : ∀ ℓ, m.read v ℓ (last ℓ) = some (top ℓ) := fun ℓ =>
    Memory.read_eq_some.mpr ⟨hv ℓ, h.msg ℓ⟩
  have hfree : ∀ ℓ, m.msgs ℓ (last ℓ + 1) = none := fun ℓ => h.free ℓ _ (Nat.lt_succ_self _)
  have htop : ∀ ℓ (o : Order), (o.receive (top ℓ).view).1 ≤ last := fun ℓ o =>
    receive_le.1.trans (h.front_le ℓ _ _ (h.msg ℓ))
  have hsend : ∀ ℓ (o : Order) (v' : View ι L), ((top ℓ).view ⊔ o.send v').1 ≤ last ⊔ v'.1 :=
    fun ℓ o v' => sup_le_sup (h.front_le ℓ _ _ (h.msg ℓ)) send_le.1
  cases i with
  | load ℓ o k =>
    refine h.follows_load hv ⟨last ℓ, 0, false⟩ ℓ (htop ℓ o) ?_
    rw [Instr.exec, hread]
    rfl
  | store ℓ x o r =>
    refine h.follows_store hv ⟨0, last ℓ + 1, false⟩ ℓ
      ⟨x, o.send (see v t ℓ (last ℓ + 1) ⊔ ⊥)⟩ bot_le (send_le.1.trans le_sup_right) ?_
    rw [Instr.exec, if_pos ⟨Nat.lt_succ_of_le (hv ℓ), by rw [hfree]; rfl⟩, sup_bot_eq]
  | rmw ℓ o f k =>
    refine h.follows_store hv ⟨last ℓ, 0, false⟩ ℓ ⟨f (top ℓ).value, _⟩ (htop ℓ o)
      (hsend ℓ o _) ?_
    rw [Instr.exec, hread, Option.bind_some, exchange_free (hfree ℓ)]
    rfl
  | cas ℓ expected desired success failure r k =>
    rw [Instr.run]
    split
    · refine h.follows_store hv ⟨last ℓ, 0, fails⟩ ℓ ⟨desired, _⟩ (htop ℓ success)
        (hsend ℓ success _) ?_
      rw [Instr.exec, hread, Option.bind_some, if_pos ‹_›, exchange_free (hfree ℓ)]
      rfl
    · refine h.follows_load hv ⟨last ℓ, 0, fails⟩ ℓ (htop ℓ failure) ?_
      rw [Instr.exec, hread, Option.bind_some, if_neg ‹_›]
      rfl
  | plain n writes f k =>
    exact ⟨⟨0, 0, false⟩, _, _, last, top, rfl, h.access, rfl, hv, le_rfl⟩
  | pause r => exact ⟨⟨0, 0, false⟩, m, _, last, top, rfl, h, rfl, hv, le_rfl⟩

end

/-! ## Plain accesses -/

/-- All accesses made to a plain location happened before. -/
def Memory.Settled (m : Memory ι V W) (n : N) (v : View ι L) : Prop :=
  ∀ a ∈ m.log n, a.step ≤ v.2 a.thread

variable {n : N} {writes : Bool}

/-- What a thread knows of the accesses it knows ever after. -/
theorem Memory.Settled.mono (h : m.Settled n v) (hle : v ≤ v') : m.Settled n v' :=
  fun a ha => (h a ha).trans (hle.2 a.thread)

/-- **No race with accesses that all happened before.** -/
theorem Memory.Settled.not_races (h : m.Settled n v) : ¬ m.Races v n writes := by
  rintro ⟨a, ha, -, hlt⟩
  exact absurd (h a ha) (by omega)

/-- Its own access it knows too, -/
theorem Memory.Settled.access [DecidableEq ι] [DecidableEq N] {y : W n}
    (h : m.Settled n (tick v t)) :
    (m.access n ⟨t, v.2 t + 1, writes⟩ y).Settled n (tick v t) := by
  intro a ha
  rw [Memory.access] at ha
  simp only [Function.update_self] at ha
  rcases List.mem_append.mp ha with ha | ha
  · exact h a ha
  · rw [List.mem_singleton.mp ha]
    exact tick_step.ge

/-- and the logs of other locations stay. -/
theorem Memory.access_log_of_ne [DecidableEq N] {n' : N} {a : Access ι} {y : W n} (h : n' ≠ n) :
    (m.access n a y).log n' = m.log n' := Function.update_of_ne h ..

end Views
