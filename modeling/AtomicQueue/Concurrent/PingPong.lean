import AtomicQueue.Model.PingPong
import AtomicQueue.Remap.RoundUp
/-!
# Which ping-pongs push `NIL`

The two threads hand one counter around: the sender pushes `v`, the
receiver answers `v - 1`, and the sender goes on with `v - 2` unless the
answer is at most `1`. Both threads test the answer, so they end at the
same exchange. It is the one that answers `1` if the count of messages is
even and `0`, which is `NIL`, if it is odd.
-/

namespace AtomicQueue

namespace PingPong

variable {w w' : World}

/-! ## What a step can do -/

/-- The queue after a push. -/
def Queue.pushBack (q : Queue) (n : Word) : Queue :=
  { q with elements := q.elements ++ [n], pushed := q.pushed ++ [n] }

/-- A push that succeeds appends its element, -/
theorem Queue.push_eq_some {q q' : Queue} {v : Word} (h : q.push v = some q') :
    q' = q.pushBack v := by
  rw [Queue.push, Option.ite_none_right_eq_some] at h
  exact (Option.some.inj h.2).symm

/-- and succeeds where there is room. -/
theorem Queue.push_of_room {q : Queue} {v : Word} (h : q.elements.length < q.capacity) :
    q.push v = some (q.pushBack v) :=
  if_pos h

/-- A pop that succeeds takes the first element, -/
theorem Queue.pop_eq_some {q q' : Queue} {v : Word} (h : q.pop = some (v, q')) :
    ∃ rest, q.elements = v :: rest ∧ q' = { q with elements := rest } := by
  rw [Queue.pop] at h
  split at h
  · cases h
  · next n rest hel =>
    cases h
    exact ⟨rest, hel, rfl⟩

/-- and succeeds where there is one. -/
theorem Queue.pop_of_cons {q : Queue} {v : Word} {rest : List Word} (h : q.elements = v :: rest) :
    q.pop = some (v, { q with elements := rest }) := by
  rw [Queue.pop, h]

/-- Everything a step can do. -/
inductive Change (w : World) : World → Prop
  | send {v} (hpc : w.sender = .push v) :
      Change w { w with sender := .pop, q1 := w.q1.pushBack v }
  | receive {v rest} (hpc : w.receiver = .pop) (hel : w.q1.elements = v :: rest) :
      Change w { w with receiver := .push (v - 1), q1 := { w.q1 with elements := rest } }
  | reply {u} (hpc : w.receiver = .push u) :
      Change w { w with receiver := .test u, q2 := w.q2.pushBack u }
  | take {u rest} (hpc : w.sender = .pop) (hel : w.q2.elements = u :: rest) :
      Change w { w with sender := .test u, q2 := { w.q2 with elements := rest } }
  | testSender {u} (hpc : w.sender = .test u) :
      Change w { w with sender := if u > 1 then .push (u - 1) else .done }
  | testReceiver {u} (hpc : w.receiver = .test u) :
      Change w { w with receiver := if u > 1 then .pop else .done }

/-- **Every turn of a thread is one of these.** -/
theorem change_of_step {t : Thread} (h : w.step t = some w') : Change w w' := by
  cases t with
  | sender =>
    rw [World.step, World.pingPongSender] at h
    cases hpc : w.sender with
    | push v =>
      obtain ⟨q, hq, rfl⟩ := Option.map_eq_some_iff.mp (hpc ▸ h)
      exact Queue.push_eq_some hq ▸ .send hpc
    | pop =>
      obtain ⟨⟨u, q⟩, hq, rfl⟩ := Option.map_eq_some_iff.mp (hpc ▸ h)
      obtain ⟨rest, hel, rfl⟩ := Queue.pop_eq_some hq
      exact .take hpc hel
    | test u =>
      cases hpc ▸ h
      exact .testSender hpc
    | done => cases hpc ▸ h
  | receiver =>
    rw [World.step, World.pingPongReceiver] at h
    cases hpc : w.receiver with
    | pop =>
      obtain ⟨⟨v, q⟩, hq, rfl⟩ := Option.map_eq_some_iff.mp (hpc ▸ h)
      obtain ⟨rest, hel, rfl⟩ := Queue.pop_eq_some hq
      exact .receive hpc hel
    | push u =>
      obtain ⟨q, hq, rfl⟩ := Option.map_eq_some_iff.mp (hpc ▸ h)
      exact Queue.push_eq_some hq ▸ .reply hpc
    | test u =>
      cases hpc ▸ h
      exact .testReceiver hpc
    | done => cases hpc ▸ h

/-! ## Where the counter is -/

variable {v u : Word} {r : Receiver}

/-- The receiver waits for the next message, or is about to: it has still to
test an answer above `1`. -/
def Waits (r : Receiver) : Prop := r = .pop ∨ ∃ u > 1, r = .test u

/-- The receiver has answered `u`. -/
def Answered (u : Word) (r : Receiver) : Prop :=
  r = .test u ∨ r = if u > 1 then .pop else .done

theorem Answered.waits (h : Answered u r) (hu : u > 1) : Waits r := by
  rcases h with h | h
  · exact .inr ⟨u, hu, h⟩
  · exact .inl (h.trans (if_pos hu))

/-- **One exchange**: the way of a message `v` and of its answer `v - 1`. -/
inductive Phase (v : Word) (w : World) : Prop
  | sends (hs : w.sender = .push v) (hr : Waits w.receiver) (h1 : w.q1.elements = [])
      (h2 : w.q2.elements = []) (hlen : w.q1.pushed.length = w.q2.pushed.length)
  | sent (hs : w.sender = .pop) (hr : Waits w.receiver) (h1 : w.q1.elements = [v])
      (h2 : w.q2.elements = []) (hlen : w.q1.pushed.length = w.q2.pushed.length + 1)
  | replies (hs : w.sender = .pop) (hr : w.receiver = .push (v - 1)) (h1 : w.q1.elements = [])
      (h2 : w.q2.elements = []) (hlen : w.q1.pushed.length = w.q2.pushed.length + 1)
  | replied (hs : w.sender = .pop) (hr : Answered (v - 1) w.receiver) (h1 : w.q1.elements = [])
      (h2 : w.q2.elements = [v - 1]) (hlen : w.q1.pushed.length = w.q2.pushed.length)
      (hmem : v - 1 ∈ w.q2.pushed)
  | tests (hs : w.sender = .test (v - 1)) (hr : Answered (v - 1) w.receiver)
      (h1 : w.q1.elements = []) (h2 : w.q2.elements = [])
      (hlen : w.q1.pushed.length = w.q2.pushed.length) (hmem : v - 1 ∈ w.q2.pushed)
  | ends (hs : w.sender = .done) (hlast : ¬ v - 1 > 1) (hr : Answered (v - 1) w.receiver)
      (h1 : w.q1.elements = []) (h2 : w.q2.elements = [])
      (hlen : w.q1.pushed.length = w.q2.pushed.length) (hmem : v - 1 ∈ w.q2.pushed)

/-- **The messages are the numbers down from the count of messages by
twos**, so that the last answer is `NIL` only if that is odd. -/
structure Exchange (n_msg : ℕ) (v : Word) (w : World) : Prop where
  pos : 1 ≤ v.toNat
  parity : v.toNat % 2 = n_msg % 2
  sent_ne : ∀ x ∈ w.q1.pushed, x ≠ NIL
  reply_ne : n_msg % 2 = 0 → ∀ x ∈ w.q2.pushed, x ≠ NIL
  phase : Phase v w

variable {n_msg c1 c2 : ℕ}

/-- The exchange begins with the first value, which is the count of
messages. -/
theorem exchange_init (hn : 1 ≤ n_msg) (hmax : n_msg < 2 ^ 32) :
    Exchange n_msg (nProducerMsg n_msg 1) (machine n_msg c1 c2).init := by
  have hv : (nProducerMsg n_msg 1).toNat = n_msg := by
    rw [nProducerMsg, Nat.sub_self, Nat.add_zero, Nat.div_one, BitVec.toNat_ofNat,
      Nat.mod_eq_of_lt hmax]
  exact ⟨hv.symm ▸ hn, by rw [hv], fun x hx => (List.not_mem_nil hx).elim,
    fun _ x hx => (List.not_mem_nil hx).elim, .sends rfl (.inl rfl) rfl rfl rfl⟩

/-- The receiver tests an answer. -/
theorem Phase.testReceiver (h : Phase v w) (hpc : w.receiver = .test u) :
    Phase v { w with receiver := if u > 1 then .pop else .done } := by
  have hwaits : Waits w.receiver → Waits (if u > 1 then .pop else .done) := by
    rintro (hr | ⟨u', hu', hr⟩)
    · cases hpc.symm.trans hr
    · cases hpc.symm.trans hr
      exact .inl (if_pos hu')
  have hanswered : Answered (v - 1) w.receiver →
      Answered (v - 1) (if u > 1 then .pop else .done) := by
    rintro (hr | hr)
    · cases hpc.symm.trans hr
      exact .inr rfl
    · -- the answer has been tested already
      have hne := hpc.symm.trans hr
      split at hne <;> cases hne
  cases h with
  | sends hs hr h1 h2 hlen => exact .sends hs (hwaits hr) h1 h2 hlen
  | sent hs hr h1 h2 hlen => exact .sent hs (hwaits hr) h1 h2 hlen
  | replies hs hr h1 h2 hlen => cases hpc.symm.trans hr
  | replied hs hr h1 h2 hlen hmem => exact .replied hs (hanswered hr) h1 h2 hlen hmem
  | tests hs hr h1 h2 hlen hmem => exact .tests hs (hanswered hr) h1 h2 hlen hmem
  | ends hs hlast hr h1 h2 hlen hmem => exact .ends hs hlast (hanswered hr) h1 h2 hlen hmem

/-- What is counted down to `1` is never `NIL`. -/
theorem ne_nil_of_pos (h : 1 ≤ u.toNat) : u ≠ NIL := by
  rintro rfl
  exact absurd h (by decide)

theorem Queue.ne_nil_pushBack {q : Queue} (h : ∀ x ∈ q.pushed, x ≠ NIL) (hu : 1 ≤ u.toNat) :
    ∀ x ∈ (q.pushBack u).pushed, x ≠ NIL := by
  intro x hx
  rcases List.mem_append.mp hx with hx | hx
  · exact h x hx
  · exact List.mem_singleton.mp hx ▸ ne_nil_of_pos hu

theorem Waits.ne_push (h : Waits r) : r ≠ .push u := by
  rcases h with rfl | ⟨u', -, rfl⟩
  · exact Receiver.noConfusion
  · exact Receiver.noConfusion

theorem Answered.ne_push {u' : Word} (h : Answered u r) : r ≠ .push u' := by
  rcases h with rfl | rfl
  · exact Receiver.noConfusion
  · split
    · exact Receiver.noConfusion
    · exact Receiver.noConfusion

/-! What each step keeps: only in one phase can it be taken. -/

/-- **The sender sends** the value it is at, -/
theorem Exchange.send (h : Exchange n_msg v w) (hpc : w.sender = .push u) :
    Exchange n_msg v { w with sender := .pop, q1 := w.q1.pushBack u } := by
  cases h.phase with
  | sends hs hr h1 h2 hlen =>
    cases hpc.symm.trans hs
    refine ⟨h.pos, h.parity, Queue.ne_nil_pushBack h.sent_ne h.pos, h.reply_ne,
      .sent rfl hr ?_ h2 ?_⟩
    · exact congrArg (· ++ [v]) h1
    · simp [Queue.pushBack, hlen]
  | sent hs | replies hs | replied hs | tests hs | ends hs => cases hpc.symm.trans hs

/-- **the receiver receives it**, -/
theorem Exchange.receive (h : Exchange n_msg v w) {rest : List Word}
    (hel : w.q1.elements = u :: rest) :
    Exchange n_msg v
      { w with receiver := .push (u - 1), q1 := { w.q1 with elements := rest } } := by
  cases h.phase with
  | sent hs hr h1 h2 hlen =>
    cases hel.symm.trans h1
    exact ⟨h.pos, h.parity, h.sent_ne, h.reply_ne, .replies hs rfl rfl h2 hlen⟩
  | sends hs hr h1 | replies hs hr h1 | replied hs hr h1 | tests hs hr h1 | ends hs hl hr h1 =>
    cases hel.symm.trans h1

/-- **replies** with one less, -/
theorem Exchange.reply (h : Exchange n_msg v w) (hpc : w.receiver = .push u) :
    Exchange n_msg v { w with receiver := .test u, q2 := w.q2.pushBack u } := by
  cases h.phase with
  | replies hs hr h1 h2 hlen =>
    cases hpc.symm.trans hr
    refine ⟨h.pos, h.parity, h.sent_ne, fun heven => ?_, .replied hs (.inl rfl) h1 ?_ ?_ ?_⟩
    · -- an even message is at least `2`
      have hpos := h.pos
      have hparity := h.parity
      have hsub := toNat_sub_one hpos
      exact Queue.ne_nil_pushBack (h.reply_ne heven) (by omega)
    · exact congrArg (· ++ [v - 1]) h2
    · simp [Queue.pushBack, hlen]
    · exact List.mem_append_right _ (List.mem_singleton_self _)
  | sends hs hr | sent hs hr => exact absurd hpc hr.ne_push
  | replied hs hr | tests hs hr | ends hs hl hr => exact absurd hpc hr.ne_push

/-- **and the sender takes the reply.** -/
theorem Exchange.take (h : Exchange n_msg v w) {rest : List Word}
    (hel : w.q2.elements = u :: rest) :
    Exchange n_msg v { w with sender := .test u, q2 := { w.q2 with elements := rest } } := by
  cases h.phase with
  | replied hs hr h1 h2 hlen hmem =>
    cases hel.symm.trans h2
    exact ⟨h.pos, h.parity, h.sent_ne, h.reply_ne, .tests rfl hr h1 rfl hlen hmem⟩
  | sends hs hr h1 h2 | sent hs hr h1 h2 | replies hs hr h1 h2 | tests hs hr h1 h2
  | ends hs hl hr h1 h2 =>
    cases hel.symm.trans h2

/-- A new round begins where the value is above `1`. -/
theorem Exchange.testSender (h : Exchange n_msg v w) (hpc : w.sender = .test u) :
    ∃ v', Exchange n_msg v' { w with sender := if u > 1 then .push (u - 1) else .done } := by
  have hpos := h.pos
  have hparity := h.parity
  have hsub := toNat_sub_one hpos
  cases h.phase with
  | tests hs hr h1 h2 hlen hmem =>
    cases hpc.symm.trans hs
    by_cases hmore : v - 1 > 1
    · -- the next message
      have hgt : 1 < (v - 1).toNat := hmore
      have hsub' := toNat_sub_one hgt.le
      refine ⟨v - 1 - 1, by omega, by omega, h.sent_ne, h.reply_ne, ?_⟩
      rw [if_pos hmore]
      exact .sends rfl (hr.waits hmore) h1 h2 hlen
    · refine ⟨v, hpos, hparity, h.sent_ne, h.reply_ne, ?_⟩
      rw [if_neg hmore]
      exact .ends rfl hmore hr h1 h2 hlen hmem
  | sends hs | sent hs | replies hs | replied hs | ends hs => cases hpc.symm.trans hs

/-- **Every step keeps the exchange.** -/
theorem Exchange.change (h : Exchange n_msg v w) (hc : Change w w') :
    ∃ v', Exchange n_msg v' w' := by
  cases hc with
  | send hpc => exact ⟨v, h.send hpc⟩
  | receive hpc hel => exact ⟨v, h.receive hel⟩
  | reply hpc => exact ⟨v, h.reply hpc⟩
  | take hpc hel => exact ⟨v, h.take hel⟩
  | testSender hpc => exact h.testSender hpc
  | testReceiver hpc =>
    exact ⟨v, h.pos, h.parity, h.sent_ne, h.reply_ne, h.phase.testReceiver hpc⟩

/-- It holds in every state reached. -/
theorem exchange_of_reachable (hn : 1 ≤ n_msg) (hmax : n_msg < 2 ^ 32)
    (hr : (machine n_msg c1 c2).Reachable w) : ∃ v, Exchange n_msg v w := by
  induction hr with
  | init => exact ⟨_, exchange_init hn hmax⟩
  | step _ hs _ ih =>
    obtain ⟨v, h⟩ := ih
    exact h.change (change_of_step hs)

/-! ## Both loops end -/

def Sender.rank : Sender → ℕ
  | .push v => 3 * v.toNat + 5
  | .test u => 3 * u.toNat + 3
  | .pop | .done => 0

def Receiver.rank : Receiver → ℕ
  | .push u => 3 * u.toNat + 6
  | .test _ => 1
  | .pop | .done => 0

/-- What is left to do, by where the counter is. -/
def World.rank (w : World) : ℕ :=
  w.sender.rank + (w.q1.elements.map fun v => 3 * v.toNat + 4).sum + w.receiver.rank +
    (w.q2.elements.map fun u => 3 * u.toNat + 4).sum

/-- Every step comes closer to the end. -/
theorem Change.rank_lt (hc : Change w w') (hpos : ∀ x ∈ w.q1.elements, 1 ≤ x.toNat) :
    w'.rank < w.rank := by
  cases hc with
  | send hpc =>
    simp only [World.rank, hpc, Queue.pushBack, List.map_append, List.sum_append, List.map_cons,
      List.map_nil, List.sum_singleton, Sender.rank]
    omega
  | @receive v rest hpc hel =>
    have hsub := toNat_sub_one (hpos v (hel ▸ List.mem_cons_self))
    have := hpos v (hel ▸ List.mem_cons_self)
    simp only [World.rank, hpc, hel, List.map_cons, List.sum_cons, Receiver.rank]
    omega
  | reply hpc =>
    simp only [World.rank, hpc, Queue.pushBack, List.map_append, List.sum_append, List.map_cons,
      List.map_nil, List.sum_singleton, Receiver.rank]
    omega
  | take hpc hel =>
    simp only [World.rank, hpc, hel, List.map_cons, List.sum_cons, Sender.rank]
    omega
  | @testSender u hpc =>
    by_cases hmore : u > 1
    · have hgt : 1 < u.toNat := hmore
      have hsub := toNat_sub_one hgt.le
      simp only [World.rank, hpc, if_pos hmore, Sender.rank]
      omega
    · simp only [World.rank, hpc, if_neg hmore, Sender.rank]
      omega
  | @testReceiver u hpc =>
    have hbefore : w.receiver.rank = 1 := by rw [hpc]; rfl
    have hafter : Receiver.rank (if u > 1 then .pop else .done) = 0 := by split <;> rfl
    simp only [World.rank, hbefore, hafter]
    omega

/-- The capacities stay. -/
theorem Change.capacity (hc : Change w w') :
    w'.q1.capacity = w.q1.capacity ∧ w'.q2.capacity = w.q2.capacity := by
  cases hc <;> exact ⟨rfl, rfl⟩

/-- The capacities are those the program began with. -/
theorem capacity_of_reachable (hr : (machine n_msg c1 c2).Reachable w) :
    w.q1.capacity = c1 ∧ w.q2.capacity = c2 := by
  induction hr with
  | init => exact ⟨rfl, rfl⟩
  | step _ hs _ ih =>
    have hcap := (change_of_step hs).capacity
    exact ⟨hcap.1.trans ih.1, hcap.2.trans ih.2⟩

theorem step_testReceiver (hpc : w.receiver = .test u) :
    w.step .receiver = some { w with receiver := if u > 1 then .pop else .done } := by
  rw [World.step, World.pingPongReceiver, hpc]

theorem step_testSender (hpc : w.sender = .test u) :
    w.step .sender = some { w with sender := if u > 1 then .push (u - 1) else .done } := by
  rw [World.step, World.pingPongSender, hpc]

/-- Somebody can go on until both are done. -/
theorem Phase.exists_step (h : Phase v w) (h1 : 0 < w.q1.capacity) (h2 : 0 < w.q2.capacity)
    (hnot : ¬ w.Done) : ∃ t w', w.step t = some w' := by
  cases h with
  | sends hs hr hel1 hel2 hlen =>
    have hroom : w.q1.elements.length < w.q1.capacity := by rw [hel1]; exact h1
    refine ⟨.sender, { w with sender := .pop, q1 := w.q1.pushBack v }, ?_⟩
    rw [World.step, World.pingPongSender, hs]
    exact congrArg (Option.map _) (Queue.push_of_room hroom)
  | sent hs hr hel1 hel2 hlen =>
    rcases hr with hr | ⟨u, -, hr⟩
    · refine ⟨.receiver,
        { w with receiver := .push (v - 1), q1 := { w.q1 with elements := [] } }, ?_⟩
      rw [World.step, World.pingPongReceiver, hr]
      exact congrArg (Option.map _) (Queue.pop_of_cons hel1)
    · exact ⟨.receiver, _, step_testReceiver hr⟩
  | replies hs hr hel1 hel2 hlen =>
    have hroom : w.q2.elements.length < w.q2.capacity := by rw [hel2]; exact h2
    refine ⟨.receiver, { w with receiver := .test (v - 1), q2 := w.q2.pushBack (v - 1) }, ?_⟩
    rw [World.step, World.pingPongReceiver, hr]
    exact congrArg (Option.map _) (Queue.push_of_room hroom)
  | replied hs hr hel1 hel2 hlen hmem =>
    refine ⟨.sender, { w with sender := .test (v - 1), q2 := { w.q2 with elements := [] } }, ?_⟩
    rw [World.step, World.pingPongSender, hs]
    exact congrArg (Option.map _) (Queue.pop_of_cons hel2)
  | tests hs hr hel1 hel2 hlen hmem => exact ⟨.sender, _, step_testSender hs⟩
  | ends hs hlast hr hel1 hel2 hlen hmem =>
    rcases hr with hr | hr
    · exact ⟨.receiver, _, step_testReceiver hr⟩
    · exact absurd ⟨hs, hr.trans (if_neg hlast)⟩ hnot

/-- What is in the first queue is a message under way. -/
theorem Exchange.elements_pos (h : Exchange n_msg v w) : ∀ x ∈ w.q1.elements, 1 ≤ x.toNat := by
  intro x hx
  cases h.phase with
  | sent hs hr h1 => exact List.mem_singleton.mp (h1 ▸ hx) ▸ h.pos
  | sends hs hr h1 | replies hs hr h1 | replied hs hr h1 | tests hs hr h1 | ends hs hl hr h1 =>
    exact (List.not_mem_nil (h1 ▸ hx)).elim

/-- **Under a fair schedule both threads end.** -/
theorem exists_done (hn : 1 ≤ n_msg) (hmax : n_msg < 2 ^ 32) (h1 : 0 < c1) (h2 : 0 < c2)
    {sched : ℕ → Thread} (hfair : Machine.Fair sched) :
    ∃ k, ((machine n_msg c1 c2).follow sched k).Done := by
  refine hfair.exists_goal World.rank ?_ ?_
  · intro w t w' hr hs
    obtain ⟨v, h⟩ := exchange_of_reachable hn hmax hr
    exact (change_of_step hs).rank_lt h.elements_pos
  · intro w hr hnot
    obtain ⟨v, h⟩ := exchange_of_reachable hn hmax hr
    have hcap := capacity_of_reachable hr
    exact h.phase.exists_step (hcap.1.symm ▸ h1) (hcap.2.symm ▸ h2) hnot

/-- When both are done nothing is left over, and the last answer, at most
`1`, has been pushed. -/
theorem Exchange.done (h : Exchange n_msg v w) (hdone : w.Done) :
    w.q1.elements = [] ∧ w.q2.elements = [] ∧ w.q1.pushed.length = w.q2.pushed.length ∧
      ¬ v - 1 > 1 ∧ v - 1 ∈ w.q2.pushed := by
  cases h.phase with
  | ends hs hlast hr h1 h2 hlen hmem => exact ⟨h1, h2, hlen, hlast, hmem⟩
  | sends hs | sent hs | replies hs | replied hs | tests hs => cases hdone.1.symm.trans hs

/-! ## The count of messages decides -/

/-- **The ping-pong keeps the reserved value out and ends**: nothing pushed
is `NIL`, both loops end if each thread gets its turns, and they end at the
same exchange, with nothing left in the queues. -/
structure Sound (n_msg c1 c2 : ℕ) : Prop where
  not_nil : ∀ w, (machine n_msg c1 c2).Reachable w → ∀ x ∈ w.q1.pushed ++ w.q2.pushed, x ≠ NIL
  ends : ∀ sched, Machine.Fair sched → ∃ k, ((machine n_msg c1 c2).follow sched k).Done
  together : ∀ w, (machine n_msg c1 c2).Reachable w → w.Done →
    w.q1.elements = [] ∧ w.q2.elements = [] ∧ w.q1.pushed.length = w.q2.pushed.length

/-- The schedule in which the threads take turns. -/
def alternate (k : ℕ) : Thread := if k % 2 = 0 then .sender else .receiver

/-- Turn by turn is fair. -/
theorem fair_alternate : Machine.Fair alternate := by
  intro t k
  cases t with
  | sender => exact ⟨2 * k, by omega, if_pos (by omega)⟩
  | receiver => exact ⟨2 * k + 1, by omega, if_neg (by omega)⟩

/-- An odd count of messages ends in the answer `0`. -/
theorem exists_nil_pushed (hn : 1 ≤ n_msg) (hmax : n_msg < 2 ^ 32) (h1 : 0 < c1) (h2 : 0 < c2)
    (hodd : n_msg % 2 = 1) : ∃ w, (machine n_msg c1 c2).Reachable w ∧ NIL ∈ w.q2.pushed := by
  obtain ⟨k, hdone⟩ := exists_done hn hmax h1 h2 fair_alternate
  have hr := (machine n_msg c1 c2).reachable_follow alternate k
  obtain ⟨v, h⟩ := exchange_of_reachable hn hmax hr
  obtain ⟨-, -, -, hlast, hmem⟩ := h.done hdone
  have hpos := h.pos
  have hparity := h.parity
  have hsub := toNat_sub_one hpos
  have hle : ¬ 1 < (v - 1).toNat := hlast
  have hzero : v - 1 = NIL := BitVec.eq_of_toNat_eq (by
    have hnil : NIL.toNat = 0 := rfl
    omega)
  exact ⟨_, hr, hzero ▸ hmem⟩

/-- **The ping-pong is sound exactly if the count of messages is even**,
over queues of any capacities. -/
theorem sound_iff (hn : 1 ≤ n_msg) (hmax : n_msg < 2 ^ 31) (h1 : 0 < c1) (h2 : 0 < c2) :
    Sound n_msg c1 c2 ↔ n_msg % 2 = 0 := by
  have hmax' : n_msg < 2 ^ 32 := by omega
  constructor
  · intro h
    by_contra hodd
    obtain ⟨w, hr, hmem⟩ := exists_nil_pushed hn hmax' h1 h2 (by omega)
    exact h.not_nil w hr NIL (List.mem_append_right _ hmem) rfl
  · intro heven
    refine ⟨fun w hr x hx => ?_, fun _ hfair => exists_done hn hmax' h1 h2 hfair,
      fun w hr hdone => ?_⟩
    · obtain ⟨v, h⟩ := exchange_of_reachable hn hmax' hr
      rcases List.mem_append.mp hx with hx | hx
      · exact h.sent_ne x hx
      · exact h.reply_ne heven x hx
    · obtain ⟨v, h⟩ := exchange_of_reachable hn hmax' hr
      obtain ⟨hel1, hel2, hlen, -⟩ := h.done hdone
      exact ⟨hel1, hel2, hlen⟩

/-- The default count of messages, over the queues of the benchmark. -/
theorem sound_iff_default : Sound 1000000 8 8 :=
  (sound_iff (by decide) (by decide) (by decide) (by decide)).mpr (by decide)

/-- One message: the receiver answers it with `NIL`. -/
theorem sound_fails : ¬ Sound 1 8 8 := by
  intro h
  obtain ⟨w, hr, hw⟩ := (machine 1 8 8).exists_run_of_execWhile (fun _ _ _ => True)
    [.sender, .receiver, .receiver] (fun w => w.q2.pushed) (b := [NIL]) (by decide)
  exact h.not_nil w hr NIL (List.mem_append_right _ (hw ▸ List.mem_singleton_self _)) rfl

end PingPong

end AtomicQueue
