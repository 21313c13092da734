import AtomicQueue.Concurrent.Stress
import AtomicQueue.Concurrent.Quiescence
import Mathlib.Data.Nat.Cast.Field
import Mathlib.Algebra.Order.BigOperators.Group.Finset
/-!
# The programs receive what they send

When all consumers have been stopped every message has been popped once and
the queue is empty, whether or not threads overtake each other on the way.
Then the sums are right as far as the one to compare them with is.
Each consumer has popped one message that stops it, so all of these are
taken. The last number of all is that of such a message. Whoever is in
`push` when it is claimed is pushing another one, so nothing is left behind
it.
-/

namespace AtomicQueue

namespace Stress

variable {D : Derived Word} {p : Program} {s s' : World D p} {t u : p.Thread}

/-- What the messages of all producers add up to. -/
def Program.sum (p : Program) : ℕ := p.producers * ((p.n_msg.toNat + 1) * p.n_msg.toNat / 2)

/-- **A program that stops its consumers**: its main thread pushes a message
for each, which no producer pushes, or the last message of a producer is
one. -/
structure Stops (D : Derived Word) (p : Program) : Prop where
  consumers_pos : 0 < p.consumers
  plain : p.biased = false → p.stops = p.consumers ∧ p.stop ∉ downFrom p.n_msg
  biased : p.biased = true →
    p.stops = 0 ∧ p.stop = 1 ∧ p.producers = p.consumers ∧ p.n_msg ≠ 0
  spsc : D.spsc_ = true → p.producers ≤ 1 ∧ p.consumers ≤ 1
  /-- No sum of the benchmark overflows a `long long`. -/
  fits : p.biased = true → p.sum < 2 ^ 63

theorem Stops.messaging (hp : Stops D p) (hbiased : p.biased = true) : p.n_msg ≠ 0 :=
  (hp.biased hbiased).2.2.2

/-! ## The queue of a program -/

/-- A thread that pushes is a producer, or the main thread past them. -/
theorem Placed.pushes (h : Placed s) (ht : (s.queue.pc t).offers ≠ none) :
    (∃ i n, t = .producer i ∧ s.pc t = .push n) ∨ (∃ left, t = .main ∧ s.pc t = .stop left) := by
  have hoffers := ((h.matched t).calling fun hidle => ht (by rw [hidle]; rfl)).2.1
  have hrole := h.role t
  rw [hoffers] at ht
  cases hpc : s.pc t <;> rw [hpc] at ht hrole <;> try exact absurd rfl ht
  · cases t <;> first | exact Or.inl ⟨_, _, rfl, rfl⟩ | exact False.elim hrole
  · cases t <;> first | exact Or.inr ⟨_, rfl, rfl⟩ | exact False.elim hrole

/-- A thread that pops is a consumer. -/
theorem Placed.consumer_of_popping (h : Placed s) (ht : (s.pc t).popping = true) :
    ∃ i sum, t = .consumer i ∧ s.pc t = .pop sum := by
  have hrole := h.role t
  cases hpc : s.pc t with
  | pop sum =>
    rw [hpc] at hrole
    cases t with
    | consumer i => exact ⟨i, sum, rfl, rfl⟩
    | producer i | main => cases hrole
  | _ =>
    rw [hpc] at ht
    cases ht

/-- A thread that pops is a consumer. -/
theorem Placed.pops (h : Placed s) (ht : (s.queue.pc t).popping = true) :
    ∃ i sum, t = .consumer i ∧ s.pc t = .pop sum := by
  have hpopping := ((h.matched t).calling fun hidle => by rw [hidle] at ht; cases ht).2.2
  exact h.consumer_of_popping (hpopping.symm.trans ht)

/-- **With `spsc_` one thread pushes at a time and one pops**: the main
thread pushes after the producer has ended. -/
theorem Placed.sole (h : Placed s) (hp : Stops D p) : Sole s.queue where
  push_eq hspsc t u ht hu := by
    have hone := (hp.spsc hspsc).1
    -- past the join no producer is pushing
    have hmain : ∀ i left n, s.pc .main = .stop left → s.pc (.producer i) ≠ .push n := by
      intro i left n hpc hpush
      have hdone := h.joined (by rw [hpc]; simp) i
      rw [hpush] at hdone
      cases hdone
    rcases h.pushes ht with ⟨i, n, rfl, hi⟩ | ⟨left, rfl, hi⟩ <;>
      rcases h.pushes hu with ⟨j, n', rfl, hj⟩ | ⟨left', rfl, hj⟩
    · rw [Fin.ext (by omega : i.val = j.val)]
    · exact absurd hi (hmain i left' n hj)
    · exact absurd hj (hmain j left n' hi)
    · rfl
  pop_eq hspsc t u ht hu := by
    have hone := (hp.spsc hspsc).2
    obtain ⟨i, n, rfl, -⟩ := h.pops ht
    obtain ⟨j, n', rfl, -⟩ := h.pops hu
    rw [Fin.ext (by omega : i.val = j.val)]

/-- A step leaves the queue or is one of its steps. -/
theorem Change.queue (h : Change s s') :
    s'.queue = s.queue ∨ ∃ a, AtomicQueue.Change s.queue a s'.queue := by
  cases h with
  | call hop hq => exact Or.inr ⟨_, hq⟩
  | step hq => exact Or.inr ⟨_, hq⟩
  | own h => exact Or.inl rfl

/-! ## How many messages -/

theorem sum_thread {M : Type} [AddCommMonoid M] {P C : ℕ} (f : Thread P C → M) :
    ∑ t, f t = ∑ i, f (.producer i) + ∑ i, f (.consumer i) + f .main := by
  let e : Fin P ⊕ Fin C ⊕ Unit ≃ Thread P C :=
    { toFun := Sum.elim .producer (Sum.elim .consumer fun _ => .main)
      invFun := fun t => Thread.casesOn t Sum.inl (fun i => .inr (.inl i)) (.inr (.inr ()))
      left_inv := by rintro (i | i | _) <;> rfl
      right_inv := by rintro (i | i | _) <;> rfl }
  rw [← Equiv.sum_comp e, Fintype.sum_sum_type, Fintype.sum_sum_type, add_assoc]
  simp only [Finset.univ_unique, Finset.sum_singleton]
  rfl

/-- All that is pushed. -/
def Program.messages (p : Program) : Multiset Word :=
  p.producers • (downFrom p.n_msg : Multiset Word) + Multiset.replicate p.stops p.stop

/-- The scripts of all threads together are the messages. -/
theorem sum_script : ∑ t, (p.script t : Multiset Word) = p.messages := by
  rw [sum_thread, Program.messages, ← Multiset.coe_replicate]
  simp only [Program.script, Finset.sum_const, Finset.card_univ, Fintype.card_fin, Multiset.coe_nil,
    nsmul_zero, add_zero]

/-- **Claimed and left to claim are all messages.** -/
theorem Accounted.sum (h : Accounted s) :
    (s.queue.hist.chan.pushes.map Ticket.datum : List Word) +
      ∑ t, (p.left t (s.queue.pc t) (s.pc t) : Multiset Word) = p.messages := by
  rw [← AtomicQueue.World.sum_claimed, ← Finset.sum_add_distrib, ← sum_script]
  exact Finset.sum_congr rfl fun t _ => by rw [Multiset.coe_add, h t]

/-- What was claimed and what is left make up the messages. -/
theorem Accounted.pushes_add (h : Accounted s) :
    s.queue.hist.pushes + ∑ t, (p.left t (s.queue.pc t) (s.pc t)).length = p.messages.card := by
  rw [← h.sum, Multiset.card_add, Multiset.coe_card, List.length_map, Multiset.card_sum]
  rfl

theorem length_downFrom {n : Word} : (downFrom n).length = n.toNat := by
  simp [downFrom]

theorem downFrom_eq_nil {n : Word} : downFrom n = [] ↔ n = 0 := by
  rw [← List.length_eq_zero_iff, length_downFrom]
  exact ⟨fun h => BitVec.eq_of_toNat_eq h, fun h => by rw [h]; rfl⟩

/-- A producer's messages are the words from its count down to `1`. -/
theorem mem_downFrom {n x : Word} : x ∈ downFrom n ↔ x ≠ 0 ∧ x.toNat ≤ n.toNat := by
  rw [downFrom, List.mem_map]
  constructor
  · rintro ⟨k, hk, rfl⟩
    rw [List.mem_reverse, List.mem_range] at hk
    have hlt := n.isLt
    have htoNat : (BitVec.ofNat 32 (k + 1)).toNat = k + 1 := by
      rw [BitVec.toNat_ofNat, Nat.mod_eq_of_lt (by omega)]
    exact ⟨fun h => by simp [h] at htoNat, by omega⟩
  · rintro ⟨hx, hle⟩
    have hpos : 1 ≤ x.toNat := Nat.one_le_iff_ne_zero.mpr fun h => hx (BitVec.eq_of_toNat_eq h)
    refine ⟨x.toNat - 1, List.mem_reverse.mpr (List.mem_range.mpr (by omega)), ?_⟩
    rw [Nat.sub_add_cancel hpos, BitVec.ofNat_toNat, BitVec.setWidth_eq]

theorem exists_tail_downFrom (n : Word) : ∃ m, (downFrom n).tail = downFrom m := by
  by_cases hn : n = 0
  · exact ⟨0, by rw [hn]; rfl⟩
  · exact ⟨n - 1, by rw [downFrom_of_ne hn]; rfl⟩

/-! ## What is left at the end -/

/-- What a producer has left is the rest of its loop, -/
theorem Placed.left_producer (h : Placed s) (i : Fin p.producers) :
    ∃ n, p.left (.producer i) (s.queue.pc (.producer i)) (s.pc (.producer i)) = downFrom n := by
  have htodo : ∃ n, p.todo (.producer i) (s.pc (.producer i)) = downFrom n := by
    have hrole := h.role (.producer i)
    cases hpc : s.pc (.producer i) <;> rw [hpc] at hrole <;>
      first | exact ⟨_, rfl⟩ | exact ⟨0, rfl⟩ | exact False.elim hrole
  obtain ⟨n, hn⟩ := htodo
  rw [Program.left, hn]
  split
  · exact exists_tail_downFrom n
  · exact ⟨n, rfl⟩

/-- and what the main thread has left are messages that stop. -/
theorem Placed.left_main (h : Placed s) :
    ∃ k, p.left .main (s.queue.pc .main) (s.pc .main) = List.replicate k p.stop := by
  have htodo : ∃ k, p.todo .main (s.pc .main) = List.replicate k p.stop := by
    have hrole := h.role .main
    cases hpc : s.pc .main <;> rw [hpc] at hrole <;>
      first | exact ⟨_, rfl⟩ | exact ⟨0, rfl⟩ | exact False.elim hrole
  obtain ⟨k, hk⟩ := htodo
  rw [Program.left, hk]
  split
  · exact ⟨k - 1, List.tail_replicate⟩
  · exact ⟨k, rfl⟩

/-- A consumer has no message to push. -/
theorem Placed.left_consumer (h : Placed s) (i : Fin p.consumers) :
    p.left (.consumer i) (s.queue.pc (.consumer i)) (s.pc (.consumer i)) = [] := by
  have htodo : p.todo (.consumer i) (s.pc (.consumer i)) = [] := by
    have hrole := h.role (.consumer i)
    cases hpc : s.pc (.consumer i) <;> rw [hpc] at hrole <;>
      first | rfl | exact False.elim hrole
  rw [Program.left, htodo]
  exact ite_self _

/-- Where the main thread has nothing left to push the producers have
ended. -/
theorem Placed.done_of_left (h : Placed s) (hpos : p.stops ≠ 0)
    (hleft : p.left .main (s.queue.pc .main) (s.pc .main) = []) (i : Fin p.producers) :
    s.pc (.producer i) = .done := by
  refine h.joined (fun hpc => ?_) i
  rw [(h.matched .main).idle (by rw [hpc]; rfl) (by rw [hpc]; rfl), hpc] at hleft
  have hlen : (List.replicate p.stops p.stop).length = 0 := congrArg List.length hleft
  rw [List.length_replicate] at hlen
  exact hpos hlen

/-- **With no message left that stops, none is left.** -/
theorem Placed.left_eq_nil (h : Placed s) (hp : Stops D p)
    (hno : ∀ t, p.stop ∉ p.left t (s.queue.pc t) (s.pc t)) (t : p.Thread) :
    p.left t (s.queue.pc t) (s.pc t) = [] := by
  have hmain : p.left .main (s.queue.pc .main) (s.pc .main) = [] := by
    obtain ⟨k, hk⟩ := h.left_main
    have hnot := hno .main
    rw [hk] at hnot ⊢
    cases k with
    | zero => rfl
    | succ k => exact absurd List.mem_cons_self hnot
  cases t with
  | consumer i => exact h.left_consumer i
  | main => exact hmain
  | producer i =>
    cases hbiased : p.biased with
    | true =>
      -- the last message of the loop stops a consumer
      obtain ⟨n, hn⟩ := h.left_producer i
      have hnot := hno (.producer i)
      rw [hn, (hp.biased hbiased).2.1, mem_downFrom, not_and_or, not_not] at hnot
      rw [hn, downFrom_eq_nil]
      rcases hnot with hone | hlt
      · cases hone
      · exact BitVec.eq_of_toNat_eq (Nat.lt_one_iff.mp (not_le.mp hlt))
    | false =>
      have hstops := (hp.plain hbiased).1
      have hpos := hp.consumers_pos
      have hdone := h.done_of_left (by omega) hmain i
      rw [(h.matched _).idle (by rw [hdone]; rfl) (by rw [hdone]; rfl), hdone]
      rfl

/-- **With no message left whoever is pushing is pushing one that stops.** -/
theorem Placed.stop_of_left (h : Placed s) (hp : Stops D p)
    (hleft : ∀ t, p.left t (s.queue.pc t) (s.pc t) = []) {x : Word}
    (hpush : (s.queue.pc t).pushing = true) (hx : (s.queue.pc t).offers = some x) : x = p.stop := by
  have hcalls := (h.matched t).calling fun hidle => by rw [hidle] at hx; cases hx
  have hoffers := hcalls.2.1.symm.trans hx
  rcases h.pushes (by rw [hx]; simp) with ⟨i, n, rfl, hpc⟩ | ⟨left, rfl, hpc⟩
  · rw [hpc] at hoffers
    obtain rfl : n = x := Option.some.inj hoffers
    cases hbiased : p.biased with
    | true =>
      have hrole := h.role (.producer i)
      rw [hpc] at hrole
      have hn : n ≠ 0 := hrole
      have htail := hleft (.producer i)
      rw [left_of_pushing hpush, hpc] at htail
      have hlast : (downFrom n).tail = [] := htail
      rw [downFrom_of_ne hn, List.tail_cons, downFrom_eq_nil, sub_eq_zero] at hlast
      rw [hlast, (hp.biased hbiased).2.1]
    | false =>
      have hstops := (hp.plain hbiased).1
      have hpos := hp.consumers_pos
      have hdone := h.done_of_left (by omega) (hleft .main) i
      rw [hpc] at hdone
      cases hdone
  · rw [hpc] at hoffers
    exact (Option.some.inj hoffers).symm

/-! ## What every run keeps -/

/-- **The program, the queue and its channels.** -/
structure Steady (s : World D p) : Prop where
  placed : Placed s
  accounted : Accounted s
  tallied : Tallied s
  sound : Sound s.queue
  chan : (Channels.machine (Ticket p.Thread Word) (Ticket p.Thread Unit) D.ring.slotOf).Reachable
    s.queue.hist.chan
  ends : Channels.Ends p.messages.card (·.datum = p.stop) s.queue.hist.chan

/-- With all positions claimed nothing is left. -/
theorem Accounted.left_eq_nil (h : Accounted s) (hall : s.queue.hist.pushes = p.messages.card)
    (t : p.Thread) : p.left t (s.queue.pc t) (s.pc t) = [] := by
  have hadd := h.pushes_add
  have hsum : ∑ t, (p.left t (s.queue.pc t) (s.pc t)).length = 0 := by omega
  exact List.eq_nil_of_length_eq_zero (Finset.sum_eq_zero_iff.mp hsum t (Finset.mem_univ t))

/-- With all positions claimed, those not served are for messages that
stop. -/
theorem waiting_of_placed (h : Placed s) (ha : Accounted s) (hS : Sound s.queue) (hp : Stops D p) :
    Channels.Waiting p.messages.card (fun c : Ticket p.Thread Word => c.datum = p.stop)
      s.queue.hist.chan := by
  intro hlen k a hk hput
  obtain ⟨t, x, q, hpc, -, rfl⟩ := hS.waits_push (List.getElem?_eq_some_iff.mp hk).1 hput
  have hclaim := (push_claim hS.pushTickets hpc).1
  rw [hk, Option.some.injEq] at hclaim
  rw [hclaim]
  exact h.stop_of_left hp (ha.left_eq_nil hlen) (t := t) (by rw [hpc]; rfl) (by rw [hpc]; rfl)

/-- **Every step keeps the programs steady.** -/
theorem Steady.change (h : Steady s) (hp : Stops D p) (hc : Change s s') : Steady s' := by
  have hplaced := h.placed.change hp.messaging hc
  have haccounted := h.accounted.change hp.messaging h.placed hc
  have htallied := h.tallied.change h.placed hc
  rcases hc.queue with heq | ⟨a, hq⟩
  · exact ⟨hplaced, haccounted, htallied, heq ▸ h.sound, heq ▸ h.chan, heq ▸ h.ends⟩
  · have hsound := h.sound.change (hplaced.sole hp) hq
    rcases h.sound.toKept.channels h.sound.popTickets hq with heq | ⟨b, hb, -⟩
    · exact ⟨hplaced, haccounted, htallied, hsound, heq ▸ h.chan, heq ▸ h.ends⟩
    · refine ⟨hplaced, haccounted, htallied, hsound, h.chan.step hb trivial, ?_⟩
      refine h.ends.step h.sound.chan hb ?_ (waiting_of_placed h.placed h.accounted h.sound hp)
        (waiting_of_placed hplaced haccounted hsound hp)
      have hadd := haccounted.pushes_add
      simp only [History.pushes] at hadd
      omega

theorem card_messages : p.messages.card = p.producers * p.n_msg.toNat + p.stops := by
  rw [Program.messages, Multiset.card_add, Multiset.card_nsmul, Multiset.coe_card, length_downFrom,
    Multiset.card_replicate]

/-- There is a message, if only one that stops a consumer. -/
theorem Stops.messages_pos (hp : Stops D p) : 0 < p.messages.card := by
  have hpos := hp.consumers_pos
  rw [card_messages]
  cases hbiased : p.biased with
  | true =>
    obtain ⟨-, -, hn, hne⟩ := hp.biased hbiased
    have hmsg : 0 < p.n_msg.toNat := Nat.pos_of_ne_zero fun h => hne (BitVec.eq_of_toNat_eq h)
    have := Nat.mul_pos (hn ▸ hpos) hmsg
    omega
  | false =>
    have := (hp.plain hbiased).1
    omega

theorem sound_init : Sound (AtomicQueue.World.init D p.Thread) := by
  have hok : AtomicQueue.Proper D fun (_ : AtomicQueue.World D p.Thread) _ _ => False :=
    fun _ => ⟨.main, .main, nofun⟩
  exact sound_of_run hok .init

/-- A program is steady in every state it reaches. -/
theorem steady_of_run (hp : Stops D p) (hr : (machine D p).Reachable s) : Steady s := by
  refine hr.invariant ⟨placed_init hp.messaging, accounted_init hp.messaging, tallied_init,
    sound_init, .init, Channels.ends_empty hp.messages_pos⟩ ?_
  intro s a s' _ h hs _
  exact h.change hp (change_of_step hs)

/-! ## When the consumers have stopped -/

/-- All consumers have stopped. -/
def World.Stopped (s : World D p) : Prop := ∀ i, (s.pc (.consumer i)).ended = true

theorem Placed.exists_sum (h : Placed s) (hend : s.Stopped) (i : Fin p.consumers) :
    ∃ sum, s.pc (.consumer i) = .stopped sum := by
  have hrole := h.role (.consumer i)
  have hi := hend i
  cases hpc : s.pc (.consumer i) <;> rw [hpc] at hrole hi <;>
    first | exact ⟨_, rfl⟩ | exact False.elim hrole | cases hi

/-- Producers and the main thread pop nothing. -/
theorem Tallied.popped_eq_nil (h : Tallied s) (hp : Placed s) :
    (∀ i, s.queue.popped (.producer i) = []) ∧ s.queue.popped .main = [] := by
  constructor
  · intro i
    have hrole := hp.role (.producer i)
    have ht := h (.producer i)
    cases hpc : s.pc (.producer i) <;> rw [hpc] at hrole ht <;>
      first | exact ht | exact False.elim hrole
  · have hrole := hp.role .main
    have ht := h .main
    cases hpc : s.pc .main <;> rw [hpc] at hrole ht <;> first | exact ht | exact False.elim hrole

/-- All received is received by consumers. -/
theorem Tallied.sum_popped (h : Tallied s) (hp : Placed s) :
    ∑ i, (s.queue.popped (.consumer i) : Multiset Word) =
      (s.queue.hist.received.map Return.element : List Word) := by
  obtain ⟨hproducer, hmain⟩ := h.popped_eq_nil hp
  rw [← AtomicQueue.World.sum_popped, sum_thread, hmain,
    Finset.sum_congr rfl fun i _ => congrArg _ (hproducer i)]
  simp

/-- **Each consumer has received one message that stops it.** -/
theorem Tallied.count_received (h : Tallied s) (hp : Placed s) (hend : s.Stopped) :
    (s.queue.hist.received.map Return.element).count p.stop = p.consumers := by
  rw [← Multiset.coe_count, ← h.sum_popped hp, Multiset.count_sum']
  have hone : ∀ i, Multiset.count p.stop (s.queue.popped (.consumer i) : Multiset Word) = 1 := by
    intro i
    obtain ⟨sum, hpc⟩ := hp.exists_sum hend i
    have ht := h (.consumer i)
    rw [hpc] at ht
    rw [Multiset.coe_count]
    exact ht.1
  rw [Finset.sum_congr rfl fun i _ => hone i]
  simp

/-- No producer sends a message twice. -/
theorem nodup_downFrom (n : Word) : (downFrom n).Nodup := by
  refine List.Nodup.map_on (fun j hj k hk heq => ?_) (List.nodup_reverse.mpr List.nodup_range)
  have hlt := n.isLt
  rw [List.mem_reverse, List.mem_range] at hj hk
  have htoNat := congrArg BitVec.toNat heq
  rw [BitVec.toNat_ofNat, BitVec.toNat_ofNat, Nat.mod_eq_of_lt (by omega),
    Nat.mod_eq_of_lt (by omega)] at htoNat
  omega

/-- **There is one such message for each consumer.** -/
theorem Stops.count_messages (hp : Stops D p) : p.messages.count p.stop = p.consumers := by
  rw [Program.messages, Multiset.count_add, Multiset.count_nsmul, Multiset.coe_count,
    Multiset.count_replicate_self]
  cases hbiased : p.biased with
  | true =>
    obtain ⟨hstops, hstop, hn, hne⟩ := hp.biased hbiased
    have hmem : p.stop ∈ downFrom p.n_msg := by
      rw [hstop, mem_downFrom]
      exact ⟨by decide, Nat.one_le_iff_ne_zero.mpr fun h => hne (BitVec.eq_of_toNat_eq h)⟩
    rw [List.count_eq_one_of_mem (nodup_downFrom _) hmem, hstops, mul_one, add_zero, hn]
  | false =>
    obtain ⟨hstops, hnot⟩ := hp.plain hbiased
    rw [List.count_eq_zero_of_not_mem hnot, mul_zero, zero_add, hstops]

/-- With the consumers stopped no message that stops is left, -/
theorem Steady.not_mem_left (h : Steady s) (hp : Stops D p) (hend : s.Stopped) (t : p.Thread) :
    p.stop ∉ p.left t (s.queue.pc t) (s.pc t) := by
  have hcount := congrArg (Multiset.count p.stop) h.accounted.sum
  have hle := Multiset.count_le_of_le p.stop h.sound.received_le
  rw [Multiset.count_add, hp.count_messages, Multiset.count_sum'] at hcount
  rw [Multiset.coe_count, h.tallied.count_received h.placed hend] at hle
  have hsum :
      ∑ t, Multiset.count p.stop (p.left t (s.queue.pc t) (s.pc t) : Multiset Word) = 0 := by
    omega
  have hzero := Finset.sum_eq_zero_iff.mp hsum t (Finset.mem_univ t)
  rwa [Multiset.count_eq_zero, Multiset.mem_coe] at hzero

/-- so none is left at all, -/
theorem Steady.pushes_eq (h : Steady s) (hp : Stops D p) (hend : s.Stopped) :
    (s.queue.hist.chan.pushes.map Ticket.datum : List Word) = p.messages := by
  have hleft := h.placed.left_eq_nil hp (h.not_mem_left hp hend)
  have hsum := h.accounted.sum
  rwa [Finset.sum_congr rfl fun t _ => congrArg _ (hleft t), Multiset.coe_nil,
    Finset.sum_const_zero, add_zero] at hsum

/-- and all that stop have been taken. -/
theorem Steady.stop_taken (h : Steady s) (hp : Stops D p) (hend : s.Stopped) {k : ℕ}
    (hk : s.queue.hist.element k = some p.stop) : k ∈ s.queue.hist.chan.takes.map Prod.snd := by
  refine h.sound.taken_of_count ?_ hk
  rw [← Multiset.coe_count, h.pushes_eq hp hend, hp.count_messages,
    h.tallied.count_received h.placed hend]

/-- **No call is between its claim and its return.** -/
theorem Steady.quiescent (h : Steady s) (hp : Stops D p) (hend : s.Stopped) :
    s.queue.Quiescent := by
  rintro t i (hpush | hpop)
  · obtain ⟨x, q, hpc⟩ := Pc.pushSlot_eq.mp hpush
    have hleft := h.placed.left_eq_nil hp (h.not_mem_left hp hend)
    obtain rfl := h.placed.stop_of_left hp hleft (t := t) (x := x) (by rw [hpc]; rfl)
      (by rw [hpc]; rfl)
    obtain ⟨hissued, -, hnot⟩ := push_claim h.sound.pushTickets hpc
    -- what it pushes has been taken, so it has returned
    have htaken := h.stop_taken hp hend (k := s.queue.hist.pushNo t)
      (by rw [History.element, hissued]; rfl)
    obtain ⟨⟨m, k⟩, hmem, hk⟩ := List.mem_map.mp htaken
    exact hnot (hk ▸ h.sound.stored_of_taken h.sound.chan hmem)
  · obtain ⟨q, hpc⟩ := Pc.popSlot_eq.mp hpop
    obtain ⟨j, sum, rfl, hpop⟩ := h.placed.pops (t := t) (by rw [hpc]; rfl)
    obtain ⟨sum', hstopped⟩ := h.placed.exists_sum hend j
    rw [hstopped] at hpop
    cases hpop

/-! ## The sums -/

theorem sum_range_succ (n : ℕ) : ((List.range n).map (· + 1)).sum = (n + 1) * n / 2 := by
  have htwice : 2 * ((List.range n).map (· + 1)).sum = (n + 1) * n := by
    induction n with
    | zero => rfl
    | succ n ih =>
      rw [List.range_succ, List.map_append, List.sum_append, Nat.mul_add, ih]
      simp
      ring
  omega

/-- The messages of one producer add up to a triangle number. -/
theorem sum_downFrom (n : Word) :
    ((downFrom n).map BitVec.toNat).sum = (n.toNat + 1) * n.toNat / 2 := by
  rw [← sum_range_succ, downFrom, List.map_map, List.map_reverse, List.sum_reverse]
  refine congrArg List.sum (List.map_congr_left fun k hk => ?_)
  have hlt := n.isLt
  rw [List.mem_range] at hk
  rw [Function.comp_apply, BitVec.toNat_ofNat, Nat.mod_eq_of_lt (by omega)]

/-- The messages that stop add nothing, or are among these. -/
theorem Stops.value_messages (hp : Stops D p) : p.value p.messages = p.sum := by
  have hloop : p.value (downFrom p.n_msg : Multiset Word) =
      (p.n_msg.toNat + 1) * p.n_msg.toNat / 2 := by
    rw [← sum_downFrom]
    refine congrArg List.sum (List.map_congr_left fun x hx => if_neg ?_)
    rintro ⟨rfl, hbiased⟩
    exact (hp.plain hbiased).2 hx
  have hstop : p.value (Multiset.replicate p.stops p.stop) = 0 := by
    rw [← Multiset.nsmul_singleton, map_nsmul]
    cases hbiased : p.biased with
    | true => rw [(hp.biased hbiased).1, zero_nsmul]
    | false =>
      have hweight : p.value {p.stop} = 0 := by
        simp [Program.value, Program.weight, hbiased]
      rw [hweight, nsmul_zero]
  rw [Program.messages, map_add, map_nsmul, hloop, hstop, add_zero, Program.sum,
    nsmul_eq_mul, Nat.cast_id]

/-- The sums in 64 bits are those of the whole numbers. -/
theorem ofNat_sum {ι : Type} [Fintype ι] (f : ι → ℕ) :
    BitVec.ofNat 64 (∑ i, f i) = ∑ i, BitVec.ofNat 64 (f i) :=
  map_sum (AddMonoidHom.mk' (BitVec.ofNat 64) fun _ _ => BitVec.ofNat_add _ _) f Finset.univ

/-- **The sum a program expects is computed exactly**: what a producer pushes
adds up to a number of 53 bits, and so does what all push where the product
is computed in `double`. -/
structure Program.Exact (p : Program) : Prop where
  n_msg_ne : p.n_msg ≠ 0
  n_msg_le : p.n_msg.toNat ≤ 2 ^ 27
  plain : p.biased = false → p.producers ≠ 0 ∧ p.sum < 2 ^ 53

theorem triangle_pos {n : ℕ} (hn : n ≠ 0) : 0 < (n + 1) * n / 2 := by
  have : 2 * 1 ≤ (n + 1) * n := Nat.mul_le_mul (by omega) (by omega)
  omega

/-- A producer's sum has at most 53 bits. -/
theorem fits_triangle {n : ℕ} (hn : n ≠ 0) (hle : n ≤ 2 ^ 27) :
    Double.Fits (((n + 1) * n / 2 : ℕ) : ℚ) := by
  rcases hle.lt_or_eq with hlt | rfl
  · refine Double.fits_natCast (triangle_pos hn).ne' ?_
    have : (n + 1) * n ≤ 2 ^ 27 * (2 ^ 27 - 1) := Nat.mul_le_mul (by omega) (by omega)
    omega
  · -- a number of 54 bits, the last of which is `0`
    exact ⟨2 ^ 27 + 1, 26, by norm_num, by norm_num, by norm_num⟩

theorem Program.Exact.toNat_ne (h : p.Exact) : p.n_msg.toNat ≠ 0 :=
  fun hzero => h.n_msg_ne (BitVec.eq_of_toNat_eq hzero)

/-- **Up to `2 ^ 27` messages the sum of a producer is exact**: no product on
the way to it has more than 53 bits. -/
theorem Program.Exact.is_producer_sum (h : p.Exact) :
    Double.Is p.producer_sum (((p.n_msg.toNat + 1) * p.n_msg.toNat / 2 : ℕ) : ℚ) := by
  have hne := h.toNat_ne
  have hle := h.n_msg_le
  rw [Program.producer_sum]
  generalize p.n_msg.toNat = n at hne hle ⊢
  have htriangle : (((n + 1 : ℕ) : ℚ) * (1 / 2)) * n = ((n + 1) * n / 2 : ℕ) := by
    have htwo : 2 ∣ (n + 1) * n := by
      rw [mul_comm]
      exact (Nat.even_mul_succ_self n).two_dvd
    rw [Nat.cast_div htwo two_ne_zero]
    push_cast
    ring
  have hone : (1 : ℚ) ≤ ((n + 1 : ℕ) : ℚ) := by exact_mod_cast Nat.le_add_left 1 n
  have hhalf := (Double.is_ofNat n.succ_ne_zero (by omega)).mul Double.is_half
    (Double.half_le n.succ_ne_zero) le_rfl (Double.fits_half n.succ_ne_zero (by omega))
  have hsum := hhalf.mul (Double.is_ofNat hne (by omega)) (by linarith) (Double.half_le hne)
    (by rw [htriangle]; exact fits_triangle hne hle)
  rwa [htriangle] at hsum

/-- **Then it is what the messages add up to.** -/
theorem Program.Exact.expected_sum_eq (h : p.Exact) : p.expected_sum = BitVec.ofNat 64 p.sum := by
  have hsum := h.is_producer_sum
  rw [Program.expected_sum]
  cases hbiased : p.biased with
  | true =>
    rw [if_pos rfl, hsum.trunc_eq, BitVec.ofInt_natCast, ← BitVec.ofNat_mul, Nat.mul_comm]
    rfl
  | false =>
    obtain ⟨hne, hlt⟩ := h.plain hbiased
    have hproduct : (((p.n_msg.toNat + 1) * p.n_msg.toNat / 2 : ℕ) : ℚ) * p.producers = p.sum := by
      rw [Program.sum, mul_comm]
      exact (Nat.cast_mul _ _).symm
    have hpos := triangle_pos h.toNat_ne
    have hle : p.producers ≤ p.sum := Nat.le_mul_of_pos_right _ hpos
    have htotal := hsum.mul (Double.is_ofNat hne (by omega)) (Double.half_le hpos.ne')
      (Double.half_le hne) (by rw [hproduct]; exact Double.fits_natCast (by omega) hlt)
    rw [hproduct] at htotal
    rw [if_neg Bool.false_ne_true, htotal.trunc_eq, BitVec.ofInt_natCast]

/-- With one message more than that a producer's sum is not the one expected. -/
example : (throughput 1 134217729 true).expected_sum ≠
    BitVec.ofNat 64 (throughput 1 134217729 true).sum := by
  decide +kernel

/-- **A consumer adds up what it has received.** -/
theorem Steady.result_eq (h : Steady s) (hp : Stops D p) (hend : s.Stopped) (i : Fin p.consumers)
    (hle : p.value (s.queue.popped (.consumer i) : List Word) ≤ p.sum) :
    s.result i = BitVec.ofNat 64 (p.value (s.queue.popped (.consumer i) : List Word)) := by
  obtain ⟨sum, hpc⟩ := h.placed.exists_sum hend i
  have ht := h.tallied (.consumer i)
  rw [hpc] at ht
  have hresult : s.result i = if p.biased then (if sum ≠ 0 then sum - 1 else 0) else sum := by
    rw [World.result, hpc]
  rw [hresult, ht.2]
  cases hbiased : p.biased with
  | true =>
    have hfits := hp.fits hbiased
    have hbias : p.bias = 1 := if_pos hbiased
    have hne :
        BitVec.ofNat 64 (p.bias + p.value (s.queue.popped (.consumer i) : List Word)) ≠ 0 := by
      intro hzero
      have htoNat := congrArg BitVec.toNat hzero
      rw [BitVec.toNat_ofNat, Nat.mod_eq_of_lt (by omega)] at htoNat
      simp [hbias] at htoNat
    rw [if_pos rfl, if_pos hne, hbias, BitVec.ofNat_add, BitVec.add_comm]
    exact BitVec.add_sub_cancel _ _
  | false =>
    have hbias : p.bias = 0 := if_neg (by simp [hbiased])
    rw [if_neg Bool.false_ne_true, hbias, zero_add]

/-- **What a program has done when its consumers have stopped**: every
message has been received once, the sums add up to that of the messages,
which is the one expected where that is exact, no call is in the queue, which
is empty, and its counters agree. -/
structure Delivered (s : World D p) : Prop where
  received : (s.queue.hist.received.map Return.element : List Word) = p.messages
  total : s.total = BitVec.ofNat 64 p.sum
  expected : p.Exact → s.total = p.expected_sum
  quiescent : s.queue.Quiescent
  empty : ∀ i, D.layout.awaitsPush (s.queue.mem.cell i) = true
  counters : s.queue.mem.head_ = s.queue.mem.tail_

/-- **When all consumers have stopped everything was delivered.** -/
theorem Steady.delivered (h : Steady s) (hp : Stops D p) (hend : s.Stopped) : Delivered s := by
  have hquiet := h.quiescent hp hend
  have hpushes := h.pushes_eq hp hend
  have hset : Channels.Settled D.ring.slotOf s.queue.hist.chan :=
    Channels.settled_of_run h.chan
      (fun i => h.sound.noPutWaits fun t ht => hquiet t i (Or.inl ht))
      (fun i => h.sound.noTakeWaits fun t ht => hquiet t i (Or.inr ht))
  obtain ⟨hlen, hempty⟩ := hset.drained h.chan h.ends hp.messages_pos
    (by rw [← hpushes, Multiset.coe_card, List.length_map])
    (fun k c hk hc => h.stop_taken hp hend (by rw [History.element, hk, ← hc]; rfl))
  have hreceived := (h.sound.popped_eq hquiet.popStatus hlen).trans hpushes
  have hsum : ∑ i, p.value (s.queue.popped (.consumer i) : List Word) = p.sum := by
    rw [← map_sum, h.tallied.sum_popped h.placed, hreceived, hp.value_messages]
  have htotal : s.total = BitVec.ofNat 64 p.sum := by
    rw [World.total, ← hsum, ofNat_sum]
    refine Finset.sum_congr rfl fun i _ => h.result_eq hp hend i ?_
    rw [← hsum]
    exact Finset.single_le_sum (f := fun i => p.value (s.queue.popped (.consumer i) : List Word))
      (fun _ _ => Nat.zero_le _) (Finset.mem_univ i)
  refine ⟨hreceived, htotal, fun hexact => htotal.trans hexact.expected_sum_eq.symm, hquiet,
    fun i => ?_, ?_⟩
  · rw [(h.sound.await_of_quiescent hquiet i).2, hempty i]
    rfl
  · rw [h.sound.counted.head_eq, h.sound.counted.tail_eq, History.pushes, History.pops, hlen]

/-- **The programs receive what they send.** In every state reached in which
all consumers have stopped, however the threads ran, every message has been
received exactly once, the sums add up to that of the messages, and the queue
is empty with no call in it. With at most `2 ^ 27` messages a producer this is
the sum that the program expects. -/
theorem delivered_of_stopped (hp : Stops D p) (hr : (machine D p).Reachable s) (hend : s.Stopped) :
    Delivered s :=
  (steady_of_run hp hr).delivered hp hend

instance : Decidable s.Stopped :=
  inferInstanceAs (Decidable (∀ i, (s.pc (.consumer i)).ended = true))

/-! ## The programs of the repository -/

/-- The stress test, of a queue with or without `spsc_`. -/
theorem stops_stress (retries : Bool) : Stops D (stress D.spsc_ retries) where
  consumers_pos := by
    cases h : D.spsc_ <;> exact Nat.zero_lt_succ _
  plain _ := by
    have hlt : ¬ (-1 : Word).toNat ≤ (1000000 : Word).toNat := by decide
    exact ⟨rfl, fun hmem => hlt (mem_downFrom.mp hmem).2⟩
  biased h := by cases h
  spsc h := by
    rw [h]
    exact ⟨le_rfl, le_rfl⟩
  fits h := by cases h

/-- The example, on a queue for several producers and consumers, -/
theorem stops_exampleMain (h : D.spsc_ = false) : Stops D exampleMain where
  consumers_pos := by decide
  plain _ := ⟨rfl, fun hmem => (mem_downFrom.mp hmem).1 rfl⟩
  biased h := by cases h
  spsc hspsc := by
    rw [h] at hspsc
    cases hspsc
  fits h := by cases h

/-- and the benchmark, with a producer for each consumer. -/
theorem stops_throughput {n_threads : ℕ} {n_producer_msg : Word} {retries : Bool}
    (hpos : 0 < n_threads) (hmsg : n_producer_msg ≠ 0) (hspsc : D.spsc_ = true → n_threads ≤ 1)
    (hfits : (throughput n_threads n_producer_msg retries).sum < 2 ^ 63) :
    Stops D (throughput n_threads n_producer_msg retries) where
  consumers_pos := hpos
  plain h := by cases h
  biased _ := ⟨rfl, rfl, rfl, hmsg⟩
  spsc h := ⟨hspsc h, hspsc h⟩
  fits _ := hfits

/-- The sums that the stress test and the example expect are exact, -/
theorem exact_stress (is_spsc retries : Bool) : (stress is_spsc retries).Exact where
  n_msg_ne := (by decide : (1000000 : Word) ≠ 0)
  n_msg_le := (by decide : (1000000 : Word).toNat ≤ 2 ^ 27)
  plain _ := by
    cases is_spsc with
    | true => exact (by decide : 1 ≠ 0 ∧ 1 * (1000001 * 1000000 / 2) < 2 ^ 53)
    | false => exact (by decide : 3 ≠ 0 ∧ 3 * (1000001 * 1000000 / 2) < 2 ^ 53)

theorem exact_exampleMain : exampleMain.Exact := ⟨by decide, by decide, fun _ => by decide⟩

/-- and so are those of the benchmark, up to `2 ^ 27` messages a producer. -/
theorem exact_throughput {n_threads : ℕ} {n_producer_msg : Word} {retries : Bool}
    (hmsg : n_producer_msg ≠ 0) (hle : n_producer_msg.toNat ≤ 2 ^ 27) :
    (throughput n_threads n_producer_msg retries).Exact :=
  ⟨hmsg, hle, fun h => by cases h⟩

/-- Every stress test that ends finds the sum it expects. -/
theorem total_stress {retries : Bool} {s : World D (stress D.spsc_ retries)}
    (hr : (machine D (stress D.spsc_ retries)).Reachable s) (hend : s.Stopped) :
    s.total = (stress D.spsc_ retries).expected_sum :=
  ((steady_of_run (stops_stress retries) hr).delivered (stops_stress retries) hend).expected
    (exact_stress D.spsc_ retries)

/-! ## A run -/

/-- Two slots for words. -/
def twoWords : Derived Word where
  ring := (twoSlots false (.atomic 0)).ring
  spsc_ := false
  maximizeThroughput_ := true
  elements := .atomic 0#32

/-- A call of thread `t` and its first `n` steps. -/
def Act.run (t : p.Thread) (n : ℕ) : List (Act p) := .call t :: List.replicate n (.step t false)

/-- Two producers and two consumers, of which one receives all messages but
one; a producer is refused first. -/
theorem delivered_of_stopped_run :
    ∃ s : World twoWords (throughput 2 2 true),
      s.pc .main = .done ∧ s.total = 6 ∧ s.total = (throughput 2 2 true).expected_sum ∧
        Delivered s := by
  obtain ⟨s, hr, hs⟩ := (machine twoWords (throughput 2 2 true)).exists_run_of_execWhile
    (fun _ _ _ => True)
    ([.own (.producer (0 : Fin 2)), .own (.producer (1 : Fin 2)), .own (.consumer (0 : Fin 2)),
      .own (.consumer (1 : Fin 2)), .own (.producer (0 : Fin 2)), .own (.producer (1 : Fin 2)),
      .own (.consumer (0 : Fin 2)), .own (.consumer (1 : Fin 2))] ++
      Act.run (.producer (0 : Fin 2)) 4 ++ Act.run (.producer (0 : Fin 2)) 4 ++
      Act.run (.producer (1 : Fin 2)) 2 ++ Act.run (.consumer (0 : Fin 2)) 4 ++
      Act.run (.consumer (1 : Fin 2)) 4 ++ Act.run (.producer (1 : Fin 2)) 4 ++
      Act.run (.producer (1 : Fin 2)) 4 ++ Act.run (.consumer (0 : Fin 2)) 4 ++
      Act.run (.consumer (0 : Fin 2)) 4 ++ [.own .main, .own .main])
    (fun s => (s.pc .main, decide s.Stopped)) (b := (.done, true)) (by decide)
  simp only [Prod.mk.injEq, decide_eq_true_eq] at hs
  have hp : Stops twoWords (throughput 2 2 true) :=
    stops_throughput (by decide) (by decide) nofun (by decide)
  have h := delivered_of_stopped hp hr hs.2
  exact ⟨s, hs.1, h.total, h.expected (exact_throughput (by decide) (by decide)), h⟩

end Stress

end AtomicQueue
