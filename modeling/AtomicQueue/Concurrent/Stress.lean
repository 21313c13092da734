import AtomicQueue.Model.Stress
import AtomicQueue.Concurrent.Drain
import AtomicQueue.Concurrent.Progress
import AtomicQueue.Remap.RoundUp
import Mathlib.Algebra.BigOperators.Group.Multiset.Basic
import Mathlib.Algebra.Order.BigOperators.Group.Multiset
/-!
# The programs and the queue

A thread of a program is outside the queue or in the call its program makes.
What it has claimed is its script up to where it is, and its sum that of the
messages it has popped.
-/

namespace AtomicQueue

namespace Stress

variable {D : Derived Word} {p : Program} {s s' : World D p} {t u : p.Thread}

/-! ## What a step can do -/

/-- Where the threads are after a step of thread `t`. -/
def World.after (s : World D p) (t : p.Thread) : Option (Answer Word) → p.Thread → Pc
  | some r => Function.update s.pc t (p.resume (s.pc t) r)
  | none => s.pc

/-- **Everything a step can do.** -/
inductive Change (s : World D p) : World D p → Prop
  | call {t op queue} (hop : p.call (s.pc t) = some op)
      (hq : AtomicQueue.Change s.queue (.call t op) queue) : Change s { s with queue }
  | step {t weak queue} (hq : AtomicQueue.Change s.queue (.step t weak) queue) :
      Change s { s with queue, pc := s.after t (s.answer t weak) }
  | own {t counter pc} (h : s.own t = some (counter, pc)) :
      Change s { s with counter, pc := Function.update s.pc t pc }

/-- A step of a call, and what the program makes of what it returns. -/
theorem step_eq {weak : Bool} (h : (machine D p).step s (.step t weak) = some s') :
    ∃ queue, s.queue.step (.step t weak) = some queue ∧
      s' = { s with queue, pc := s.after t (s.answer t weak) } := by
  obtain ⟨queue, hq, rfl⟩ := Option.map_eq_some_iff.mp h
  refine ⟨queue, hq, ?_⟩
  cases s.answer t weak <;> rfl

/-- **Every step is one of these.** -/
theorem change_of_step {a : Act p} (h : (machine D p).step s a = some s') : Change s s' := by
  cases a with
  | call t =>
    obtain ⟨op, hop, hrest⟩ := Option.bind_eq_some_iff.mp h
    obtain ⟨queue, hq, rfl⟩ := Option.map_eq_some_iff.mp hrest
    exact .call hop (AtomicQueue.change_of_step hq)
  | step t weak =>
    obtain ⟨queue, hq, rfl⟩ := step_eq h
    exact .step (AtomicQueue.change_of_step hq)
  | own t =>
    obtain ⟨⟨counter, pc⟩, hown, rfl⟩ := Option.map_eq_some_iff.mp h
    exact .own hown

/-! ## Programs and calls -/

/-- The message a thread is pushing, -/
def Program.offers (p : Program) : Pc → Option Word
  | .push n => some n
  | .stop _ => some p.stop
  | _ => none

/-- and whether it is popping. -/
def Pc.popping : Pc → Bool
  | .pop _ => true
  | _ => false

/-- **A thread is outside the queue, or in the call its program makes.** -/
def Matched (p : Program) (pc : Pc) (q : AtomicQueue.Pc D) : Prop :=
  q = .idle ∨ q.Calling ∧ q.offers = p.offers pc ∧ q.popping = pc.popping

/-- The points of a thread's program. -/
def Role (p : Program) : p.Thread → Pc → Prop
  | .producer _, .countdown _ | .producer _, .done => True
  | .producer _, .push n => n ≠ 0
  | .consumer _, .countdown _ | .consumer _, .pop _ | .consumer _, .stopped _ => True
  | .main, .joinProducers | .main, .joinConsumers | .main, .done => True
  | .main, .stop left => left ≠ 0
  | _, _ => False

/-- **Where the threads are**: each at a point of its program, and the main
thread past the producers only if they have ended. -/
structure Placed (s : World D p) : Prop where
  matched : ∀ t, Matched p (s.pc t) (s.queue.pc t)
  role : ∀ t, Role p t (s.pc t)
  joined : s.pc .main ≠ .joinProducers → ∀ i, s.pc (.producer i) = .done

theorem Matched.of_idle {pc : Pc} {q : AtomicQueue.Pc D} (h : q = .idle) : Matched p pc q :=
  Or.inl h

/-- A thread whose program makes no call is outside the queue. -/
theorem Matched.idle {pc : Pc} {q : AtomicQueue.Pc D} (h : Matched p pc q)
    (hoffers : p.offers pc = none) (hpopping : pc.popping = false) : q = .idle := by
  rcases h with h | ⟨hcalls, ho, hp⟩
  · exact h
  · rw [AtomicQueue.Pc.Calling, ho, hp, hoffers, hpopping] at hcalls
    simp at hcalls

/-- A call under way is the one the program makes. -/
theorem Matched.calling {pc : Pc} {q : AtomicQueue.Pc D} (h : Matched p pc q) (hq : q ≠ .idle) :
    q.Calling ∧ q.offers = p.offers pc ∧ q.popping = pc.popping :=
  h.resolve_left hq

/-- A call begins. -/
theorem matched_entry {pc : Pc} {op : Op Word} {q : AtomicQueue.Pc D} (hop : p.call pc = some op)
    (hentry : D.entry op = some q) :
    (q.Calling ∧ q.offers = p.offers pc ∧ q.popping = pc.popping) ∧ q.pushing = false := by
  rcases pc with _ | _ | _ | _ | _ | _ | _ | _ <;> cases hop
  all_goals split at hentry <;> cases begins_of_entry hentry
  all_goals exact ⟨⟨by simp [AtomicQueue.Pc.Calling, AtomicQueue.Pc.offers, AtomicQueue.Pc.popping],
    rfl, rfl⟩, rfl⟩

/-- A thread that steps in the queue has a call there. -/
theorem step_ne_idle {w w' : AtomicQueue.World D p.Thread} {weak : Bool}
    (h : AtomicQueue.Change w (.step t weak) w') : w.pc t ≠ .idle := by
  intro hidle
  cases h with
  | quiet h => rw [hidle] at h; cases h
  | claimPush h => rw [hidle] at h; cases h
  | claimPop h => rw [hidle] at h; cases h
  | pushNext hpc _ | pushDone hpc _ | popNext hpc _ | popDone hpc _ => rw [hidle] at hpc; cases hpc

/-- **What a step of a call does, and what the program makes of it.** -/
theorem Placed.does (h : Placed s) {weak : Bool} {queue : AtomicQueue.World D p.Thread}
    (hq : AtomicQueue.Change s.queue (.step t weak) queue) :
    Does s.queue queue t (s.answer t weak) := by
  have hcalls := ((h.matched t).calling (step_ne_idle hq)).1
  obtain ⟨r, hdoes, hvis⟩ := hq.does hcalls
  have hanswer : s.answer t weak = r := by
    rw [World.answer, hvis]
    cases r <;> rfl
  rwa [hanswer]

/-! ## Steps keep the threads in place -/

theorem role_pushLoop {i : Fin p.producers} {n : Word} :
    Role p (.producer i) (Program.pushLoop n) := by
  rw [Program.pushLoop]
  split
  · assumption
  · trivial

theorem role_stopLoop {left : ℕ} : Role p .main (Program.stopLoop left) := by
  rw [Program.stopLoop]
  split
  · assumption
  · trivial

/-- The loop of a producer that has messages. -/
theorem start_producer (hn : p.biased = true → p.n_msg ≠ 0) (i : Fin p.producers) :
    p.start (.producer i) = Program.pushLoop p.n_msg := by
  change (if p.biased = true then Pc.push p.n_msg else Program.pushLoop p.n_msg) = _
  split
  · next hbiased => exact (if_pos (hn hbiased)).symm
  · rfl

/-- Every thread begins in its role, -/
theorem role_start (hn : p.biased = true → p.n_msg ≠ 0) (t : p.Thread) : Role p t (p.start t) := by
  cases t with
  | producer i =>
    rw [start_producer hn]
    exact role_pushLoop
  | consumer i | main => trivial

/-- and what it does with an answer is in it. -/
theorem Role.resume {pc : Pc} (h : Role p t pc) (r : Answer Word) : Role p t (p.resume pc r) := by
  cases t with
  | producer i =>
    cases pc with
    | push n => cases r <;> first | exact role_pushLoop | exact h
    | countdown | done => exact h
    | _ => cases h
  | consumer i =>
    cases pc with
    | pop sum =>
      cases r with
      | element n =>
        rw [Program.resume]
        split <;> trivial
      | _ => exact h
    | countdown | stopped => exact h
    | _ => cases h
  | main =>
    cases pc with
    | stop left => cases r <;> first | exact role_stopLoop | exact h
    | joinProducers | joinConsumers | done => exact h
    | _ => cases h

/-- **Everything a step outside the queue can do.** -/
inductive Own (s : World D p) (t : p.Thread) : Word → Pc → Prop
  | decrement (hpc : s.pc t = .countdown .decrement) :
      Own s t (s.counter - 1) (.countdown (.load (s.counter - 1)))
  | wait {i} (hpc : s.pc t = .countdown (.load i)) (hc : s.counter ≠ 0) :
      Own s t s.counter (.countdown (.load i))
  | pass {i} (hpc : s.pc t = .countdown (.load i)) (hc : s.counter = 0) :
      Own s t s.counter (p.start t)
  | joinProducers (hpc : s.pc t = .joinProducers) (hall : ∀ i, (s.pc (.producer i)).ended = true) :
      Own s t s.counter (Program.stopLoop p.stops)
  | joinConsumers (hpc : s.pc t = .joinConsumers) (hall : ∀ i, (s.pc (.consumer i)).ended = true) :
      Own s t s.counter .done

theorem own_of_eq {counter : Word} {pc : Pc} (h : s.own t = some (counter, pc)) :
    Own s t counter pc := by
  cases hpc : s.pc t <;> simp only [World.own, hpc] at h <;> try cases h
  case countdown b =>
    cases b with
    | decrement =>
      cases h
      exact .decrement hpc
    | load i =>
      by_cases hc : s.counter = 0
      · rw [Barrier2.advance, if_neg (not_not_intro hc)] at h
        cases h
        exact .pass hpc hc
      · rw [Barrier2.advance, if_pos hc] at h
        cases h
        exact .wait hpc hc
    | returned i => cases h
  case joinProducers =>
    obtain ⟨hall, heq⟩ := Option.ite_none_right_eq_some.mp h
    cases heq
    exact .joinProducers hpc hall
  case joinConsumers =>
    obtain ⟨hall, heq⟩ := Option.ite_none_right_eq_some.mp h
    cases heq
    exact .joinConsumers hpc hall

/-- It starts from the barrier or a join. -/
theorem own_cases {counter : Word} {pc : Pc} (h : s.own t = some (counter, pc)) :
    (∃ b, s.pc t = .countdown b ∧ ((∃ b', pc = .countdown b') ∨ pc = p.start t)) ∨
      (s.pc t = .joinProducers ∧ (∀ i, (s.pc (.producer i)).ended = true) ∧
        pc = Program.stopLoop p.stops) ∨
      (s.pc t = .joinConsumers ∧ (∀ i, (s.pc (.consumer i)).ended = true) ∧ pc = .done) := by
  cases own_of_eq h with
  | decrement hpc | wait hpc => exact Or.inl ⟨_, hpc, Or.inl ⟨_, rfl⟩⟩
  | pass hpc => exact Or.inl ⟨_, hpc, Or.inr rfl⟩
  | joinProducers hpc hall => exact Or.inr (Or.inl ⟨hpc, hall, rfl⟩)
  | joinConsumers hpc hall => exact Or.inr (Or.inr ⟨hpc, hall, rfl⟩)

/-- Such a step is one of a thread outside the queue. -/
theorem Placed.idle_of_own (h : Placed s) {counter : Word} {pc : Pc}
    (hown : s.own t = some (counter, pc)) : s.queue.pc t = .idle := by
  rcases own_cases hown with ⟨b, hpc, -⟩ | ⟨hpc, -⟩ | ⟨hpc, -⟩ <;>
    exact (h.matched t).idle (by rw [hpc]; rfl) (by rw [hpc]; rfl)

/-- A producer that has ended is done. -/
theorem Placed.done_of_ended (h : Placed s) {i : Fin p.producers}
    (hend : (s.pc (.producer i)).ended = true) : s.pc (.producer i) = .done := by
  have hrole := h.role (.producer i)
  cases hpc : s.pc (.producer i) <;> rw [hpc] at hrole hend <;>
    first | rfl | exact False.elim hrole | cases hend

/-- Thread `t` moves to `pc`. -/
theorem Placed.next (h : Placed s) {queue : AtomicQueue.World D p.Thread} {counter : Word} {pc : Pc}
    (hother : ∀ u, u ≠ t → queue.pc u = s.queue.pc u) (hmatched : Matched p pc (queue.pc t))
    (hrole : Role p t pc) (hdone : s.pc t = .done → pc = .done)
    (hjoin : t = .main → s.pc t = .joinProducers → pc ≠ .joinProducers →
      ∀ i, s.pc (.producer i) = .done) :
    Placed ⟨queue, counter, Function.update s.pc t pc⟩ where
  matched u := by
    dsimp only
    rcases eq_or_ne u t with rfl | hne
    · rwa [Function.update_self]
    · rw [Function.update_of_ne hne, hother u hne]
      exact h.matched u
  role u := by
    dsimp only
    rcases eq_or_ne u t with rfl | hne
    · rwa [Function.update_self]
    · rw [Function.update_of_ne hne]
      exact h.role u
  joined hmain i := by
    dsimp only at hmain ⊢
    rcases eq_or_ne t .main with rfl | hne
    · rw [Function.update_self] at hmain
      rw [Function.update_of_ne (by simp)]
      by_cases hpc : s.pc .main = .joinProducers
      · exact hjoin rfl hpc hmain i
      · exact h.joined hpc i
    · rw [Function.update_of_ne hne.symm] at hmain
      have hold := h.joined hmain i
      rcases eq_or_ne (.producer i) t with rfl | hne'
      · rw [Function.update_self, hdone hold]
      · rw [Function.update_of_ne hne', hold]

/-- The program stays where it is. -/
theorem Placed.keep (h : Placed s) {queue : AtomicQueue.World D p.Thread}
    (hother : ∀ u, u ≠ t → queue.pc u = s.queue.pc u) (hmatched : Matched p (s.pc t) (queue.pc t)) :
    Placed { s with queue } := by
  have hnext : Placed ⟨queue, s.counter, Function.update s.pc t (s.pc t)⟩ :=
    h.next hother hmatched (h.role t) id fun _ hjoin hne => absurd hjoin hne
  rwa [Function.update_eq_self] at hnext

/-- **Every step keeps the threads in their places.** -/
theorem Placed.change (h : Placed s) (hn : p.biased = true → p.n_msg ≠ 0) (hc : Change s s') :
    Placed s' := by
  cases hc with
  | @call t op queue hop hq =>
    refine h.keep (t := t) (fun u hu => hq.pc_of_ne hu) ?_
    cases hq with
    | call hidle hentry =>
      rw [AtomicQueue.World.next_pc_self]
      exact Or.inr (matched_entry hop hentry).1
  | @step t weak queue hq =>
    have hother : ∀ u, u ≠ t → queue.pc u = s.queue.pc u := fun u hu => hq.pc_of_ne hu
    obtain ⟨hcalls, hoffers, hpopping⟩ := (h.matched t).calling (step_ne_idle hq)
    have hdoes := h.does hq
    -- a program in a call has not ended, and joins nobody
    have hret : ∀ r, queue.pc t = .idle →
        Placed { s with queue, pc := Function.update s.pc t (p.resume (s.pc t) r) } := by
      intro r hidle
      refine h.next hother (.of_idle hidle) ((h.role t).resume r) (fun hpc => ?_) fun _ hpc => ?_
      · rw [hpc]
        cases r <;> rfl
      · rw [AtomicQueue.Pc.Calling, hoffers, hpopping, hpc] at hcalls
        simp [Program.offers, Pc.popping] at hcalls
    generalize s.answer t weak = r at hdoes
    cases hdoes with
    | goes hcalls' ho hp =>
      exact h.keep hother (Or.inr ⟨hcalls', ho.trans hoffers, hp.trans hpopping⟩)
    | claims ho ho' hp hp' =>
      refine h.keep hother (Or.inr ⟨Or.inl ?_, ?_, ?_⟩)
      · rw [ho']
        exact Option.some_ne_none _
      · rw [ho', ← ho, hoffers]
      · rw [hp', ← hp, hpopping]
    | refused hidle | pushed hidle | popped hidle => exact hret _ hidle
  | @own t counter pc hown =>
    refine h.next (fun _ _ => rfl) (.of_idle (h.idle_of_own hown)) ?_ (fun hpc => ?_)
      fun _ hpc _ i => ?_
    · have hrole := h.role t
      rcases own_cases hown with ⟨b, hpc, ⟨b', rfl⟩ | rfl⟩ | ⟨hpc, -, rfl⟩ | ⟨hpc, -, rfl⟩ <;>
        rw [hpc] at hrole
      · cases t <;> trivial
      · exact role_start hn t
      · cases t <;> first | exact role_stopLoop | exact False.elim hrole
      · cases t <;> trivial
    · rcases own_cases hown with ⟨b, hpc', -⟩ | ⟨hpc', -⟩ | ⟨hpc', -⟩ <;>
        rw [hpc] at hpc' <;> cases hpc'
    · rcases own_cases hown with ⟨b, hpc', -⟩ | ⟨-, hall, -⟩ | ⟨hpc', -⟩
      · rw [hpc] at hpc'
        cases hpc'
      · exact h.done_of_ended (hall i)
      · rw [hpc] at hpc'
        cases hpc'

/-- A thread starts at the barrier or past it. -/
theorem first_eq (t : p.Thread) :
    (p.first t = .countdown .decrement ∧ t ≠ .main ∧ p.barrier = true) ∨ p.first t = p.start t := by
  cases t with
  | main => exact Or.inr rfl
  | producer i | consumer i =>
    cases hbarrier : p.barrier with
    | true => exact Or.inl ⟨if_pos hbarrier, by simp, rfl⟩
    | false => exact Or.inr (if_neg (by simp [hbarrier]))

theorem placed_init (hn : p.biased = true → p.n_msg ≠ 0) : Placed (World.init D p) where
  matched _ := .of_idle rfl
  role t := by
    change Role p t (p.first t)
    rcases first_eq t with ⟨heq, -⟩ | heq
    · rw [heq]
      cases t <;> trivial
    · rw [heq]
      exact role_start hn t
  joined h := absurd rfl h

/-! ## The messages of a thread -/

/-- `n`, …, `2`, `1`. -/
def downFrom (n : Word) : List Word :=
  (List.range n.toNat).reverse.map fun k => BitVec.ofNat 32 (k + 1)

/-- The loop of a producer counts down. -/
theorem downFrom_of_ne {n : Word} (hn : n ≠ 0) : downFrom n = n :: downFrom (n - 1) := by
  have hpos : 1 ≤ n.toNat := Nat.one_le_iff_ne_zero.mpr fun h => hn (BitVec.eq_of_toNat_eq h)
  obtain ⟨k, hk⟩ := Nat.exists_eq_add_of_le' hpos
  have hlast : BitVec.ofNat 32 (k + 1) = n := by rw [← hk, BitVec.ofNat_toNat, BitVec.setWidth_eq]
  rw [downFrom, downFrom, toNat_sub_one hpos, hk, Nat.add_sub_cancel, List.range_succ,
    List.reverse_append, List.map_append]
  simp [hlast]

/-- What a thread pushes from a point of its program on. -/
def Program.todo (p : Program) (t : p.Thread) : Pc → List Word
  | .countdown _ => match t with
    | .producer _ => downFrom p.n_msg
    | _ => []
  | .push n => downFrom n
  | .joinProducers => List.replicate p.stops p.stop
  | .stop left => List.replicate left p.stop
  | _ => []

/-- What it pushes in all, -/
def Program.script (p : Program) : p.Thread → List Word
  | .producer _ => downFrom p.n_msg
  | .consumer _ => []
  | .main => List.replicate p.stops p.stop

/-- and what it has still to claim a position for. -/
def Program.left (p : Program) (t : p.Thread) (q : AtomicQueue.Pc D) (pc : Pc) : List Word :=
  if q.pushing then (p.todo t pc).tail else p.todo t pc

theorem todo_pushLoop {n : Word} : p.todo t (Program.pushLoop n) = downFrom n := by
  by_cases hn : n = 0
  · rw [hn]
    rfl
  · rw [Program.pushLoop, if_pos hn]
    rfl

theorem todo_stopLoop {left : ℕ} :
    p.todo t (Program.stopLoop left) = List.replicate left p.stop := by
  by_cases hleft : left = 0
  · rw [hleft]
    rfl
  · rw [Program.stopLoop, if_pos hleft]
    rfl

/-- At the start a thread has its whole script to do. -/
theorem todo_start (hn : p.biased = true → p.n_msg ≠ 0) : p.todo t (p.start t) = p.script t := by
  cases t with
  | producer i =>
    rw [start_producer hn]
    exact todo_pushLoop
  | consumer i | main => rfl

/-- **The message being pushed is the next one.** -/
theorem todo_of_offers {pc : Pc} {x : Word} (hrole : Role p t pc) (hx : p.offers pc = some x) :
    p.todo t pc = x :: p.todo t (p.resume pc .done) := by
  cases pc with
  | push n =>
    obtain rfl : n = x := Option.some.inj hx
    have hn : n ≠ 0 := by cases t <;> first | exact hrole | exact False.elim hrole
    rw [Program.resume, todo_pushLoop, ← downFrom_of_ne hn]
    rfl
  | stop left =>
    cases hx
    have hleft : left ≠ 0 := by cases t <;> first | exact hrole | exact False.elim hrole
    obtain ⟨k, rfl⟩ := Nat.exists_eq_succ_of_ne_zero hleft
    rw [Program.resume, todo_stopLoop]
    rfl
  | _ => cases hx

variable {q : AtomicQueue.Pc D} {pc : Pc}

/-- Of a thread that is not in a push all that it has to do is left, -/
theorem left_of_not_pushing (h : q.pushing = false) : p.left t q pc = p.todo t pc := by
  rw [Program.left, h]
  rfl

/-- and of one that is, all but the first message. -/
theorem left_of_pushing (h : q.pushing = true) : p.left t q pc = (p.todo t pc).tail := if_pos h

theorem offers_of_pushing (h : q.pushing = true) : ∃ x, q.offers = some x := by
  cases q <;> first | exact ⟨_, rfl⟩ | cases h

theorem resume_refused : p.resume pc .refused = pc := by cases pc <;> rfl

/-- Who pops has nothing to push, whatever comes back. -/
theorem todo_of_popping (h : pc.popping = true) :
    p.todo t pc = [] ∧ ∀ x, p.todo t (p.resume pc (.element x)) = [] := by
  cases pc with
  | pop sum =>
    refine ⟨rfl, fun x => ?_⟩
    rw [Program.resume]
    split <;> rfl
  | _ => cases h

/-- **What a thread has claimed is its script up to where it is.** -/
def Accounted (s : World D p) : Prop :=
  ∀ t, s.queue.claimed t ++ p.left t (s.queue.pc t) (s.pc t) = p.script t

/-- One thread moves. -/
theorem Accounted.frame (h : Accounted s) (hpc : ∀ u, u ≠ t → s'.pc u = s.pc u)
    (hq : ∀ u, u ≠ t → s'.queue.pc u = s.queue.pc u)
    (hclaimed : ∀ u, u ≠ t → s'.queue.claimed u = s.queue.claimed u)
    (hself : s'.queue.claimed t ++ p.left t (s'.queue.pc t) (s'.pc t) =
      s.queue.claimed t ++ p.left t (s.queue.pc t) (s.pc t)) : Accounted s' := by
  intro u
  rcases eq_or_ne u t with rfl | hne
  · rw [hself]
    exact h u
  · rw [hclaimed u hne, hq u hne, hpc u hne]
    exact h u

/-- What a step of a call leaves to do. -/
theorem left_of_does {queue : AtomicQueue.World D p.Thread} {r : Option (Answer Word)}
    (hm : Matched p (s.pc t) (s.queue.pc t)) (hrole : Role p t (s.pc t))
    (hcalls : s.queue.pc t ≠ .idle) (hdoes : Does s.queue queue t r) :
    queue.claimed t ++ p.left t (queue.pc t) (s.after t r t) =
      s.queue.claimed t ++ p.left t (s.queue.pc t) (s.pc t) := by
  obtain ⟨-, hoffers, hpopping⟩ := hm.calling hcalls
  have hret : ∀ r, s.after t (some r) t = p.resume (s.pc t) r := fun r => Function.update_self ..
  cases hdoes with
  | goes hcalls' ho hpop hpush hclaimed =>
    rw [congrFun hclaimed t, Program.left, hpush]
    rfl
  | @claims x ho ho' hpop hpop' hpush hpush' hclaimed =>
    have htodo := todo_of_offers hrole (hoffers.symm.trans ho)
    rw [left_of_not_pushing hpush, left_of_pushing hpush', congrFun hclaimed t,
      Function.update_self, List.append_assoc]
    change _ ++ ([x] ++ (p.todo t (s.pc t)).tail) = _
    rw [htodo]
    rfl
  | refused hidle hpush hclaimed =>
    rw [hret, resume_refused, congrFun hclaimed t, left_of_not_pushing hpush, hidle]
    rfl
  | pushed hidle hpush hclaimed =>
    obtain ⟨x, hx⟩ := offers_of_pushing hpush
    have htodo := todo_of_offers hrole (hoffers.symm.trans hx)
    rw [hret, congrFun hclaimed t, left_of_pushing hpush, htodo, hidle]
    rfl
  | popped hidle hpop hclaimed =>
    -- a consumer pushes nothing
    have hpc := hpopping.symm.trans hpop
    rw [hret, congrFun hclaimed t, hidle, Program.left, Program.left, (todo_of_popping hpc).1,
      (todo_of_popping hpc).2]
    simp

theorem left_idle : p.left t (.idle : AtomicQueue.Pc D) pc = p.todo t pc := rfl

/-- Outside the queue nothing is claimed. -/
theorem todo_of_own (hn : p.biased = true → p.n_msg ≠ 0) (hrole : Role p t (s.pc t))
    {counter : Word} (hown : s.own t = some (counter, pc)) : p.todo t pc = p.todo t (s.pc t) := by
  rcases own_cases hown with ⟨b, hpc, ⟨b', rfl⟩ | rfl⟩ | ⟨hpc, -, rfl⟩ | ⟨hpc, -, rfl⟩ <;>
    rw [hpc] at hrole ⊢
  · rfl
  · rw [todo_start hn]
    cases t <;> first | rfl | exact False.elim hrole
  · exact todo_stopLoop
  · rfl

/-- **Every step keeps the messages accounted for.** -/
theorem Accounted.change (h : Accounted s) (hn : p.biased = true → p.n_msg ≠ 0) (hp : Placed s)
    (hc : Change s s') : Accounted s' := by
  cases hc with
  | @call t op queue hop hq =>
    refine h.frame (t := t) (fun u hu => rfl) (fun u hu => hq.pc_of_ne hu)
      (fun u hu => congrFun hq.call_claimed.1 u) ?_
    dsimp only
    rw [congrFun hq.call_claimed.1 t]
    cases hq with
    | call hidle hentry =>
      rw [AtomicQueue.World.next_pc_self, hidle, left_of_not_pushing (matched_entry hop hentry).2]
      rfl
  | @step t weak queue hq =>
    have hdoes := hp.does hq
    generalize s.answer t weak = r at hdoes
    refine h.frame (t := t) (fun u hu => ?_) (fun u hu => hq.pc_of_ne hu) (fun u hu => ?_)
      (left_of_does (hp.matched t) (hp.role t) (step_ne_idle hq) hdoes)
    · cases r with
      | none => rfl
      | some r => exact Function.update_of_ne hu ..
    · cases hdoes with
      | claims ho ho' hpop hpop' hpush hpush' hclaimed =>
        exact (congrFun hclaimed u).trans (Function.update_of_ne hu ..)
      | goes _ _ _ _ hclaimed | refused _ _ hclaimed | pushed _ _ hclaimed | popped _ _ hclaimed =>
        exact congrFun hclaimed u
  | @own t counter pc hown =>
    refine h.frame (t := t) (fun u hu => Function.update_of_ne hu ..) (fun _ _ => rfl)
      (fun _ _ => rfl) ?_
    dsimp only
    rw [Function.update_self]
    rw [hp.idle_of_own hown, left_idle, left_idle, todo_of_own hn (hp.role t) hown]

theorem accounted_init (hn : p.biased = true → p.n_msg ≠ 0) : Accounted (World.init D p) := by
  intro t
  change p.left t (.idle : AtomicQueue.Pc D) (p.first t) = p.script t
  rw [left_idle]
  rcases first_eq t with ⟨heq, hne, -⟩ | heq
  · rw [heq]
    cases t <;> first | rfl | exact absurd rfl hne
  · rw [heq, todo_start hn]

/-! ## The sums -/

/-- What a sum starts from. -/
def Program.bias (p : Program) : ℕ := if p.biased then 1 else 0

/-- What a message adds to a sum. -/
def Program.weight (p : Program) (n : Word) : ℕ :=
  if n = p.stop ∧ p.biased = false then 0 else n.toNat

/-- What messages add up to. -/
def Program.value (p : Program) : Multiset Word →+ ℕ :=
  Multiset.sumAddMonoidHom.comp (Multiset.mapAddMonoidHom p.weight)

/-- One more element adds its weight. -/
theorem value_append {l : List Word} {x : Word} :
    p.value (l ++ [x] : List Word) = p.value (l : List Word) + p.weight x := by
  rw [← Multiset.coe_add, map_add, Multiset.coe_singleton]
  simp [Program.value]

/-- **A sum is that of the messages popped**, one of which, the last, stops
the thread. -/
def Tally (p : Program) : Pc → List Word → Prop
  | .pop sum, l => p.stop ∉ l ∧ sum = BitVec.ofNat 64 (p.bias + p.value l)
  | .stopped sum, l => l.count p.stop = 1 ∧ sum = BitVec.ofNat 64 (p.bias + p.value l)
  | _, l => l = []

def Tallied (s : World D p) : Prop := ∀ t, Tally p (s.pc t) (s.queue.popped t)

/-- A message adds to the sum. -/
theorem add_setWidth {l : List Word} {x : Word} (hx : p.weight x = x.toNat) :
    BitVec.ofNat 64 (p.bias + p.value l) + x.setWidth 64 =
      BitVec.ofNat 64 (p.bias + p.value (l ++ [x] : List Word)) := by
  rw [value_append, hx, ← Nat.add_assoc, BitVec.ofNat_add (p.bias + p.value l), BitVec.ofNat_toNat]

/-- **An element popped is added to the sum.** -/
theorem Tally.resume_element {l : List Word} {sum : Word64} (h : Tally p (.pop sum) l) (x : Word) :
    Tally p (p.resume (.pop sum) (.element x)) (l ++ [x]) := by
  obtain ⟨hnot, rfl⟩ := h
  by_cases hx : x = p.stop
  · subst hx
    rw [Program.resume, if_neg (not_not_intro rfl)]
    refine ⟨by rw [List.count_append, List.count_eq_zero_of_not_mem hnot]; simp, ?_⟩
    cases hbiased : p.biased with
    | true =>
      rw [if_pos rfl]
      exact add_setWidth (if_neg (by simp [hbiased]))
    | false =>
      rw [if_neg (by simp), value_append, Program.weight, if_pos ⟨rfl, hbiased⟩]
      rfl
  · rw [Program.resume, if_pos hx]
    refine ⟨?_, add_setWidth (if_neg fun h => hx h.1)⟩
    rw [List.mem_append, List.mem_singleton, not_or]
    exact ⟨hnot, Ne.symm hx⟩

/-- Nothing is counted at the start. -/
theorem Tally.start (t : p.Thread) : Tally p (p.start t) [] := by
  cases t with
  | producer i =>
    change Tally p (if p.biased = true then Pc.push p.n_msg else Program.pushLoop p.n_msg) []
    rw [Program.pushLoop]
    split
    · rfl
    · split <;> rfl
  | consumer i =>
    refine ⟨List.not_mem_nil, ?_⟩
    rw [Program.bias, Multiset.coe_nil, map_zero]
    cases p.biased <;> rfl
  | main => rfl

/-- A thread that pushes has popped nothing. -/
theorem Tally.resume_done {l : List Word} {x : Word} (h : Tally p pc l)
    (hx : p.offers pc = some x) :
    Tally p (p.resume pc .done) l := by
  cases pc with
  | push n =>
    change Tally p (Program.pushLoop (n - 1)) l
    rw [Program.pushLoop]
    split <;> exact h
  | stop left =>
    change Tally p (Program.stopLoop (left - 1)) l
    rw [Program.stopLoop]
    split <;> exact h
  | _ => cases hx

/-- The threads that do not move keep their sums. -/
theorem Tallied.frame (h : Tallied s) (hpc : ∀ u, u ≠ t → s'.pc u = s.pc u)
    (hpopped : ∀ u, u ≠ t → s'.queue.popped u = s.queue.popped u)
    (hself : Tally p (s'.pc t) (s'.queue.popped t)) : Tallied s' := by
  intro u
  rcases eq_or_ne u t with rfl | hne
  · exact hself
  · rw [hpc u hne, hpopped u hne]
    exact h u

/-- **Every step keeps the sums.** -/
theorem Tallied.change (h : Tallied s) (hp : Placed s) (hc : Change s s') : Tallied s' := by
  cases hc with
  | @call t op queue hop hq =>
    refine h.frame (t := t) (fun _ _ => rfl) (fun u _ => congrFun hq.call_claimed.2 u) ?_
    dsimp only
    rw [hq.call_claimed.2]
    exact h t
  | @step t weak queue hq =>
    obtain ⟨hcalls, hoffers, hpopping⟩ := (hp.matched t).calling (step_ne_idle hq)
    have hdoes := hp.does hq
    generalize s.answer t weak = r at hdoes
    have hret : ∀ r, s.after t (some r) t = p.resume (s.pc t) r := fun r => Function.update_self ..
    refine h.frame (t := t) (fun u hu => ?_) (fun u hu => ?_) ?_
    · cases r with
      | none => rfl
      | some r => exact Function.update_of_ne hu ..
    · cases hdoes with
      | popped hidle hpop hclaimed hpopped =>
        exact (congrFun hpopped u).trans (Function.update_of_ne hu ..)
      | goes _ _ _ _ _ hpopped | claims _ _ _ _ _ _ _ hpopped | refused _ _ _ hpopped
      | pushed _ _ _ hpopped => exact congrFun hpopped u
    · dsimp only
      cases hdoes with
      | goes _ _ _ _ _ hpopped | claims _ _ _ _ _ _ _ hpopped =>
        rw [hpopped]
        exact h t
      | refused _ _ _ hpopped =>
        rw [hret, resume_refused, hpopped]
        exact h t
      | pushed hidle hpush hclaimed hpopped =>
        obtain ⟨x, hx⟩ := offers_of_pushing hpush
        rw [hret, hpopped]
        exact (h t).resume_done (hoffers.symm.trans hx)
      | @popped x hidle hpop hclaimed hpopped =>
        have hpc := hpopping.symm.trans hpop
        have ht := h t
        rw [hret, hpopped, Function.update_self]
        cases hpc' : s.pc t <;> rw [hpc'] at hpc ht <;> try cases hpc
        exact ht.resume_element x
  | @own t counter pc hown =>
    refine h.frame (t := t) (fun u hu => Function.update_of_ne hu ..) (fun _ _ => rfl) ?_
    dsimp only
    rw [Function.update_self]
    have hnil : s.queue.popped t = [] := by
      have ht := h t
      rcases own_cases hown with ⟨b, hpc, -⟩ | ⟨hpc, -⟩ | ⟨hpc, -⟩ <;>
        rwa [hpc] at ht
    rw [hnil]
    rcases own_cases hown with ⟨b, -, ⟨b', rfl⟩ | rfl⟩ | ⟨-, -, rfl⟩ | ⟨-, -, rfl⟩
    · rfl
    · exact .start t
    · rw [Program.stopLoop]
      split <;> rfl
    · rfl

theorem tallied_init : Tallied (World.init D p) := by
  intro t
  change Tally p (p.first t) []
  rcases first_eq t with ⟨heq, -⟩ | heq
  · rw [heq]
    rfl
  · rw [heq]
    exact .start t

end Stress

end AtomicQueue
