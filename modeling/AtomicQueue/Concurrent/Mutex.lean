import AtomicQueue.Concurrent.SpinlockOrders
import AtomicQueue.Model.MutexOrders
import AtomicQueue.Sequential.Classes
/-!
# `AtomicQueueMutexT` under a spinlock

What its calls do in the scope of their lock is what the calls of one thread
do. So with `TicketSpinlock` its members are free of races, and its calls
are those of one bounded list.
-/

namespace AtomicQueue

open Views Object

variable {T ι : Type} {R : Ring} {E : ElementType T}

namespace MutexQueue

/-- The queue with these members. -/
def ofMembers (p : ∀ m : Member R.slots, m.Value T) : MutexQueue R T where
  head_ := p .head_
  tail_ := p .tail_
  elements_ i := p (.element i)

variable {p p' : ∀ m : Member R.slots, m.Value T} {x : T} {r : Reply T}

/-- To change a member is to change the queue: `head_`, -/
theorem ofMembers_head (y : Word) :
    ofMembers (Function.update p .head_ y) = { ofMembers p with head_ := y } := by
  rw [ofMembers, mk.injEq]
  exact ⟨Function.update_self .., Function.update_of_ne (by simp) ..,
    funext fun i => Function.update_of_ne (by simp) ..⟩

/-- `tail_`, -/
theorem ofMembers_tail (y : Word) :
    ofMembers (Function.update p .tail_ y) = { ofMembers p with tail_ := y } := by
  rw [ofMembers, mk.injEq]
  exact ⟨Function.update_of_ne (by simp) .., Function.update_self ..,
    funext fun i => Function.update_of_ne (by simp) ..⟩

/-- or an element. -/
theorem ofMembers_element (i : Fin R.slots) (y : T) :
    ofMembers (Function.update p (.element i) y) =
      { ofMembers p with elements_ := Function.update (ofMembers p).elements_ i y } := by
  rw [ofMembers, mk.injEq]
  refine ⟨Function.update_of_ne (by simp) .., Function.update_of_ne (by simp) ..,
    funext fun j => ?_⟩
  rcases eq_or_ne j i with rfl | hne
  · rw [Function.update_self, Function.update_self]
  · rw [Function.update_of_ne (by simpa using hne), Function.update_of_ne hne]
    rfl

/-- A member read is left as it is. -/
theorem run_read {m : Member R.slots} {writes : Bool}
    {k : m.Value T → Body (Member.Value (n := R.slots) T) (Reply T)} :
    (Body.access m writes id k).run p = (k (p m)).run p := by
  rw [Body.run, id, Function.update_eq_self]

/-- **In the scope of its lock `try_push` does what one thread does.** -/
theorem tryPush_run : ((tryPushBody R E x).run p).2 =
      .tryPush ((ofMembers p).tryPush x).1 (if ((ofMembers p).tryPush x).1 then none else some x) ∧
    ofMembers ((tryPushBody R E x).run p).1 = ((ofMembers p).tryPush x).2 := by
  rw [tryPushBody, run_read, run_read, tryPush]
  by_cases h : p .head_ - p .tail_ < R.size_
  · have hif : (ofMembers p).head_ - (ofMembers p).tail_ < R.size_ := h
    rw [if_pos h, if_pos hif, run_read]
    simp only [Body.run, ofMembers_head, ofMembers_element, Function.update_idem]
    exact ⟨rfl, rfl⟩
  · have hif : ¬ (ofMembers p).head_ - (ofMembers p).tail_ < R.size_ := h
    rw [if_neg h, if_neg hif]
    exact ⟨rfl, rfl⟩

/-- **So does `try_pop`.** -/
theorem tryPop_run : ((tryPopBody R E x).run p).2 =
      .tryPop ((ofMembers p).tryPop E x).1 ((ofMembers p).tryPop E x).2.1 ∧
    ofMembers ((tryPopBody R E x).run p).1 = ((ofMembers p).tryPop E x).2.2 := by
  rw [tryPopBody, run_read, run_read, tryPop]
  by_cases h : p .head_ ≠ p .tail_
  · have hif : (ofMembers p).head_ ≠ (ofMembers p).tail_ := h
    rw [if_pos h, if_pos hif, run_read, run_read]
    simp only [Body.run, ofMembers_tail, ofMembers_element]
    exact ⟨rfl, rfl⟩
  · have hif : ¬ (ofMembers p).head_ ≠ (ofMembers p).tail_ := h
    rw [if_neg h, if_neg hif]
    exact ⟨rfl, rfl⟩

/-! ## The calls of all threads -/

def Try.call : Try T → Call T
  | .push x => .tryPush x
  | .pop x => .tryPop x

/-- A call of one thread is one of `AtomicQueueMutexT`. -/
theorem call_of_run {c : Try T} (h : (body R E c).run p = (p', r)) :
    (object R E).call (ofMembers p) c.call r (ofMembers p') := by
  cases c with
  | push x =>
    obtain ⟨hr, hq⟩ := tryPush_run (p := p) (E := E) (x := x)
    rw [show (tryPushBody R E x).run p = (p', r) from h] at hr hq
    exact ⟨hr, hq⟩
  | pop x =>
    obtain ⟨hr, hq⟩ := tryPop_run (p := p) (E := E) (x := x)
    rw [show (tryPopBody R E x).run p = (p', r) from h] at hr hq
    exact ⟨hr, hq⟩

/-- The queue as one thread calls it, -/
def tries (R : Ring) (E : ElementType T) : Object (MutexQueue R T) (Try T) (Reply T) where
  init := init E
  call q c := (object R E).call q c.call

/-- and a list of at most `n` elements, tried. -/
def boundedList (T : Type) (n : ℕ) : Object (List T) (Try T) (Reply T) where
  init := []
  call l c r l' := fifo n l c.call = some (r, l')

/-- **On a power of two the queue is a list.** -/
theorem boundedList_of_call (hpow : R.PowerOfTwo) {q q' : MutexQueue R T} {l : List T} {n : ℕ}
    {c : Try T} (h : Holds q n l) (hcall : (tries R E).call q c r q') :
    ∃ l', (boundedList T R.slots).call l c r l' ∧ ∃ n', Holds q' n' l' := by
  have hsome : (fifo R.slots l c.call).isSome = true := by
    cases c with
    | push x =>
      rw [Try.call, fifo]
      split <;> rfl
    | pop x => cases l <;> rfl
  obtain ⟨⟨r', l'⟩, hfifo⟩ := Option.isSome_iff_exists.mp hsome
  rw [← ringFifo_of_powerOfTwo hpow (n, l)] at hfifo
  obtain ⟨⟨r'', n', l''⟩, hring, heq⟩ := Option.map_eq_some_iff.mp hfifo
  cases heq
  obtain ⟨rfl, hholds, -⟩ := h.reply_eq hring hcall
  exact ⟨_, (ringFifo_eq_some hring).1, n', hholds⟩

variable [DecidableEq ι] {es : List (Visible ι (Try T) (Reply T))}
variable {w : TicketSpinlock.Guarded (Member.Value (n := R.slots) T) (Try T) (Reply T) ι}

open TicketSpinlock in
/-- **`AtomicQueueMutexT` with `TicketSpinlock`**, on a memory with orders:
in every run with fewer calls than there are tickets the calls take effect
one after the other as those of one thread, which where the size is a power
of two are those of a bounded list; and no access to a member races. -/
theorem linearizable_of_guarded
    (h : (guardedMachine (members R E) (body R E) ι).Seen (fun _ _ s' => s'.Unturned)
      Guarded.visible es w) :
    Linearizable (tries R E) es ∧ (R.PowerOfTwo → Linearizable (boundedList T R.slots) es) ∧
      ∀ t ticket b, w.pc t = .locked ticket b →
        ∀ m writes, ¬ w.mem.Races (w.view t) m writes := by
  have htries : Linearizable (tries R E) es := by
    refine (Guarded.linearizable h).simulate (tries R E) (fun p q => ofMembers p = q) rfl ?_
    rintro p q c r p' rfl hcall
    exact ⟨_, call_of_run hcall, rfl⟩
  refine ⟨htries, fun hpow => ?_, fun t ticket b hpc m writes =>
    Guarded.not_races_of_run h.run hpc m writes⟩
  refine htries.simulate (boundedList T R.slots) (fun q l => ∃ n, Holds q n l)
    ⟨0, holds_init R E⟩ ?_
  rintro q l c r q' ⟨n, hn⟩ hcall
  exact boundedList_of_call hpow hn hcall

open TicketSpinlock in
/-- Thread `1` has the second ticket and loads `next_` by a value out of
date, and again. It pops what thread `0` has pushed by then. -/
theorem linearizable_of_guarded_run :
    Linearizable (ι := Fin 2) (boundedList ℕ 2)
      [.call 0 (.push 5), .call 1 (.pop 9), .reply 0 (.tryPush true none),
        .reply 1 (.tryPop true 5)] := by
  have hpow : (twoSlots false (.states plain)).ring.PowerOfTwo := ⟨1, rfl⟩
  obtain ⟨w, hw⟩ := (guardedMachine (members (twoSlots false (.states plain)).ring plain)
      (body (twoSlots false (.states plain)).ring plain) (Fin 2)).exists_seen_of_watch
    (fun _ _ s' => s'.Unturned) Guarded.visible
    ([.call 0 (.push 5)] ++ [(0, 0)].map (Guarded.Act.access 0) ++ [.call 1 (.pop 9)] ++
      [(1, 0), (0, 0)].map (Guarded.Act.access 1) ++
      [(0, 0), (0, 0), (0, 0), (0, 0), (0, 0), (0, 0), (0, 0), (0, 3)].map (Guarded.Act.access 0) ++
      [(0, 0), (0, 0), (0, 0), (3, 0), (0, 0), (0, 0), (0, 0), (0, 0), (0, 0), (0, 0), (0, 5)].map
        (Guarded.Act.access 1))
    [.call 0 (.push 5), .call 1 (.pop 9), .reply 0 (.tryPush true none),
      .reply 1 (.tryPop true 5)] (by decide)
  exact (linearizable_of_guarded hw).2.1 hpow

end MutexQueue

end AtomicQueue
