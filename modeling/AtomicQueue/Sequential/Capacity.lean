import AtomicQueue.Sequential.Refinement
/-!
# How many elements a queue takes

A queue asked for `n` elements has `size_` slots, the least power of two
that is enough where the class rounds up. The round-up is `0` past
`2 ^ 31`, and a size from `2 ^ 31` on is negative as the signed word that
`try_push` compares with. Up to there the queue fills as its `capacity()`
says.
-/

namespace AtomicQueue

variable {T : Type} [DecidableEq T] {D : Derived T} {m m' : Mem D} {pc : Pc D} {x y : T}
variable {xs l : List T} {r : Reply T} {k : ℕ} {n : Word}

/-! ## Filling a queue -/

/-- Pushes, `was_size` after each, and one push more, -/
def fillCalls : List T → T → List (Call T)
  | [], x => [.tryPush x]
  | y :: ys, x => .tryPush y :: .wasSize :: fillCalls ys x

/-- and their replies where all but the last succeed, on a queue of `k`. -/
def fillReplies : ℕ → List T → T → List (Reply T)
  | _, [], x => [.tryPush false (some x)]
  | k, _ :: ys, x => .tryPush true none :: .size (k + 1) :: fillReplies (k + 1) ys x

/-- **The queue takes as many elements as it says.** From the queue as
constructed the first `capacity()` pushes succeed, `was_size` counts them,
and the next push fails. -/
def Derived.Fills (D : Derived T) : Prop :=
  ∀ (xs : List T) (x : T), xs.length = D.ring.slots →
    (∀ y ∈ x :: xs, D.layout.admits y = true) →
      D.object.Answers (fillCalls xs x) (fillReplies 0 xs x)

omit [DecidableEq T] in
/-- So does the list of a ring. -/
theorem ringFifo_fill {R : Ring} (hlen : l.length + xs.length = R.slots) :
    Object.replies (ringFifo R) (0, l) (fillCalls xs x) =
      some (fillReplies l.length xs x, 0, l ++ xs) := by
  have hsize : R.slots < 2 ^ 32 := R.size_.isLt
  induction xs generalizing l with
  | nil =>
    have hfull : ¬ l.length < R.slots := by rw [List.length_nil] at hlen; omega
    rw [fillCalls, Object.replies, ringFifo, if_neg fun h => hfull h.2.1, fifo, if_neg hfull,
      fillReplies, List.append_nil]
    rfl
  | cons y ys ih =>
    rw [List.length_cons] at hlen
    -- the counter has not wrapped yet
    have hroom : l.length < R.slots := by omega
    have hclear : R.Clear 0 l.length := Ring.clear_of_lt hroom (by omega)
    have hpush : ringFifo R (0, l) (.tryPush y) = some (.tryPush true none, 0, l ++ [y]) := by
      rw [ringFifo, if_neg fun h => h.2.2 hclear, fifo, if_pos hroom]
      rfl
    have hcount : ringFifo R (0, l ++ [y]) .wasSize = some (.size (l.length + 1), 0, l ++ [y]) := by
      rw [ringFifo, if_neg (by simp [Call.appends]), fifo, List.length_append,
        List.length_singleton]
      rfl
    rw [fillCalls, Object.replies, hpush, Option.bind_some, Object.replies, hcount, Option.bind_some,
      ih (by rw [List.length_append, List.length_singleton]; omega), fillReplies,
      List.length_append, List.length_singleton, List.append_assoc]
    rfl

/-- **A queue of a size below half the range fills.** -/
theorem fills_of_lt (hsize : D.ring.slots < 2 ^ 31) : D.Fills := by
  intro xs x hlen hadm
  have hok : ∀ c ∈ fillCalls xs x, D.Admits c := by
    clear hlen
    induction xs with
    | nil =>
      intro c hc
      rw [fillCalls, List.mem_singleton] at hc
      exact hc ▸ hadm x List.mem_cons_self
    | cons y ys ih =>
      intro c hc
      rw [fillCalls, List.mem_cons, List.mem_cons] at hc
      rcases hc with rfl | rfl | hc
      · exact hadm y (List.mem_cons_of_mem _ List.mem_cons_self)
      · trivial
      · refine ih (fun z hz => hadm z ?_) c hc
        rcases List.mem_cons.mp hz with rfl | hz
        · exact List.mem_cons_self
        · exact List.mem_cons_of_mem _ (List.mem_cons_of_mem _ hz)
  exact (object_refines hsize).answers (a := (0, [])) (Represents.fresh D) hok
    (ringFifo_fill (l := []) (by rw [List.length_nil, Nat.zero_add, hlen]))

/-! ## Sizes from half the range on -/

omit [DecidableEq T] in
theorem asSigned_size_neg {R : Ring} (hsize : 2 ^ 31 ≤ R.slots) : asSigned R.size_ < 0 := by
  have hlt := R.size_.isLt
  rw [asSigned, BitVec.toInt_eq_toNat_cond, if_neg (by rw [Ring.slots] at hsize; omega)]
  omega

/-- The test for full passes on the queue as constructed. -/
theorem full_fresh (hsize : 2 ^ 31 ≤ D.ring.slots) :
    asSigned ((0 : Word) - D.fresh.tail_) ≥ asSigned D.ring.size_ := by
  have hzero : asSigned ((0 : Word) - D.fresh.tail_) = 0 := by
    change asSigned (0 - 0) = 0
    decide
  rw [hzero]
  exact (asSigned_size_neg hsize).le

/-- So `try_push` comes no further than to it. -/
theorem points_of_tryPush_fresh (hsize : 2 ^ 31 ≤ D.ring.slots)
    (h : D.Within D.fresh (.tryPush x) m pc) :
    m = D.fresh ∧ (pc = .tryPushLoad x ∨ pc = .tryPushCheck x 0) := by
  induction h with
  | begin hop hentry =>
    cases hop
    obtain ⟨-, heq⟩ := Option.ite_none_right_eq_some.mp hentry
    cases heq
    exact ⟨rfl, Or.inl rfl⟩
  | step _ hadv hpc ih =>
    obtain ⟨rfl, rfl | rfl⟩ := ih
    · cases hadv
      exact ⟨rfl, Or.inr rfl⟩
    · rw [Derived.advance, if_pos (full_fresh hsize)] at hadv
      cases hadv
      exact absurd rfl hpc

/-- **Such a queue takes no element.** -/
theorem refuses_fresh (hsize : 2 ^ 31 ≤ D.ring.slots)
    (hcall : D.object.call D.fresh (.tryPush x) r m') : r = .tryPush false (some x) := by
  obtain ⟨m, pc, weak, e, hw, hadv, hreply⟩ := hcall
  obtain ⟨rfl, rfl | rfl⟩ := points_of_tryPush_fresh hsize hw
  · cases hadv
  · rw [Derived.advance, if_pos (full_fresh hsize)] at hadv
    cases hadv
    cases hreply
    rfl

theorem not_fills_of_ge (hsize : 2 ^ 31 ≤ D.ring.slots) (hx : D.layout.admits x = true) :
    ¬ D.Fills := by
  intro hfills
  obtain ⟨k, hk⟩ := Nat.exists_eq_succ_of_ne_zero (show D.ring.slots ≠ 0 by omega)
  obtain ⟨⟨m, hcalls⟩, -⟩ := hfills (List.replicate (k + 1) x) x (by rw [List.length_replicate, hk])
    (by simp [hx])
  rw [List.replicate_succ] at hcalls
  cases hcalls with
  | cons hcall _ => cases refuses_fresh hsize hcall

/-! ## The queue classes -/

/-- How a class makes its size of the one asked for. -/
inductive Sizing
  /-- `AtomicQueue` and `AtomicQueue2`, at compile time. -/
  | array (minimizeContention : Bool)
  /-- `AtomicQueueB` and `AtomicQueueB2`, at run time. -/
  | buffer
  deriving DecidableEq

/-- A queue class, its parameters other than the size, and its element
type as far as it counts. -/
structure QueueClass (T : Type) where
  sizing : Sizing
  elementsPerCacheLine : ℕ
  remapper : Remapper
  spsc_ : Bool
  maximizeThroughput_ : Bool
  elements : Elements T

namespace QueueClass

variable (Q : QueueClass T)

/-- `size_`, and so `capacity()`, of the queue asked to hold `n`. -/
def size_ (n : Word) : Word :=
  match Q.sizing with
  | .array minimizeContention => Ring.arraySize minimizeContention n
  | .buffer => Ring.bufferSize n (getCacheLineIndexBits Q.elementsPerCacheLine)

/-- The queue asked to hold `n`, where that is of some size. -/
def queue (n : Word) (hpos : 0 < (Q.size_ n).toNat) : Derived T where
  ring :=
    match Q, hpos with
    | ⟨.array minimizeContention, e, remapper, _, _, _⟩, hpos =>
      .ofArray minimizeContention n e remapper hpos
    | ⟨.buffer, e, remapper, _, _, _⟩, _ => .ofBuffer n e remapper
  spsc_ := Q.spsc_
  maximizeThroughput_ := Q.maximizeThroughput_
  elements := Q.elements

omit [DecidableEq T] in
theorem slots_queue (hpos : 0 < (Q.size_ n).toNat) :
    (Q.queue n hpos).ring.slots = (Q.size_ n).toNat := by
  obtain ⟨_ | _, _, _, _, _, _⟩ := Q <;> rfl

/-- **The queue asked to hold `n` does**: it has that capacity and fills to
it. -/
def HoldsAsked (n : Word) : Prop :=
  n.toNat ≤ (Q.size_ n).toNat ∧ ∀ hpos, (Q.queue n hpos).Fills

end QueueClass

variable {Q : QueueClass T}

omit [DecidableEq T] in
/-- The sizes asked for that give a capacity as large, and below half the
range. -/
theorem size_ok_iff (hn : 1 ≤ n.toNat) :
    n.toNat ≤ (Q.size_ n).toNat ∧ (Q.size_ n).toNat < 2 ^ 31 ↔
      n.toNat ≤ 2 ^ 30 ∨ Q.sizing = .array false ∧ n.toNat < 2 ^ 31 := by
  have hround : n.toNat ≤ (roundUpToPowerOf2 n).toNat ∧ (roundUpToPowerOf2 n).toNat < 2 ^ 31 ↔
      n.toNat ≤ 2 ^ 30 := by
    rcases Nat.lt_or_ge (2 ^ 31) n.toNat with hlt | hle
    · rw [rounds_roundUpToPowerOf2.eq_zero hlt]
      omega
    · have := rounds_roundUpToPowerOf2.le hn (by omega) hle
      rw [roundUpToPowerOf2_lt_iff hn hle]
      omega
  obtain ⟨minimizeContention | _, e, _, _, _, _⟩ := Q
  · cases minimizeContention with
    | false =>
      change n.toNat ≤ n.toNat ∧ n.toNat < 2 ^ 31 ↔ _
      simp only [true_and]
      omega
    | true =>
      change n.toNat ≤ (roundUpToPowerOf2 n).toNat ∧ (roundUpToPowerOf2 n).toNat < 2 ^ 31 ↔ _
      simpa using hround
  · change n.toNat ≤ (Ring.bufferSize n _).toNat ∧ (Ring.bufferSize n _).toNat < 2 ^ 31 ↔ _
    have hmin : 2 ^ (getCacheLineIndexBits e * 2) ≤ 2 ^ 16 :=
      Nat.pow_le_pow_right (by omega) (by have := Ring.getCacheLineIndexBits_le e; omega)
    rw [Ring.toNat_bufferSize n (Ring.getCacheLineIndexBits_le e)]
    simp only [reduceCtorEq, false_and, or_false]
    omega

/-- **The size a queue may be asked for**: up to `2 ^ 30`, and without the
round-up anything below `2 ^ 31`. For just these the capacity is as large
as asked for and the queue fills to it. -/
theorem holdsAsked_iff (hn : 1 ≤ n.toNat)
    (hx : ∀ hpos, (Q.queue n hpos).layout.admits x = true) :
    Q.HoldsAsked n ↔ n.toNat ≤ 2 ^ 30 ∨ Q.sizing = .array false ∧ n.toNat < 2 ^ 31 := by
  rw [← size_ok_iff hn]
  refine and_congr_right fun hle => ?_
  have hpos : 0 < (Q.size_ n).toNat := by omega
  constructor
  · intro hfills
    by_contra hge
    refine not_fills_of_ge ?_ (hx hpos) (hfills hpos)
    rw [Q.slots_queue]
    omega
  · intro hlt hpos
    refine fills_of_lt ?_
    rwa [Q.slots_queue]

/-- An `AtomicQueueB` of four-byte elements. -/
def bufferOfWords : QueueClass ℕ := ⟨.buffer, 16, .and, false, true, .atomic 0⟩

/-- Asked for `100` elements it holds `256`. -/
theorem holdsAsked_iff_run : (bufferOfWords.size_ 100).toNat = 256 ∧ bufferOfWords.HoldsAsked 100 :=
  ⟨by decide, (holdsAsked_iff (x := 1) (by decide) fun _ => rfl).mpr (Or.inl (by decide))⟩

/-- **A queue within the documented limit takes no element.** Asked for
`2 ^ 30 + 1` elements it has `2 ^ 31` slots, and refuses the first push. -/
theorem holdsAsked_fails : ¬ ∀ n : Word, 1 ≤ n.toNat → bufferOfWords.HoldsAsked n := by
  intro hall
  obtain ⟨-, hfills⟩ := hall (2 ^ 30 + 1) (by decide)
  have hsize : (bufferOfWords.size_ (2 ^ 30 + 1)).toNat = 2 ^ 31 := by decide
  refine not_fills_of_ge (x := 1) ?_ rfl (hfills (by rw [hsize]; decide))
  rw [QueueClass.slots_queue, hsize]

end AtomicQueue
