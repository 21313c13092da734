import AtomicQueue.Model.MovedFrom
import AtomicQueue.Sequential.Values
/-!
# What a move leaves behind

A move takes the buffers and the size, and leaves the counters. The calls
decide by the counters: where these are equal the object left behind is an
empty queue with no room. Where they are not, `was_size` counts elements
that are gone, and a `try_pop` goes for one.
-/

namespace AtomicQueue

namespace MovedFrom

variable {A S E T : Type} {spsc_ weak : Bool} {q q' q₀ b : BufferQueue A S E}
variable {c : Call T} {r : Reply T} {pc : Pc T} {e : Next T}

/-! ## The counters are equal -/

/-- The points of a call on an object whose counters are equal: it has not
passed a test. -/
def Early (q : BufferQueue A S E) : Pc T → Prop
  | .tryPushLoad _ | .tryPopLoad | .wasSizeLoad _ => True
  | .tryPushCheck _ head | .wasSizeHead head => head = q.head_
  | .tryPopCheck tail | .wasSizeTail tail => tail = q.tail_
  | _ => False

/-- The object is one that was moved from when it was empty. -/
structure Equal (q : BufferQueue A S E) : Prop where
  size_ : q.size_ = 0
  head_ : q.head_ = q.tail_

/-- With equal counters and no slot the queue is full to a push, -/
theorem Equal.full (h : Equal q) : asSigned (q.head_ - q.tail_) ≥ asSigned q.size_ := by
  rw [h.head_, h.size_, BitVec.sub_self]
  exact le_rfl

/-- empty to a pop, -/
theorem Equal.empty (h : Equal q) : asSigned (q.head_ - q.tail_) ≤ 0 := by
  rw [h.head_, BitVec.sub_self]
  decide

/-- and of size `0`. -/
theorem Equal.wasSizeOf (h : Equal q) : Derived.wasSizeOf q.head_ q.tail_ = 0 := by
  rw [Derived.wasSizeOf, h.head_, BitVec.sub_self]
  decide

/-- No test is passed. -/
theorem Equal.advance (h : Equal q) (hpc : Early q pc)
    (hadv : MovedFrom.advance spsc_ weak q pc = some (q', e)) :
    q' = q ∧ ((∃ pc', e = .goto pc' ∧ Early q pc') ∨ e = .refuse ∨ e = .sized 0) := by
  cases pc with
  | tryPushLoad x =>
    cases hadv
    exact ⟨rfl, .inl ⟨_, rfl, rfl⟩⟩
  | tryPushCheck x head =>
    obtain rfl : head = q.head_ := hpc
    rw [MovedFrom.advance, if_pos h.full] at hadv
    cases hadv
    exact ⟨rfl, .inr (.inl rfl)⟩
  | tryPopLoad =>
    cases hadv
    exact ⟨rfl, .inl ⟨_, rfl, rfl⟩⟩
  | tryPopCheck tail =>
    obtain rfl : tail = q.tail_ := hpc
    rw [MovedFrom.advance, if_pos h.empty] at hadv
    cases hadv
    exact ⟨rfl, .inr (.inl rfl)⟩
  | wasSizeLoad headFirst =>
    cases hadv
    refine ⟨rfl, .inl ⟨_, rfl, ?_⟩⟩
    cases headFirst <;> rfl
  | wasSizeHead head =>
    obtain rfl : head = q.head_ := hpc
    cases hadv
    exact ⟨rfl, .inr (.inr (congrArg Next.sized h.wasSizeOf))⟩
  | wasSizeTail tail =>
    obtain rfl : tail = q.tail_ := hpc
    cases hadv
    exact ⟨rfl, .inr (.inr (congrArg Next.sized h.wasSizeOf))⟩
  | tryPushClaim | tryPopClaim | doPush | doPop => exact hpc.elim

theorem Early.of_begins (hc : Asks c) (h : Begins c pc) : Early q pc := by
  cases c with
  | tryPush x | tryPop x => exact h ▸ trivial
  | wasSize | wasEmpty =>
    obtain ⟨headFirst, rfl⟩ := h
    trivial
  | push | pop | wasFull => exact hc.elim

/-- **Every point of a call.** -/
theorem Equal.within (h : Equal q) (hc : Asks c) (hw : Within spsc_ q c q' pc) :
    q' = q ∧ Early q pc := by
  induction hw with
  | begin hb => exact ⟨rfl, .of_begins hc hb⟩
  | step weak _ hadv ih =>
    obtain ⟨rfl, hpc⟩ := ih
    obtain ⟨rfl, ⟨pc', hgoto, hpc'⟩ | hend | hend⟩ := h.advance hpc hadv
    · cases hgoto
      exact ⟨rfl, hpc'⟩
    · cases hend
    · cases hend

/-- Before its first access a call is not at the buffer. -/
theorem Early.not_atBuffer (h : Early q pc) : ¬ pc.AtBuffer := by
  cases pc <;> first | exact id | exact h.elim

theorem reply_eq (hc : Asks c) (he : e = .refuse ∨ e = .sized 0) (hr : reply c e = some r) :
    r = emptyReply c := by
  cases c with
  | push | pop | wasFull => exact hc.elim
  | _ =>
    rcases he with rfl | rfl
    all_goals cases hr
    all_goals rfl

/-! The calls at their tests, the object as it was. -/

theorem within_tryPushCheck {x : T} : Within spsc_ q (.tryPush x) q (.tryPushCheck x q.head_) :=
  .step false (.begin rfl) rfl

theorem within_tryPopCheck {x : T} : Within spsc_ q (.tryPop x) q (.tryPopCheck q.tail_) :=
  .step false (.begin rfl) rfl

theorem within_wasSizeHead (hc : c = .wasSize ∨ c = .wasEmpty) :
    Within spsc_ q c q (.wasSizeHead q.head_) := by
  rcases hc with rfl | rfl
  · exact .step false (.begin ⟨true, rfl⟩) rfl
  · exact .step false (.begin ⟨true, rfl⟩) rfl

/-- **The object answers as an empty queue with no room.** -/
theorem Equal.refines (h : Equal q) :
    (object spsc_ q).Refines (fun _ c => some (emptyReply c, ())) (Asks (T := T))
      fun q' _ => q' = q where
  sound := by
    rintro _ _ c r _ r' q' rfl hc hspec ⟨q₁, pc, weak, e, hw, hadv, hr⟩
    cases hspec
    obtain ⟨rfl, hpc⟩ := h.within hc hw
    obtain ⟨rfl, ⟨pc', rfl, -⟩ | he⟩ := h.advance hpc hadv
    · cases c <;> cases hr
    · exact ⟨reply_eq hc he hr, rfl⟩
  total := by
    rintro q _ c r _ rfl hc -
    cases c with
    | tryPush x =>
      exact ⟨_, q, q, _, false, .refuse, within_tryPushCheck, if_pos h.full, rfl⟩
    | tryPop x =>
      exact ⟨_, q, q, _, false, .refuse, within_tryPopCheck, if_pos h.empty, rfl⟩
    | wasSize =>
      exact ⟨_, q, q, _, false, _, within_wasSizeHead (.inl rfl), rfl, rfl⟩
    | wasEmpty =>
      exact ⟨_, q, q, _, false, _, within_wasSizeHead (.inr rfl), rfl, rfl⟩
    | push | pop | wasFull => exact hc.elim

/-- What an empty queue with no room is specified to reply. -/
theorem replies_empty (cs : List (Call T)) :
    Object.replies (fun _ c => some (emptyReply c, ())) () cs = some (cs.map emptyReply, ()) := by
  induction cs with
  | nil => rfl
  | cons c cs ih => rw [Object.replies, Option.bind_some, ih, Option.map_some, List.map_cons]

/-- **So an object that was empty when it was moved from is hollow**, and none
of its calls comes to the buffer. -/
theorem Equal.hollow (h : Equal q) : Hollow T spsc_ q where
  replies cs hcs := h.refines.answers (a := ()) rfl hcs (replies_empty cs)
  untouched cs rs c pc q₀ q' hcs hc hcalls hw := by
    obtain ⟨-, rfl⟩ := h.refines.replies_eq (a := ()) rfl hcs (replies_empty cs) hcalls
    exact (h.within hc hw).2.not_atBuffer

/-! ## The counters differ -/

/-- The counters count elements: `was_size` does. -/
theorem not_hollow_of_pos (hpos : 0 < asSigned (q.head_ - q.tail_)) : ¬ Hollow T spsc_ q := by
  intro h
  have hcalls : (object (T := T) spsc_ q).Calls q [.wasSize]
      [.size (Derived.wasSizeOf q.head_ q.tail_)] q :=
    .cons ⟨q, _, false, _, within_wasSizeHead (.inl rfl), rfl, rfl⟩ (.nil q)
  have hreply := (h.replies [.wasSize] (by simp [Asks])).2 _ q hcalls
  have hzero : Derived.wasSizeOf q.head_ q.tail_ = 0 := by
    simpa [emptyReply] using hreply
  rw [Derived.wasSizeOf] at hzero
  omega

/-- They are past each other: a `try_push` finds room. -/
theorem not_hollow_of_neg (x : T) (hsize : q.size_ = 0)
    (hneg : asSigned (q.head_ - q.tail_) < 0) : ¬ Hollow T spsc_ q := by
  intro h
  have hnot : ¬ asSigned (q.head_ - q.tail_) ≥ asSigned q.size_ := by
    rw [hsize]
    exact not_le.mpr hneg
  have hcheck : Within spsc_ q (.tryPush x) q (.tryPushClaim x q.head_) :=
    .step false within_tryPushCheck (if_neg hnot)
  have hclaim :
      Within spsc_ q (.tryPush x) { q with head_ := q.head_ + 1 } (.doPush x q.head_) := by
    refine .step false hcheck ?_
    cases spsc_
    · exact if_pos ⟨rfl, rfl⟩
    · rfl
  exact h.untouched [] [] (.tryPush x) _ q _ (by simp) trivial (.nil q) hclaim trivial

theorem Hollow.counters_eq (x : T) (h : Hollow T spsc_ b.moveConstruct.2) :
    b.head_ = b.tail_ := by
  rcases lt_trichotomy (asSigned (b.head_ - b.tail_)) 0 with hneg | hzero | hpos
  · exact absurd h (not_hollow_of_neg x rfl hneg)
  · -- the move leaves both counters, so the source had them equal
    have hsub : b.head_ - b.tail_ = 0 := BitVec.eq_of_toInt_eq hzero
    exact (BitVec.sub_eq_iff_eq_add.mp hsub).trans (BitVec.zero_add _)
  · exact absurd h (not_hollow_of_pos hpos)

/-- **A queue moved from is a valid empty queue exactly if its counters
were equal**, whatever its class and its state. -/
theorem hollow_moveConstruct_iff (c : BufferClass T) (b : BufferQueue A S E) :
    Hollow T c.spsc_ b.moveConstruct.2 ↔ b.head_ = b.tail_ :=
  ⟨fun h => h.counters_eq c.initialElement, fun h => Equal.hollow ⟨rfl, h⟩⟩

/-! ## A queue with an element -/

open Buffers in
/-- One push onto a queue as constructed sets its counters apart. -/
theorem head_ne_tail [DecidableEq T] {c : BufferClass T} {n : Word} {a : A} {x : T} {r : Reply T}
    {v : BufferValue A T} (hsize : (c.size_ n).toNat < 2 ^ 31)
    (hx : (c.derived (c.size_ n) (fits_size_ c n)).layout.admits x = true)
    (hserves : c.Serves (c.constructed n a) (.tryPush x) r v) : v.head_ ≠ v.tail_ := by
  obtain ⟨hfits, elements, m, helements, hcall, rfl⟩ := hserves
  obtain rfl := Option.some.inj helements
  have hmem : c.mem (c.constructed n a) hfits (fun _ => c.initialElement) =
      (c.derived (c.size_ n) hfits).fresh := BufferClass.mem_constructed hfits
  rw [hmem] at hcall
  have hadm : (c.derived (c.size_ n) hfits).Admits (.tryPush x) := hx
  obtain ⟨-, hrep⟩ := (object_refines hsize).sound (a := (0, [])) (Represents.fresh _) hadm
    (ringFifo_nil_tryPush 0 x) hcall
  have hone := hrep.spans.toNat_sub
  intro heq
  change m.head_ = m.tail_ at heq
  rw [heq, BitVec.sub_self] at hone
  cases hone

/-- An element is pushed into an `AtomicQueueB` of four-byte elements, and the
queue is moved from. -/
theorem hollow_moveConstruct_fails :
    ∃ v : BufferValue Unit ℕ,
      Buffers.wordBuffers.Serves (Buffers.wordBuffers.constructed 2 ()) (.tryPush 5)
        (.tryPush true none) v ∧
      ¬ Hollow ℕ Buffers.wordBuffers.spsc_ v.moveConstruct.2 := by
  obtain ⟨v, hserves⟩ := BufferClass.exists_serves_constructed (c := Buffers.wordBuffers) (n := 2)
    (a := ()) (x := 5) (by decide) rfl
  exact ⟨v, hserves, fun h => head_ne_tail (by decide) rfl hserves (h.counters_eq 0)⟩

/-! ## The same code as with the arrays -/

section

variable [DecidableEq T] {D : Derived T} {m : Mem D}

/-- The point of a call of the queue with its slots. -/
def Pc.embed (D : Derived T) : Pc T → AtomicQueue.Pc D
  | .tryPushLoad x => .tryPushLoad x
  | .tryPushCheck x head => .tryPushCheck x head
  | .tryPushClaim x head => .tryPushClaim x head
  | .tryPopLoad => .tryPopLoad
  | .tryPopCheck tail => .tryPopCheck tail
  | .tryPopClaim tail => .tryPopClaim tail
  | .wasSizeLoad headFirst => .wasSizeLoad headFirst
  | .wasSizeHead head => .wasSizeHead head
  | .wasSizeTail tail => .wasSizeTail tail
  | .doPush x head => .doPush x (D.ring.slot head) D.layout.pushEntry
  | .doPop tail => .doPop (D.ring.slot tail) D.layout.popEntry

def Next.embed (D : Derived T) : Next T → AtomicQueue.Pc D
  | .goto pc => pc.embed D
  | .refuse | .sized _ => .idle

/-- The event of the queue with its slots says what the step leads to. -/
def Next.Tells {n : ℕ} (event : Event T n) : Next T → Prop
  | .goto _ => True
  | .refuse => event = .refuse
  | .sized k => event = .sized k

/-- **Away from the arrays a call takes the steps of the queue with its
slots.** -/
theorem advance_embed (hhead : m.head_ = q.head_) (htail : m.tail_ = q.tail_)
    (hsize : D.ring.size_ = q.size_) (hpc : ¬ pc.AtBuffer) :
    ∃ q' e event, advance D.spsc_ weak q pc = some (q', e) ∧
      D.advance weak m (pc.embed D) =
        some ({ m with head_ := q'.head_, tail_ := q'.tail_ }, e.embed D, event) ∧
      e.Tells event := by
  obtain ⟨head_, tail_, cell⟩ := m
  obtain rfl := hhead
  obtain rfl := htail
  cases pc with
  | doPush | doPop => exact absurd trivial hpc
  | tryPushLoad x => exact ⟨_, _, _, rfl, rfl, trivial⟩
  | tryPopLoad => exact ⟨_, _, _, rfl, rfl, trivial⟩
  | wasSizeLoad headFirst =>
    cases headFirst <;> exact ⟨_, _, .silent, rfl, rfl, trivial⟩
  | wasSizeHead head => exact ⟨_, _, _, rfl, rfl, rfl⟩
  | wasSizeTail tail => exact ⟨_, _, _, rfl, rfl, rfl⟩
  | tryPushCheck x head =>
    simp only [advance, Pc.embed, Derived.advance, hsize]
    split
    · exact ⟨_, _, _, rfl, rfl, rfl⟩
    · exact ⟨_, _, _, rfl, rfl, trivial⟩
  | tryPopCheck tail =>
    simp only [advance, Pc.embed, Derived.advance]
    split
    · exact ⟨_, _, _, rfl, rfl, rfl⟩
    · exact ⟨_, _, _, rfl, rfl, trivial⟩
  | tryPushClaim x head =>
    simp only [advance, Pc.embed, Derived.advance]
    split
    · exact ⟨_, _, _, rfl, rfl, trivial⟩
    · split
      · exact ⟨_, _, _, rfl, rfl, trivial⟩
      · exact ⟨_, _, _, rfl, rfl, trivial⟩
  | tryPopClaim tail =>
    simp only [advance, Pc.embed, Derived.advance]
    split
    · exact ⟨_, _, _, rfl, rfl, trivial⟩
    · split
      · exact ⟨_, _, _, rfl, rfl, trivial⟩
      · exact ⟨_, _, _, rfl, rfl, trivial⟩

end

end MovedFrom

end AtomicQueue
