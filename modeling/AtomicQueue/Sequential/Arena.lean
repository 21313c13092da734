import AtomicQueue.Model.HugePages
import AtomicQueue.Sequential.Values
import Mathlib.Logic.Relation
/-!
# Queues and the arena agree

What the arena handed out last it takes back, and is then as it was
before. A queue's destructor gives back its arrays in the opposite order
of its constructor and with the same counts, since nothing but `swap` and
moves changes `size_` or the pointers; the object's own block comes last.
So `destroy` undoes `create`, and queues destroyed in the opposite order of
their creation leave the arena as they found it. Each has taken the bytes of
its object and of its arrays.
-/

namespace AtomicQueue

variable {arena arena' arena'' : HugePages} {p : Address} {n : ℕ} {T : Type} {c : BufferClass T}
variable {q : ArenaQueue} {size sizeofQueue : Size}

/-! ## Handing out and taking back -/

/-- What is handed out is the first of the free bytes, and the rest is left. -/
theorem HugePages.allocate_eq_some (h : arena.allocate size = some (p, arena')) :
    p = arena.cur_ ∧ arena' = { arena with cur_ := arena.cur_ + size } := by
  unfold HugePages.allocate HugePages.allocateNothrow at h
  split at h
  · -- no room: `allocate` throws
    rw [if_pos rfl] at h
    cases h
  · dsimp only at h
    split at h
    · cases h
    · cases h
      exact ⟨rfl, rfl⟩

/-- **The arena takes back what it handed out last.** -/
theorem HugePages.deallocate_allocate (h : arena.allocate size = some (p, arena')) :
    arena'.deallocate p size = some arena := by
  obtain ⟨rfl, rfl⟩ := HugePages.allocate_eq_some h
  have hback : arena.cur_ + size - size = arena.cur_ := BitVec.add_sub_cancel ..
  rw [HugePages.deallocate, hback, if_pos rfl]

theorem HugePageAllocator.deallocate_allocate {a : HugePageAllocator}
    (h : a.allocate arena n = some (p, arena')) : a.deallocate arena' p n = some arena :=
  HugePages.deallocate_allocate h

/-- **What a constructor does**: it allocates the states, where the class has
them, and then the elements. -/
theorem BufferClass.constructIn_eq_some {size : Word}
    (h : c.constructIn arena size = some (q, arena')) :
    ∃ elements_ arena₁,
      c.elementAllocator.allocate arena₁ (c.elementCount (c.size_ size)) =
        some (elements_, arena') ∧
      ((c.hasStates = true ∧ ∃ states_,
          stateAllocator.allocate arena (stateCount (c.size_ size)) = some (states_, arena₁) ∧
            q = ⟨(), 0, 0, c.size_ size, some states_, some elements_⟩) ∨
        (c.hasStates = false ∧ arena₁ = arena ∧
          q = ⟨(), 0, 0, c.size_ size, none, some elements_⟩)) := by
  unfold BufferClass.constructIn at h
  split at h
  · rename_i hstates
    simp only [Option.bind_eq_bind, Option.bind_eq_some_iff] at h
    obtain ⟨⟨_, arena₁⟩, hmap, ⟨elements_, arena₂⟩, helements, heq⟩ := h
    obtain ⟨⟨states_, arena₃⟩, hallocate, hpair⟩ := Option.map_eq_some_iff.mp hmap
    cases hpair
    obtain ⟨rfl, rfl⟩ := Prod.mk.inj (Option.some.inj heq)
    exact ⟨elements_, _, helements, Or.inl ⟨hstates, states_, hallocate, rfl⟩⟩
  · rename_i hstates
    simp only [Option.bind_eq_bind, Option.bind_some, Option.bind_eq_some_iff] at h
    obtain ⟨⟨elements_, arena₂⟩, helements, heq⟩ := h
    obtain ⟨rfl, rfl⟩ := Prod.mk.inj (Option.some.inj heq)
    exact ⟨elements_, arena, helements, Or.inr ⟨eq_false_of_ne_true hstates, rfl, rfl⟩⟩

/-- `create` allocates the object and constructs it. -/
theorem BufferClass.create_eq_some {size : Word}
    (h : c.create sizeofQueue arena size = some (p, q, arena')) :
    ∃ arena₁, arena.allocate sizeofQueue = some (p, arena₁) ∧
      c.constructIn arena₁ size = some (q, arena') := by
  unfold BufferClass.create at h
  simp only [Option.bind_eq_bind, Option.bind_eq_some_iff] at h
  obtain ⟨⟨p₁, arena₁⟩, hobject, ⟨q₁, arena₂⟩, hconstruct, heq⟩ := h
  cases heq
  exact ⟨arena₁, hobject, hconstruct⟩

/-- Once the elements are given back, the states are. -/
theorem BufferClass.destructIn_eq (he : q.elements_ = some p)
    (hd : c.elementAllocator.deallocate arena p (c.elementCount q.size_) = some arena') :
    c.destructIn arena q =
      match q.states_ with
      | none => some arena'
      | some p => stateAllocator.deallocate arena' p (stateCount q.size_) := by
  rw [destructIn, he]
  simp only [hd, Option.bind_eq_bind, Option.bind_some]
  rfl

/-- **The destructor undoes the constructor.** -/
theorem BufferClass.destructIn_constructIn {size : Word}
    (h : c.constructIn arena size = some (q, arena')) : c.destructIn arena' q = some arena := by
  obtain ⟨elements_, arena₁, helements, hcases⟩ := BufferClass.constructIn_eq_some h
  have hback := HugePageAllocator.deallocate_allocate helements
  rcases hcases with ⟨-, states_, hstates, rfl⟩ | ⟨-, rfl, rfl⟩
  · -- the states are below the elements, and are given back after them
    exact (BufferClass.destructIn_eq (q := ⟨(), 0, 0, c.size_ size, some states_, some elements_⟩)
      rfl hback).trans (HugePageAllocator.deallocate_allocate hstates)
  · exact BufferClass.destructIn_eq (q := ⟨(), 0, 0, c.size_ size, none, some elements_⟩) rfl hback

/-- **`destroy` undoes `create`.** -/
theorem BufferClass.destroy_create {size : Word}
    (h : c.create sizeofQueue arena size = some (p, q, arena')) :
    c.destroy sizeofQueue arena' p q = some arena := by
  obtain ⟨arena₁, hobject, hconstruct⟩ := BufferClass.create_eq_some h
  unfold BufferClass.destroy
  rw [Option.bind_eq_bind, BufferClass.destructIn_constructIn hconstruct, Option.bind_some]
  exact HugePages.deallocate_allocate hobject

/-! ## What is taken -/

/-- **What is handed out is in use.** -/
theorem HugePages.used_allocate (h : arena.allocate size = some (p, arena')) :
    arena'.used = arena.used + size := by
  obtain ⟨rfl, rfl⟩ := HugePages.allocate_eq_some h
  rw [HugePages.used, HugePages.used]
  bv_omega

/-- The bytes of `n` objects. -/
def HugePageAllocator.bytes (a : HugePageAllocator) (n : ℕ) : Size :=
  BitVec.ofNat 64 n * BitVec.ofNat 64 a.sizeofValue

theorem HugePageAllocator.used_allocate {a : HugePageAllocator}
    (h : a.allocate arena n = some (p, arena')) : arena'.used = arena.used + a.bytes n :=
  HugePages.used_allocate h

/-- The bytes of a queue's arrays. -/
def BufferClass.arrayBytes (c : BufferClass T) (size_ : Word) : Size :=
  (if c.hasStates then stateAllocator.bytes (stateCount size_) else 0#64) +
    c.elementAllocator.bytes (c.elementCount size_)

/-- **The constructor takes the bytes of the arrays**, -/
theorem BufferClass.used_constructIn {size : Word}
    (h : c.constructIn arena size = some (q, arena')) :
    q.size_ = c.size_ size ∧ arena'.used = arena.used + c.arrayBytes q.size_ := by
  obtain ⟨elements_, arena₁, helements, hcases⟩ := BufferClass.constructIn_eq_some h
  have hused := HugePageAllocator.used_allocate helements
  rcases hcases with ⟨hstates, states_, hallocate, rfl⟩ | ⟨hstates, rfl, rfl⟩
  · refine ⟨rfl, ?_⟩
    rw [hused, HugePageAllocator.used_allocate hallocate, arrayBytes, if_pos hstates,
      BitVec.add_assoc]
  · refine ⟨rfl, ?_⟩
    rw [hused, arrayBytes, if_neg (by simp [hstates]), BitVec.zero_add]

/-- **and `create` those of the object too.** -/
theorem BufferClass.used_create {size : Word}
    (h : c.create sizeofQueue arena size = some (p, q, arena')) :
    q.size_ = c.size_ size ∧ arena'.used = arena.used + (sizeofQueue + c.arrayBytes q.size_) := by
  obtain ⟨arena₁, hobject, hconstruct⟩ := BufferClass.create_eq_some h
  obtain ⟨hsize, hused⟩ := BufferClass.used_constructIn hconstruct
  exact ⟨hsize, by rw [hused, HugePages.used_allocate hobject, BitVec.add_assoc]⟩

namespace Arena

open Buffers

variable {sizeofQueue : ∀ {T : Type}, BufferClass T → Size}
variable {w w' : World} {x : Lifetime} {live younger older : List Lifetime}

/-! ## Nested lifetimes -/

/-- What a queue has taken: the bytes of the object and of its arrays. -/
def Lifetime.bytes (sizeofQueue : ∀ {T : Type}, BufferClass T → Size) (x : Lifetime) : Size :=
  sizeofQueue x.queueClass + x.queueClass.arrayBytes x.queue.size_

/-- **The queues can be destroyed**, from the latest to the first, each
leaving as much of the arena in use as before its creation, when it took its
bytes. -/
def Nested (sizeofQueue : ∀ {T : Type}, BufferClass T → Size) : HugePages → List Lifetime → Prop
  | _, [] => True
  | arena, x :: older =>
    arena.used = x.usedBefore + x.bytes sizeofQueue ∧
      ∃ arena', x.destroy sizeofQueue arena = some arena' ∧ arena'.used = x.usedBefore ∧
        Nested sizeofQueue arena' older

/-- A call leaves what the destructor reads as it was. -/
theorem destroy_write {v : BufferValue Unit x.T} :
    (x.write v).destroy sizeofQueue arena = x.destroy sizeofQueue arena :=
  rfl

theorem nested_write {v : BufferValue Unit x.T}
    (h : Nested sizeofQueue arena (younger ++ x :: older)) :
    Nested sizeofQueue arena (younger ++ x.write v :: older) := by
  induction younger generalizing arena with
  | nil =>
    obtain ⟨htaken, arena', hdestroy, hused, hrest⟩ := h
    exact ⟨htaken, arena', destroy_write.trans hdestroy, hused, hrest⟩
  | cons y younger ih =>
    obtain ⟨htaken, arena', hdestroy, hused, hrest⟩ := h
    exact ⟨htaken, arena', hdestroy, hused, ih hrest⟩

theorem Nested.step (h : Nested sizeofQueue w.arena w.live) (hs : Step sizeofQueue w w') :
    Nested sizeofQueue w'.arena w'.live := by
  cases hs with
  | create dec c size hcreate =>
    exact ⟨(BufferClass.used_create hcreate).2, w.arena, BufferClass.destroy_create hcreate, rfl, h⟩
  | call hserves => exact nested_write h
  | destroy hdestroy =>
    obtain ⟨-, arena₁, hdestroy₁, -, hrest⟩ := h
    obtain rfl := Option.some.inj (hdestroy.symm.trans hdestroy₁)
    exact hrest

theorem nested_of_run (h : Relation.ReflTransGen (Step sizeofQueue) ⟨arena, []⟩ w) :
    Nested sizeofQueue w.arena w.live := by
  induction h with
  | refl => trivial
  | tail _ hs ih => exact ih.step hs

/-- **Queues and the arena agree.** However the lifetimes of queues of any
classes, sizes and element types are nested, with calls among them, the
latest queue can be destroyed without an abort, and as much of the arena is
then in use as was before its creation, which took the bytes of the object
and of its arrays. -/
theorem destroy_restores_used (h : Relation.ReflTransGen (Step sizeofQueue) ⟨arena, []⟩ w)
    (hlive : w.live = x :: older) :
    ∃ arena', x.destroy sizeofQueue w.arena = some arena' ∧ arena'.used = x.usedBefore ∧
      w.arena.used = x.usedBefore + x.bytes sizeofQueue := by
  have hnested := nested_of_run h
  rw [hlive] at hnested
  obtain ⟨htaken, arena', hdestroy, hused, -⟩ := hnested
  exact ⟨arena', hdestroy, hused, htaken⟩

/-- An arena of a megabyte. -/
def megabyte : HugePages := ⟨0x10000, 0x110000, 0x10000⟩

/-- An `AtomicQueueB2` of eight-byte elements. -/
def plainBuffers : BufferClass ℕ := ⟨64, .and, false, true, .states plain, 8⟩

/-- Queues of three cache lines. -/
def threeLines {T : Type} (_ : BufferClass T) : Size := 0x180

/-- An `AtomicQueueB` of `256` four-byte elements, created first. -/
def firstQueue : Lifetime :=
  ⟨ℕ, inferInstance, wordBuffers, 0x10000, ⟨(), 0, 0, 256, none, some 0x10180⟩,
    fun _ => .EMPTY, fun _ => 0, 0⟩

/-- An element is pushed into the first queue, and an `AtomicQueueB2` of `4096`
eight-byte elements created. The latter took `0x9180` bytes; with it
destroyed, the `0x580` bytes of the former are in use. -/
theorem destroy_restores_used_run :
    ∃ (w : World) (x : Lifetime) (older : List Lifetime) (arena : HugePages),
      Relation.ReflTransGen (Step threeLines) ⟨megabyte, []⟩ w ∧ w.live = x :: older ∧
        x.queue = ⟨(), 0, 0, 4096, some 0x10700, some 0x11700⟩ ∧
        x.destroy threeLines w.arena = some arena ∧ arena.used = 0x580 ∧
        w.arena.used = 0x580 + 0x9180 := by
  have hfirst : wordBuffers.create 0x180 megabyte 2 =
      some (0x10000, firstQueue.queue, ⟨0x10580, 0x110000, 0x10000⟩) := rfl
  have hsecond : plainBuffers.create 0x180 ⟨0x10580, 0x110000, 0x10000⟩ 2 =
      some (0x10580, ⟨(), 0, 0, 4096, some 0x10700, some 0x11700⟩,
        ⟨0x19700, 0x110000, 0x10000⟩) := rfl
  obtain ⟨v, hserves⟩ := BufferClass.exists_serves_constructed (c := wordBuffers) (n := 2)
    (a := ()) (x := 5) (by decide) rfl
  have hcreate : Step threeLines ⟨megabyte, []⟩ ⟨⟨0x10580, 0x110000, 0x10000⟩, [firstQueue]⟩ :=
    .create inferInstance wordBuffers 2 hfirst
  have hpush : Step threeLines ⟨⟨0x10580, 0x110000, 0x10000⟩, [] ++ firstQueue :: []⟩
      ⟨⟨0x10580, 0x110000, 0x10000⟩, [] ++ firstQueue.write v :: []⟩ := .call hserves
  have hrun := ((Relation.ReflTransGen.refl.tail hcreate).tail hpush).tail
    (.create inferInstance plainBuffers 2 hsecond)
  obtain ⟨arena, hdestroy, hused, htaken⟩ := destroy_restores_used hrun rfl
  have hbetween : HugePages.used ⟨0x10580, 0x110000, 0x10000⟩ = 0x580 := by decide
  have hbytes : (0x180 : Size) + plainBuffers.arrayBytes 4096 = 0x9180 := by decide
  refine ⟨_, _, _, arena, hrun, rfl, rfl, hdestroy, hused.trans hbetween, htaken.trans ?_⟩
  exact congrArg₂ _ hbetween hbytes

end Arena

end AtomicQueue
