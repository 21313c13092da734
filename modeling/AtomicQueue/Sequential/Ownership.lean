import AtomicQueue.Model.Buffer
/-!
# Buffers have one owner, and their contents go with them

Each member function is an exchange or a hand-over: `swap` goes through
the members one by one and leaves the two objects exchanged, a move
construction hands the buffers to the new object, and move assignment is
a `swap`. So the objects go on owning every buffer once, with the
allocator and the length it was allocated with, and an object answers by
its value, the members with the arrays in the place of the pointers.
-/

namespace AtomicQueue

namespace Buffers

variable {ι A T S E β : Type} [DecidableEq ι] {objects : Objects ι A S E} {a b n n' : ι}

/-! ## `swap` exchanges the objects -/

section

variable {m : Member (BufferQueue A S E) β} {q qa qb : BufferQueue A S E}

/-- A member assigned its own value is left as it is, -/
theorem assign_get (h : objects n = some q) : assign m n (m.get q) objects = objects := by
  rw [assign, h, Option.map_some, m.set_get, ← h, Function.update_eq_self]

/-- and so is a member swapped with itself, -/
theorem swapMember_self : swapMember m a a objects = objects := by
  unfold swapMember
  cases h : objects a with
  | none => rfl
  | some q =>
    change assign m a (m.get q) (assign m a (m.get q) objects) = objects
    rw [assign_get h, assign_get h]

/-- and an object swapped with itself. -/
theorem swap_self : swap a a objects = objects := by
  simp only [swap, swapMember_self]

/-- The objects with those named `a` and `b` replaced. -/
def pair (objects : Objects ι A S E) (a b : ι) (qa qb : BufferQueue A S E) : Objects ι A S E :=
  Function.update (Function.update objects a (some qa)) b (some qb)

theorem swapMember_pair (hne : a ≠ b) :
    swapMember m a b (pair objects a b qa qb) =
      pair objects a b (m.set (m.get qb) qa) (m.set (m.get qa) qb) := by
  have ha : pair objects a b qa qb a = some qa := by
    rw [pair, Function.update_of_ne hne, Function.update_self]
  have hb : pair objects a b qa qb b = some qb := Function.update_self ..
  unfold swapMember
  rw [ha, hb]
  funext n
  rcases eq_or_ne n b with rfl | hnb
  · simp [assign, pair, hne.symm]
  · rcases eq_or_ne n a with rfl | hna
    · simp [assign, pair, hnb]
    · simp [assign, pair, hnb, hna]

/-- **`swap` is an exchange of the objects**, of an object with itself too. -/
theorem swap_eq (ha : (objects a).isSome) (hb : (objects b).isSome) :
    swap a b objects = objects ∘ Equiv.swap a b := by
  obtain ⟨qa, ha⟩ := Option.isSome_iff_exists.mp ha
  obtain ⟨qb, hb⟩ := Option.isSome_iff_exists.mp hb
  rcases eq_or_ne a b with rfl | hne
  · rw [swap_self, Equiv.swap_self]
    rfl
  · -- the exchanges of the members change nothing but the two objects
    have hpair : objects = pair objects a b qa qb := by
      rw [pair, ← ha, Function.update_eq_self, ← hb, Function.update_eq_self]
    have hswap : swap a b (pair objects a b qa qb) = pair objects a b qb qa := by
      simp only [swap, swapMember_pair hne]
      rfl
    rw [hpair, hswap, ← hpair]
    funext n
    rcases eq_or_ne n b with rfl | hnb
    · rw [Function.comp_apply, Equiv.swap_apply_right, ha, pair, Function.update_self]
    · rcases eq_or_ne n a with rfl | hna
      · rw [Function.comp_apply, Equiv.swap_apply_left, hb, pair, Function.update_of_ne hnb,
          Function.update_self]
      · rw [Function.comp_apply, Equiv.swap_apply_of_ne_of_ne hna hnb, pair,
          Function.update_of_ne hnb, Function.update_of_ne hna]

end

/-! ## Who owns what -/

variable {c : BufferClass T} {w w' : World ι A T} {q : BufferQueue A ℕ ℕ}

/-- What the destructor deallocates `elements_` with, -/
def elementHandle (c : BufferClass T) (q : BufferQueue A ℕ ℕ) : Option (Handle A) :=
  q.elements_.map fun p => ⟨p, q.allocator, c.elementCount q.size_⟩

/-- and `states_`. -/
def stateHandle (q : BufferQueue A ℕ ℕ) : Option (Handle A) :=
  q.states_.map fun p => ⟨p, q.allocator, BufferClass.stateCount q.size_⟩

def handles (f : BufferQueue A ℕ ℕ → Option (Handle A)) (objects : Objects ι A ℕ ℕ) (n : ι) :
    Option (Handle A) :=
  (objects n).bind f

/-- The constructor's array length is one the index map stays within. -/
theorem fits_size_ (c : BufferClass T) (size : Word) : c.Fits (c.size_ size) := by
  have hbits := Ring.getCacheLineIndexBits_le c.elementsPerCacheLine
  refine ⟨?_, Ring.swappable_buffer size hbits⟩
  change 0 < (Ring.bufferSize size (getCacheLineIndexBits c.elementsPerCacheLine)).toNat
  rw [Ring.toNat_bufferSize size hbits]
  exact lt_of_lt_of_le (Nat.two_pow_pos _) (le_max_right _ _)

/-- What an object owns of the elements, with the count its destructor
frees, -/
theorem elementHandle_eq {p : ℕ} (hp : q.elements_ = some p) :
    elementHandle c q = some ⟨p, q.allocator, c.elementCount q.size_⟩ := by
  rw [elementHandle, hp]
  rfl

/-- and of the states. -/
theorem stateHandle_eq {p : ℕ} (hp : q.states_ = some p) :
    stateHandle q = some ⟨p, q.allocator, BufferClass.stateCount q.size_⟩ := by
  rw [stateHandle, hp]
  rfl

/-- An object owns the buffers of one construction and an array length the
index map stays within, or it owns nothing and has length `0`. -/
def Whole (c : BufferClass T) (q : BufferQueue A ℕ ℕ) : Prop :=
  q.elements_.isSome ∧ q.states_ = (if c.hasStates then q.elements_ else none) ∧ c.Fits q.size_ ∨
    q.elements_ = none ∧ q.states_ = none ∧ q.size_ = 0

/-- **Every buffer is owned by one object**, with the allocator and the
count it was allocated with, until it is deallocated by these. The `k`-th
constructor of the class with states allocated the `k`-th array of each
kind. -/
structure Owned (c : BufferClass T) (w : World ι A T) : Prop where
  elements : w.elements.OwnedBy (handles (elementHandle c) w.objects)
  states : w.states.OwnedBy (handles stateHandle w.objects)
  whole : ∀ n q, w.objects n = some q → Whole c q
  paired : c.hasStates = true → w.states.length = w.elements.length

omit [DecidableEq ι] in
theorem handles_eq {f : BufferQueue A ℕ ℕ → Option (Handle A)} {objects : Objects ι A ℕ ℕ}
    (hq : objects n = some q) : handles f objects n = f q := by
  rw [handles, hq, Option.bind_some]

/-- An object changed owns what its new members say. -/
theorem handles_update {f : BufferQueue A ℕ ℕ → Option (Handle A)} {objects : Objects ι A ℕ ℕ}
    {o : Option (BufferQueue A ℕ ℕ)} :
    handles f (Function.update objects n o) = Function.update (handles f objects) n (o.bind f) := by
  funext n'
  rcases eq_or_ne n' n with rfl | hne
  · rw [handles, Function.update_self, Function.update_self]
  · rw [handles, Function.update_of_ne hne, Function.update_of_ne hne, handles]

/-- An object replaced by one that owns the same. -/
theorem handles_update_of_eq {f : BufferQueue A ℕ ℕ → Option (Handle A)}
    {objects : Objects ι A ℕ ℕ} {o : Option (BufferQueue A ℕ ℕ)}
    (h : o.bind f = handles f objects n) :
    handles f (Function.update objects n o) = handles f objects := by
  rw [handles_update, h, Function.update_eq_self]

/-- An object that owned nothing is no more. -/
theorem handles_update_of_none {f : BufferQueue A ℕ ℕ → Option (Handle A)}
    {objects : Objects ι A ℕ ℕ} (hq : objects n = some q) (hf : f q = none) :
    handles f (Function.update objects n none) = handles f objects :=
  handles_update_of_eq (by rw [handles_eq hq, hf, Option.bind_none])

/-- **A move construction is an exchange**, as far as what the objects own
goes: the new one owned nothing, and the other one is left with nothing. -/
theorem handles_move {f : BufferQueue A ℕ ℕ → Option (Handle A)} {objects : Objects ι A ℕ ℕ}
    (hn : objects n = none) (hb : objects b = some q) (hempty : f q.moveConstruct.2 = none) :
    handles f (Function.update (Function.update objects b (some q.moveConstruct.2)) n
      (some q.moveConstruct.1)) = handles f objects ∘ Equiv.swap n b := by
  funext n'
  rw [handles, Function.comp_apply, handles]
  rcases eq_or_ne n' n with rfl | hnn
  · rw [Equiv.swap_apply_left, hb, Function.update_self]
    rfl
  · rw [Function.update_of_ne hnn]
    rcases eq_or_ne n' b with rfl | hnb
    · rw [Equiv.swap_apply_right, hn, Function.update_self]
      exact hempty
    · rw [Equiv.swap_apply_of_ne_of_ne hnn hnb, Function.update_of_ne hnb]

/-- Objects stay whole when a whole one is put among them. -/
theorem whole_update {objects : Objects ι A ℕ ℕ} {o : Option (BufferQueue A ℕ ℕ)}
    (h : ∀ n q, objects n = some q → Whole c q) (ho : ∀ q ∈ o, Whole c q) (n' : ι)
    (q : BufferQueue A ℕ ℕ) (hq : Function.update objects n o n' = some q) : Whole c q := by
  rcases eq_or_ne n' n with rfl | hne
  · rw [Function.update_self] at hq
    exact ho q hq
  · rw [Function.update_of_ne hne] at hq
    exact h n' q hq

/-- A store allocates nothing, -/
theorem length_storeAt {X : Type} {heap : Heap A X} {p : Option ℕ} {x : Option X} :
    (World.storeAt heap p x).length = heap.length := by
  cases p <;> cases x <;> simp [World.storeAt, Heap.store]

omit [DecidableEq ι] in
/-- and does not change who owns a block. -/
theorem ownedBy_storeAt {X : Type} {heap : Heap A X} {p : Option ℕ} {x : Option X}
    {handle : ι → Option (Handle A)} (h : heap.OwnedBy handle) :
    (World.storeAt heap p x).OwnedBy handle := by
  cases p <;> cases x <;> first | exact h | exact h.store

/-- Blocks are never forgotten. -/
theorem length_elements_destroy : (w.destroy c n q).elements.length = w.elements.length := by
  rw [World.destroy]
  cases q.elements_ with
  | none => rfl
  | some p => exact List.length_modify ..

theorem length_states_destroy : (w.destroy c n q).states.length = w.states.length := by
  rw [World.destroy]
  cases q.elements_ with
  | none => rfl
  | some p =>
    cases q.states_ with
    | none => rfl
    | some p => exact List.length_modify ..

namespace Owned

omit [DecidableEq ι] in
/-- No object owns a block at the start. -/
theorem init : Owned c (World.init : World ι A T) where
  elements := .nil
  states := .nil
  whole _ _ hq := by cases hq
  paired _ := rfl

/-- **A constructor** owns the blocks it allocates. -/
theorem construct {size : Word} {allocator : A} (h : Owned c w) (hn : w.objects n = none) :
    Owned c (w.construct c n size allocator) := by
  have hnone : ∀ {f : BufferQueue A ℕ ℕ → Option (Handle A)}, handles f w.objects n = none := by
    intro f
    rw [handles, hn, Option.bind_none]
  refine ⟨?_, ?_, whole_update h.whole fun q hq => ?_, fun hc => ?_⟩
  · rw [World.construct, handles_update]
    exact h.elements.allocate hnone
  · cases hc : c.hasStates with
    | false =>
      simp only [World.construct, hc, Bool.false_eq_true, if_false]
      rw [handles_update_of_eq (by rw [hnone]; rfl)]
      exact h.states
    | true =>
      simp only [World.construct, hc, if_true]
      rw [handles_update]
      exact h.states.allocate hnone
  · obtain rfl := Option.some.inj hq
    refine .inl ⟨rfl, ?_, ?_⟩
    · cases hc : c.hasStates with
      | false => rfl
      | true => exact congrArg some (h.paired hc)
    · exact fits_size_ c size
  · rw [World.construct, if_pos hc, Heap.allocate, Heap.allocate, List.length_append,
      List.length_append, h.paired hc]
    rfl

/-- **A call of the queue** keeps the blocks where they are. -/
theorem write {v : BufferValue A T} (h : Owned c w) (hq : w.objects n = some q) :
    Owned c (w.write n q v) := by
  refine ⟨?_, ?_, whole_update h.whole fun q' hq' => ?_, fun hc => ?_⟩
  · rw [World.write, handles_update_of_eq (by rw [handles_eq hq]; rfl)]
    exact ownedBy_storeAt h.elements
  · rw [World.write, handles_update_of_eq (by rw [handles_eq hq]; rfl)]
    exact ownedBy_storeAt h.states
  · obtain rfl := Option.some.inj hq'
    exact h.whole n q hq
  · rw [World.write, length_storeAt, length_storeAt, h.paired hc]

omit [DecidableEq ι] in
/-- **A swap** only exchanges the names of the owners. -/
theorem exchange (h : Owned c w) (e : Equiv.Perm ι) :
    Owned c { w with objects := w.objects ∘ e } where
  elements := h.elements.comp e
  states := h.states.comp e
  whole n := h.whole (e n)
  paired := h.paired

/-- **A move** passes the blocks on, and leaves the object moved from
without. -/
theorem moveConstruct (h : Owned c w) (hn : w.objects n = none) (hb : w.objects b = some q) :
    Owned c { w with
      objects := Function.update (Function.update w.objects b (some q.moveConstruct.2)) n
        (some q.moveConstruct.1) } := by
  refine ⟨?_, ?_, whole_update (whole_update h.whole fun q' hq' => ?_) fun q' hq' => ?_, h.paired⟩
  · rw [handles_move hn hb rfl]
    exact h.elements.comp _
  · rw [handles_move hn hb rfl]
    exact h.states.comp _
  · obtain rfl := Option.some.inj hq'
    exact .inr ⟨rfl, rfl, rfl⟩
  · obtain rfl := Option.some.inj hq'
    exact h.whole b q hb

/-- The destructor frees the elements that the object owns, -/
theorem elements_destroy (h : Owned c w) (hq : w.objects n = some q) :
    (w.destroy c n q).elements.OwnedBy (handles (elementHandle c) (w.destroy c n q).objects) := by
  cases he : q.elements_ with
  | none =>
    simp only [World.destroy, he]
    rw [handles_update_of_none hq (by rw [elementHandle, he]; rfl)]
    exact h.elements
  | some p =>
    simp only [World.destroy, he]
    rw [handles_update]
    exact h.elements.deallocate ((handles_eq hq).trans (elementHandle_eq he))

/-- and its states, -/
theorem states_destroy (h : Owned c w) (hq : w.objects n = some q) :
    (w.destroy c n q).states.OwnedBy (handles stateHandle (w.destroy c n q).objects) := by
  cases hs : q.states_ with
  | none =>
    have hsame : (w.destroy c n q).states = w.states := by
      rw [World.destroy, hs]
      cases q.elements_ <;> rfl
    rw [hsame, World.destroy, handles_update_of_none hq (by rw [stateHandle, hs]; rfl)]
    exact h.states
  | some p =>
    -- the states are deallocated because the elements are there
    rcases h.whole n q hq with ⟨he, -, -⟩ | ⟨-, hnone, -⟩
    · obtain ⟨p', he⟩ := Option.isSome_iff_exists.mp he
      simp only [World.destroy, he, hs]
      rw [handles_update]
      exact h.states.deallocate ((handles_eq hq).trans (stateHandle_eq hs))
    · rw [hs] at hnone
      cases hnone

/-- **so that a destructor** leaves no block of its object, and every other
one owned. -/
theorem destroy (h : Owned c w) (hq : w.objects n = some q) : Owned c (w.destroy c n q) where
  elements := h.elements_destroy hq
  states := h.states_destroy hq
  whole := whole_update h.whole fun q' hq' => by cases hq'
  paired hc := by rw [length_states_destroy, length_elements_destroy, h.paired hc]

end Owned

end Buffers

end AtomicQueue
