import AtomicQueue.Model.Construction
import AtomicQueue.Sequential.Ownership
/-!
# Which constructions are all or nothing

`AtomicQueueB` allocates once and nothing throws after. `AtomicQueueB2`
allocates twice and then calls the constructors of its elements, with
nothing in charge of what it has so far: past the first allocation whatever
throws leaves the blocks, and the elements constructed, to nobody.
-/

namespace AtomicQueue

namespace Construction

variable {A T X : Type} {c : BufferClass T} {throws : Point → Bool} {allocator : A}
variable {size size_ : Word} {m m' : Memory A T} {p n k : ℕ}

/-! ## The loop over the elements -/

/-- If none of them throws all elements are constructed. -/
theorem constructElements_ok (h : ∀ j, k ≤ j → j < k + n → throws (.element j) = false) :
    constructElements throws p n k m =
      (.ok (), { m with alive := m.alive ++ (List.range' k n).map fun j => (p, j) }) := by
  induction n generalizing k m with
  | zero => simp [constructElements]
  | succ n ih =>
    have hk : throws (.element k) = false := h k le_rfl (by omega)
    rw [constructElements, if_neg (by simp [hk]), ih fun j hj hlt => h j (by omega) (by omega)]
    simp [List.range'_succ]

/-- One of them throws, and the arrays stay. -/
theorem constructElements_error (h : ∃ j, k ≤ j ∧ j < k + n ∧ throws (.element j) = true) :
    ∃ e alive, constructElements throws p n k m = (.error e, { m with alive }) := by
  induction n generalizing k m with
  | zero =>
    obtain ⟨j, hle, hlt, -⟩ := h
    omega
  | succ n ih =>
    rw [constructElements]
    by_cases hk : throws (.element k) = true
    · exact ⟨_, _, if_pos hk⟩
    · rw [if_neg hk]
      obtain ⟨j, hle, hlt, hj⟩ := h
      have hne : j ≠ k := by
        rintro rfl
        exact hk hj
      exact ih ⟨j, by omega, by omega, hj⟩

/-! ## All or nothing -/

/-- What was allocated in between has been deallocated as it was allocated. -/
def Returned (h h' : Heap A X) : Prop :=
  ∃ blocks : List (Block A X), h' = h ++ blocks ∧ ∀ b ∈ blocks, b.freed = [(b.allocator, b.count)]

theorem returned_self (h : Heap A X) : Returned h h := ⟨[], (List.append_nil h).symm, by simp⟩

/-- A block allocated and not freed is not given back. -/
theorem not_returned_allocate {h : Heap A X} {x : X} : ¬ Returned h (h.allocate allocator n x) := by
  rintro ⟨blocks, heq, hfreed⟩
  have hblocks := List.append_cancel_left heq
  cases hfreed _ (hblocks ▸ List.mem_singleton_self _)

/-- **Nothing**: every block is back with its allocator, and every element
destroyed. -/
structure Released (m m' : Memory A T) : Prop where
  states : Returned m.states m'.states
  elements : Returned m.elements m'.elements
  alive : m'.alive = m.alive

/-- **All**: the object owns a block for each of its arrays, and `size_`
elements are constructed in the one of `elements_`. -/
structure Owns (c : BufferClass T) (m : Memory A T) (q : BufferQueue A ℕ ℕ) (m' : Memory A T) :
    Prop where
  states_ : q.states_ = if c.hasStates then some m.states.length else none
  elements_ : q.elements_ = some m.elements.length
  states : m'.states =
    if c.hasStates then
      m.states.allocate q.allocator (BufferClass.stateCount q.size_) fun _ => .EMPTY
    else m.states
  elements : m'.elements =
    m.elements.allocate q.allocator (c.elementCount q.size_) fun _ => c.initialElement
  alive : m'.alive =
    m.alive ++ (List.range q.size_.toNat).map fun k => (m.elements.length, k)

/-- **All or nothing**, for the constructor called with this much memory. -/
def AllOrNothing (c : BufferClass T) (throws : Point → Bool) (allocator : A) (size : Word)
    (m : Memory A T) : Prop :=
  match construct c throws allocator size m with
  | (.error _, m') => Released m m'
  | (.ok q, m') => Owns c m q m'

/-! ## By the point at which it throws -/

theorem initStates_of_not (h : c.hasStates = false) :
    initStates c throws allocator size_ m = (.ok none, m) :=
  if_neg (by simp [h])

/-- If the states cannot be allocated nothing has changed. -/
theorem initStates_error (h : c.hasStates = true) (ht : throws .states_ = true) :
    initStates c throws allocator size_ m = (.error .states_, m) := by
  rw [initStates, if_pos h, if_pos ht]

/-- If they can, their block is the next. -/
theorem initStates_ok (h : c.hasStates = true) (ht : throws .states_ = false) :
    initStates c throws allocator size_ m =
      (.ok (some m.states.length),
        { m with
          states :=
            m.states.allocate allocator (BufferClass.stateCount size_) fun _ => .EMPTY }) := by
  rw [initStates, if_pos h, if_neg (by simp [ht])]

/-- `uninitialized_fill_n` does not throw, the element constructors may. -/
theorem elementThrows_of_not (h : c.hasStates = false) (e : Point) :
    elementThrows c throws e = false := by
  cases hc : c.elements with
  | atomic nil_ => rw [elementThrows, hc]
  | states E =>
    rw [BufferClass.hasStates, hc] at h
    cases h

theorem elementThrows_of_states (h : c.hasStates = true) : elementThrows c throws = throws := by
  cases hc : c.elements with
  | atomic nil_ =>
    rw [BufferClass.hasStates, hc] at h
    cases h
  | states E => rw [elementThrows, hc]

/-- Past the first allocation of the class with states nothing throws. -/
def Undisturbed (c : BufferClass T) (throws : Point → Bool) (size : Word) : Prop :=
  throws .elements_ = false ∧
    ∀ k < (c.size_ size).toNat, elementThrows c throws (.element k) = false

variable {states_ : Option ℕ}

/-- **Nothing throws**, and the object is made. -/
theorem construct_ok (h : initStates c throws allocator (c.size_ size) m = (.ok states_, m'))
    (hu : Undisturbed c throws size) :
    construct c throws allocator size m =
      (.ok ⟨allocator, 0, 0, c.size_ size, states_, some m'.elements.length⟩,
        { m' with
          elements := m'.elements.allocate allocator (c.elementCount (c.size_ size))
            fun _ => c.initialElement
          alive := m'.alive ++
            (List.range (c.size_ size).toNat).map fun k => (m'.elements.length, k) }) := by
  have hall : ∀ j, 0 ≤ j → j < 0 + (c.size_ size).toNat →
      elementThrows c throws (.element j) = false := fun j _ hlt => hu.2 j (by omega)
  simp only [construct, h, initElements, hu.1, Bool.false_eq_true, if_false,
    constructElements_ok hall, List.range_eq_range']

/-- The allocation of `elements_` throws. -/
theorem construct_elements_throw
    (h : initStates c throws allocator (c.size_ size) m = (.ok states_, m'))
    (ht : throws .elements_ = true) :
    construct c throws allocator size m = (.error .elements_, m') := by
  simp only [construct, h, initElements, ht, if_true]

/-- **Something throws after the first initialiser**: what that one has
allocated is left as it is. -/
theorem construct_error (h : initStates c throws allocator (c.size_ size) m = (.ok states_, m'))
    (hu : ¬ Undisturbed c throws size) :
    ∃ e elements alive, construct c throws allocator size m =
      (.error e, ⟨m'.states, elements, alive⟩) := by
  by_cases ht : throws .elements_ = true
  · exact ⟨_, _, _, construct_elements_throw h ht⟩
  · have hthrow : ∃ j, 0 ≤ j ∧ j < 0 + (c.size_ size).toNat ∧
        elementThrows c throws (.element j) = true := by
      by_contra hno
      refine hu ⟨Bool.not_eq_true _ ▸ ht, fun k hk => ?_⟩
      by_contra hk'
      exact hno ⟨k, Nat.zero_le k, by omega, Bool.not_eq_false _ ▸ hk'⟩
    -- the loop stops at the first that throws
    have hloop := fun elements : Heap A (ℕ → T) =>
      constructElements_error (m := { m' with elements }) (p := m'.elements.length) hthrow
    obtain ⟨e, alive, heq⟩ := hloop
      (m'.elements.allocate allocator (c.elementCount (c.size_ size)) fun _ => c.initialElement)
    simp only [construct, h, initElements, ht, if_false, heq, Bool.false_eq_true]
    exact ⟨_, _, _, rfl⟩

/-! ## Which are all or nothing -/

/-- Memory that has not changed has been released. -/
theorem released_self (m : Memory A T) : Released m m :=
  ⟨returned_self m.states, returned_self m.elements, rfl⟩

/-- The first allocation of either class throws. -/
theorem allOrNothing_of_error {e : Point}
    (h : construct c throws allocator size m = (.error e, m)) :
    AllOrNothing c throws allocator size m := by
  rw [AllOrNothing, h]
  exact released_self m

/-- **Where nothing throws after the states the constructor takes all or
nothing.** -/
theorem allOrNothing_of_undisturbed (hstates : c.hasStates = true → throws .states_ = false)
    (hu : Undisturbed c throws size) : AllOrNothing c throws allocator size m := by
  cases hs : c.hasStates with
  | false =>
    rw [AllOrNothing, construct_ok (initStates_of_not hs) hu]
    exact ⟨by simp [hs], rfl, by simp [hs], rfl, rfl⟩
  | true =>
    rw [AllOrNothing, construct_ok (initStates_ok hs (hstates hs)) hu]
    exact ⟨by simp [hs], rfl, by simp [hs], rfl, rfl⟩

/-- **The leak**: `states_` is left to nobody. -/
theorem not_allOrNothing (hs : c.hasStates = true) (ht : throws .states_ = false)
    (hu : ¬ Undisturbed c throws size) : ¬ AllOrNothing c throws allocator size m := by
  have hinit : initStates c throws allocator (c.size_ size) m = _ := initStates_ok hs ht
  obtain ⟨e, elements, alive, heq⟩ := construct_error hinit hu
  rw [AllOrNothing, heq]
  exact fun h => not_returned_allocate h.states

/-- **Construction is all or nothing exactly if** the class is
`AtomicQueueB`, or its first allocation throws, or nothing does. -/
theorem allOrNothing_iff (c : BufferClass T) (throws : Point → Bool) (allocator : A) (size : Word)
    (m : Memory A T) :
    AllOrNothing c throws allocator size m ↔
      c.hasStates = false ∨ throws .states_ = true ∨ throws .elements_ = false ∧
        ∀ k < (c.size_ size).toNat, throws (.element k) = false := by
  cases hs : c.hasStates with
  | false =>
    refine iff_of_true ?_ (.inl rfl)
    cases he : throws .elements_ with
    | false =>
      exact allOrNothing_of_undisturbed (by simp [hs]) ⟨he, fun _ _ => elementThrows_of_not hs _⟩
    | true => exact allOrNothing_of_error (construct_elements_throw (initStates_of_not hs) he)
  | true =>
    have hundisturbed : Undisturbed c throws size ↔
        throws .elements_ = false ∧ ∀ k < (c.size_ size).toNat, throws (.element k) = false := by
      rw [Undisturbed, elementThrows_of_states hs]
    cases ht : throws .states_ with
    | true =>
      refine iff_of_true (allOrNothing_of_error (e := .states_) ?_) (.inr (.inl rfl))
      simp only [construct, initStates_error hs ht]
    | false =>
      rw [← hundisturbed]
      constructor
      · intro h
        by_contra hno
        exact not_allOrNothing hs ht (fun hu => hno (.inr (.inr hu))) h
      · rintro (h | h | hu)
        · cases h
        · cases h
        · exact allOrNothing_of_undisturbed (fun _ => ht) hu

/-- An `AtomicQueueB2` whose second allocation throws. -/
theorem allOrNothing_fails :
    ¬ AllOrNothing (⟨64, .and, false, true, .states plain, 8⟩ : BufferClass ℕ)
      (fun e => e = .elements_) () 2 ⟨[], [], []⟩ :=
  not_allOrNothing rfl rfl fun hu => by cases hu.1

/-! ## The constructor that does not throw -/

/-- **Where it does not throw the constructor is the one of the objects and
the buffers.** -/
theorem construct_eq {ι : Type} [DecidableEq ι] {q : BufferQueue A ℕ ℕ}
    (w : Buffers.World ι A T) (n : ι) {alive : List (ℕ × ℕ)}
    (h : construct c throws allocator size ⟨w.states, w.elements, alive⟩ = (.ok q, m')) :
    w.construct c n size allocator =
      ⟨m'.states, m'.elements, Function.update w.objects n (some q)⟩ := by
  have hundisturbed : ∀ {states_ m₁}, initStates c throws allocator (c.size_ size)
      ⟨w.states, w.elements, alive⟩ = (.ok states_, m₁) → Undisturbed c throws size := by
    intro states_ m₁ hinit
    by_contra hu
    obtain ⟨e, elements, alive', heq⟩ := construct_error hinit hu
    cases h.symm.trans heq
  cases hs : c.hasStates with
  | false =>
    have hok := h.symm.trans (construct_ok (initStates_of_not hs)
      (hundisturbed (initStates_of_not hs)))
    obtain ⟨hq, rfl⟩ := Prod.mk.inj hok
    obtain rfl := Except.ok.inj hq
    simp [Buffers.World.construct, hs]
  | true =>
    cases ht : throws .states_ with
    | true =>
      rw [construct] at h
      simp only [initStates_error hs ht] at h
      cases h
    | false =>
      have hok := h.symm.trans (construct_ok (initStates_ok hs ht)
        (hundisturbed (initStates_ok hs ht)))
      obtain ⟨hq, rfl⟩ := Prod.mk.inj hok
      obtain rfl := Except.ok.inj hq
      simp [Buffers.World.construct, hs]

end Construction

end AtomicQueue
