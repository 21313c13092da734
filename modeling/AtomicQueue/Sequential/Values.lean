import AtomicQueue.Sequential.Lists
/-!
# Objects answer by their values

The value of an object is its members with the arrays in the place of the
pointers. A world of values has no buffers: a constructor makes a value,
a call acts on one value, `swap` and move assignment exchange two, and a
move hands one over. The objects are such a world, because no two of them
share a buffer. So two objects exchanged answer as one another did, and an
object's list goes where its buffers go.
-/

namespace AtomicQueue

namespace Buffers

variable {ι A T : Type} [DecidableEq ι] {a b n : ι}

/-- The objects' values. -/
abbrev Values (ι A T : Type) := Objects ι A (ℕ → StateE) (ℕ → T)

def World.values (w : World ι A T) : Values ι A T := fun n => (w.objects n).map w.view

section

variable [DecidableEq T] (c : BufferClass T)

/-- **What an operation is for.** -/
def performValue (v : Values ι A T) (op : Op ι A T) (r : Option (Reply T)) (v' : Values ι A T) :
    Prop :=
  match op with
  | .construct n size allocator =>
    v n = none ∧ r = none ∧ v' = Function.update v n (some (c.constructed size allocator))
  | .call n call =>
    ∃ x r' x', v n = some x ∧ c.Serves x call r' x' ∧ r = some r' ∧
      v' = Function.update v n (some x')
  | .swap a b | .moveAssign a b =>
    (v a).isSome ∧ (v b).isSome ∧ r = none ∧ v' = v ∘ Equiv.swap a b
  | .moveConstruct n b =>
    v n = none ∧ ∃ x, v b = some x ∧ r = none ∧
      v' = Function.update (Function.update v b (some { x with
        size_ := 0, states_ := none, elements_ := none })) n (some x)
  | .destroy n => (v n).isSome ∧ r = none ∧ v' = Function.update v n none

/-- The values, called one after the other. -/
def valueObject : Object (Values ι A T) (Op ι A T) (Option (Reply T)) where
  init _ := none
  call := performValue c

end

/-! ## The value of an object after an operation -/

variable {c : BufferClass T} {w w' : World ι A T} {q : BufferQueue A ℕ ℕ}

omit [DecidableEq ι] in
/-- An object whose buffers hold what they held has the value it had. -/
theorem view_congr (he : ∀ p, q.elements_ = some p → w'.elements.load p = w.elements.load p)
    (hs : ∀ p, q.states_ = some p → w'.states.load p = w.states.load p) :
    w'.view q = w.view q := by
  have helements : q.elements_.bind w'.elements.load = q.elements_.bind w.elements.load := by
    cases h : q.elements_ with
    | none => rfl
    | some p => exact he p h
  have hstates : q.states_.bind w'.states.load = q.states_.bind w.states.load := by
    cases h : q.states_ with
    | none => rfl
    | some p => exact hs p h
  rw [World.view, World.view, helements, hstates]

/-- Where one object is replaced and the others' buffers hold what they
held, one value is replaced. -/
theorem values_update {o : Option (BufferQueue A ℕ ℕ)}
    (hobjects : w'.objects = Function.update w.objects n o)
    (hview : ∀ n' q, n' ≠ n → w.objects n' = some q → w'.view q = w.view q) :
    w'.values = Function.update w.values n (o.map w'.view) := by
  funext n'
  rw [World.values, hobjects]
  rcases eq_or_ne n' n with rfl | hne
  · rw [Function.update_self, Function.update_self]
  · rw [Function.update_of_ne hne, Function.update_of_ne hne, World.values]
    cases h : w.objects n' with
    | none => rfl
    | some q => rw [Option.map_some, Option.map_some, hview n' q hne h]

omit [DecidableEq ι] in
theorem values_eq_none : w.values n = none ↔ w.objects n = none := Option.map_eq_none_iff

omit [DecidableEq ι] in
theorem isSome_values : (w.values n).isSome = (w.objects n).isSome := Option.isSome_map

/-- A store at one place leaves the others. -/
theorem load_storeAt_of_ne {X : Type} {heap : Heap A X} {o : Option ℕ} {x : Option X} {p : ℕ}
    (hne : o ≠ some p) : (World.storeAt heap o x).load p = heap.load p := by
  cases o with
  | none => rfl
  | some p' =>
    cases x with
    | none => rfl
    | some x => exact Heap.load_store_of_ne fun h => hne (congrArg some h)

/-- What an array becomes is read back from it. -/
theorem bind_load_storeAt {X : Type} {heap : Heap A X} {o : Option ℕ} {f : X → X} :
    o.bind (World.storeAt heap o ((o.bind heap.load).map f)).load = (o.bind heap.load).map f := by
  cases o with
  | none => rfl
  | some p =>
    rw [Option.bind_some, Option.bind_some]
    cases h : heap.load p with
    | none => exact h
    | some x =>
      change (heap.store p (f x)).load p = _
      rw [Heap.load_store_self, h]
      rfl

/-- The destructor writes to no array. -/
theorem values_destroy : (w.destroy c n q).values = Function.update w.values n none := by
  have hobjects : (w.destroy c n q).objects = Function.update w.objects n none := rfl
  refine values_update hobjects fun n' q' _ _ => view_congr (fun p _ => ?_) fun p _ => ?_
  · rw [World.destroy]
    cases q.elements_ with
    | none => rfl
    | some p' => exact Heap.load_deallocate
  · rw [World.destroy]
    cases q.elements_ with
    | none => rfl
    | some _ =>
      cases q.states_ with
      | none => rfl
      | some p' => exact Heap.load_deallocate

namespace Owned

omit [DecidableEq ι] in
/-- Objects with other names own other buffers. -/
theorem elements_ne {n' : ι} {q' : BufferQueue A ℕ ℕ} (h : Owned c w) (hne : n' ≠ n)
    (hq : w.objects n = some q) (hq' : w.objects n' = some q') {p : ℕ}
    (hp : q'.elements_ = some p) : q.elements_ ≠ some p := fun hsame =>
  hne (h.elements.unique _ _ _ _ ((handles_eq hq').trans (elementHandle_eq hp))
    ((handles_eq hq).trans (elementHandle_eq hsame)) rfl)

omit [DecidableEq ι] in
/-- No two objects have one block of states. -/
theorem states_ne {n' : ι} {q' : BufferQueue A ℕ ℕ} (h : Owned c w) (hne : n' ≠ n)
    (hq : w.objects n = some q) (hq' : w.objects n' = some q') {p : ℕ}
    (hp : q'.states_ = some p) : q.states_ ≠ some p := fun hsame =>
  hne (h.states.unique _ _ _ _ ((handles_eq hq').trans (stateHandle_eq hp))
    ((handles_eq hq).trans (stateHandle_eq hsame)) rfl)

omit [DecidableEq ι] in
theorem elements_lt (h : Owned c w) (hq : w.objects n = some q) {p : ℕ}
    (hp : q.elements_ = some p) : p < w.elements.length :=
  h.elements.block_lt ((handles_eq hq).trans (elementHandle_eq hp))

omit [DecidableEq ι] in
theorem states_lt (h : Owned c w) (hq : w.objects n = some q) {p : ℕ}
    (hp : q.states_ = some p) : p < w.states.length :=
  h.states.block_lt ((handles_eq hq).trans (stateHandle_eq hp))

/-- **A constructor** adds the value of a fresh queue, -/
theorem values_construct {size : Word} {allocator : A} (h : Owned c w) :
    (w.construct c n size allocator).values =
      Function.update w.values n (some (c.constructed size allocator)) := by
  rw [values_update (w := w) rfl fun n' q _ hq => view_congr (fun p hp => ?_) fun p hp => ?_,
    Option.map_some]
  · congr 2
    rw [World.view, BufferClass.constructed]
    simp only [World.construct, Option.bind_some, Heap.load_allocate_self]
    cases c.hasStates with
    | false => rfl
    | true => simp only [if_true, Option.bind_some, Heap.load_allocate_self]
  · exact Heap.load_allocate_of_lt (h.elements_lt hq hp)
  · rw [World.construct]
    cases c.hasStates with
    | false => rfl
    | true => exact Heap.load_allocate_of_lt (h.states_lt hq hp)

/-- **a call** changes the value of its object as the queue says, -/
theorem values_write [DecidableEq T] {call : Call T} {r : Reply T} {v : BufferValue A T}
    (h : Owned c w) (hq : w.objects n = some q) (hserves : c.Serves (w.view q) call r v) :
    (w.write n q v).values = Function.update w.values n (some v) := by
  obtain ⟨hfits, elements, m, -, -, rfl⟩ := hserves
  rw [values_update (w := w) rfl fun n' q' hne hq' => view_congr
    (fun p hp => load_storeAt_of_ne (h.elements_ne hne hq hq' hp))
    fun p hp => load_storeAt_of_ne (h.states_ne hne hq hq' hp), Option.map_some]
  congr 2
  rw [World.view, BufferClass.put]
  congr 1
  · exact bind_load_storeAt
  · exact bind_load_storeAt

end Owned

/-- **and a move** takes the value over. -/
theorem values_move :
    World.values { w with
      objects := Function.update (Function.update w.objects b (some q.moveConstruct.2)) n
        (some q.moveConstruct.1) } =
      Function.update (Function.update w.values b (some { w.view q with
        size_ := 0, states_ := none, elements_ := none })) n (some (w.view q)) := by
  change Option.map w.view ∘ Function.update (Function.update w.objects b _) n _ = _
  rw [Function.comp_update, Function.comp_update]
  rfl

/-! ## The objects are a world of values -/

variable [DecidableEq T] {op : Op ι A T} {r : Option (Reply T)} {v v' : Values ι A T}
variable {ops : List (Op ι A T)} {rs : List (Option (Reply T))}

/-- **An operation on the objects is one on their values**, and buffers go on
having one owner. -/
theorem Owned.perform (h : Owned c w) (hp : perform c w op r w') :
    Owned c w' ∧ performValue c w.values op r w'.values := by
  cases op with
  | construct n size allocator =>
    obtain ⟨hn, rfl, rfl⟩ := hp
    exact ⟨h.construct hn, values_eq_none.mpr hn, rfl, h.values_construct⟩
  | call n call =>
    obtain ⟨q, r', x, hq, hserves, rfl, rfl⟩ := hp
    exact ⟨h.write hq, w.view q, r', x, congrArg (Option.map w.view) hq, hserves, rfl,
      h.values_write hq hserves⟩
  | swap a b =>
    obtain ⟨ha, hb, rfl, rfl⟩ := hp
    rw [swap_eq ha hb]
    exact ⟨h.exchange _, isSome_values.trans ha, isSome_values.trans hb, rfl, rfl⟩
  | moveAssign a b =>
    obtain ⟨ha, hb, rfl, rfl⟩ := hp
    rw [swap_eq hb ha, Equiv.swap_comm]
    exact ⟨h.exchange _, isSome_values.trans ha, isSome_values.trans hb, rfl, rfl⟩
  | moveConstruct n b =>
    obtain ⟨hn, q, hq, rfl, rfl⟩ := hp
    exact ⟨h.moveConstruct hn hq, values_eq_none.mpr hn, w.view q,
      congrArg (Option.map w.view) hq, rfl, values_move⟩
  | destroy n =>
    obtain ⟨q, hq, rfl, rfl⟩ := hp
    exact ⟨h.destroy hq, isSome_values.trans (Option.isSome_iff_exists.mpr ⟨q, hq⟩), rfl,
      values_destroy⟩

/-- **And the other way round.** -/
theorem Owned.exists_perform (h : Owned c w) (hp : performValue c w.values op r v) :
    ∃ w', Buffers.perform c w op r w' ∧ w'.values = v := by
  cases op with
  | construct n size allocator =>
    obtain ⟨hn, rfl, rfl⟩ := hp
    exact ⟨_, ⟨values_eq_none.mp hn, rfl, rfl⟩, h.values_construct⟩
  | call n call =>
    obtain ⟨x, r', x', hx, hserves, rfl, rfl⟩ := hp
    obtain ⟨q, hq, rfl⟩ := Option.map_eq_some_iff.mp hx
    exact ⟨_, ⟨q, r', x', hq, hserves, rfl, rfl⟩, h.values_write hq hserves⟩
  | swap a b =>
    obtain ⟨ha, hb, rfl, rfl⟩ := hp
    rw [isSome_values] at ha hb
    refine ⟨_, ⟨ha, hb, rfl, rfl⟩, ?_⟩
    rw [swap_eq ha hb]
    rfl
  | moveAssign a b =>
    obtain ⟨ha, hb, rfl, rfl⟩ := hp
    rw [isSome_values] at ha hb
    refine ⟨_, ⟨ha, hb, rfl, rfl⟩, ?_⟩
    rw [swap_eq hb ha, Equiv.swap_comm]
    rfl
  | moveConstruct n b =>
    obtain ⟨hn, x, hx, rfl, rfl⟩ := hp
    obtain ⟨q, hq, rfl⟩ := Option.map_eq_some_iff.mp hx
    exact ⟨_, ⟨values_eq_none.mp hn, q, hq, rfl, rfl⟩, values_move⟩
  | destroy n =>
    obtain ⟨hn, rfl, rfl⟩ := hp
    rw [isSome_values] at hn
    obtain ⟨q, hq⟩ := Option.isSome_iff_exists.mp hn
    exact ⟨_, ⟨q, hq, rfl, rfl⟩, values_destroy⟩

/-- So are sequences of them, -/
theorem Owned.calls (h : Owned c w) (hc : (object c).Calls w ops rs w') :
    Owned c w' ∧ (valueObject c).Calls w.values ops rs w'.values := by
  obtain ⟨v, hcalls, howned, rfl⟩ := Object.Calls.simulate (valueObject c) id
    (fun w v => Owned c w ∧ w.values = v)
    (fun ⟨h, hv⟩ hp => ⟨_, hv ▸ (h.perform hp).2, (h.perform hp).1, rfl⟩) hc ⟨h, rfl⟩
  rw [List.map_id] at hcalls
  exact ⟨howned, hcalls⟩

/-- in both directions. -/
theorem Owned.exists_calls (h : Owned c w) (hc : (valueObject c).Calls w.values ops rs v) :
    ∃ w', (object c).Calls w ops rs w' ∧ w'.values = v := by
  have hstep : ∀ {v : Values ι A T} {w : World ι A T} {op r v'}, (Owned c w ∧ w.values = v) →
      performValue c v op r v' → ∃ w', (object c).call w op r w' ∧ Owned c w' ∧ w'.values = v' := by
    rintro _ w op r v' ⟨h, rfl⟩ hp
    obtain ⟨w', hp', hv'⟩ := h.exists_perform hp
    exact ⟨w', hp', (h.perform hp').1, hv'⟩
  obtain ⟨w', hcalls, -, hv⟩ := Object.Calls.simulate (object c) id
    (fun v w => Owned c w ∧ w.values = v) hstep hc ⟨h, rfl⟩
  rw [List.map_id] at hcalls
  exact ⟨w', hcalls, hv⟩

/-! ## The values are lists -/

/-- What an object's value says of its list. -/
inductive Shows (c : BufferClass T) : Option (BufferValue A T) → Option (Option (ℕ × List T)) → Prop
  | absent : Shows c none none
  | moved (x : BufferValue A T) : Shows c (some x) (some none)
  | holds {x : BufferValue A T} {k : ℕ} {l : List T} (h : c.Holds x k l) :
      Shows c (some x) (some (some (k, l)))

variable {L L' : Lists ι T} {x : BufferValue A T}

omit [DecidableEq ι] in
theorem Shows.isSome_eq {o : Option (BufferValue A T)} {y : Option (Option (ℕ × List T))}
    (h : Shows c o y) : o.isSome = y.isSome := by
  cases h <;> rfl

omit [DecidableEq ι] in
/-- A name without an object shows no list, and only such. -/
theorem Shows.eq_none {o : Option (BufferValue A T)} {y : Option (Option (ℕ × List T))}
    (h : Shows c o y) : o = none ↔ y = none := by
  cases h <;> simp

/-- A value changed shows the list changed. -/
theorem shows_update (h : ∀ n, Shows c (v n) (L n)) {o : Option (BufferValue A T)}
    {y : Option (Option (ℕ × List T))} (hn : Shows c o y) (n' : ι) :
    Shows c (Function.update v n o n') (Function.update L n y n') := by
  rcases eq_or_ne n' n with rfl | hne
  · rwa [Function.update_self, Function.update_self]
  · rw [Function.update_of_ne hne, Function.update_of_ne hne]
    exact h n'

/-- A call of an object with a list. -/
theorem exists_holds (h : ∀ n, Shows c (v n) (L n)) {call : Call T}
    {s : Option (Reply T) × Lists ι T} (hspec : listSpec (A := A) c L (.call n call) = some s) :
    ∃ x k l r l', v n = some x ∧ c.Holds x k l ∧ fifo k l call = some (r, l') ∧
      s = (some r, Function.update L n (some (some (k, l')))) := by
  obtain ⟨⟨k, l⟩, hjoin, hmap⟩ := Option.bind_eq_some_iff.mp hspec
  obtain ⟨⟨r, l'⟩, hfifo, rfl⟩ := Option.map_eq_some_iff.mp hmap
  have hn := h n
  rw [Option.join_eq_some_iff.mp hjoin] at hn
  generalize hx : v n = o at hn
  cases hn with
  | holds hholds => exact ⟨_, k, l, r, l', rfl, hholds, hfifo, rfl⟩

/-- **What values answer is what the lists do**, and the lists follow the
values. -/
theorem values_refine_lists :
    (valueObject c).Refines (listSpec c) (Op.Admitted c)
      fun (v : Values ι A T) L => ∀ n, Shows c (v n) (L n) where
  sound {v L op r L' r' v'} hrel hadm hspec hcall := by
    cases op with
    | construct n size allocator =>
      obtain ⟨-, rfl, rfl⟩ := hcall
      obtain ⟨-, heq⟩ := Option.ite_none_right_eq_some.mp hspec
      cases heq
      exact ⟨rfl, shows_update hrel (.holds (.constructed allocator hadm))⟩
    | call n call =>
      obtain ⟨x, k, l, r₁, l', hx, hholds, hfifo, heq⟩ := exists_holds hrel hspec
      obtain ⟨x', r₂, v₂, hx', hserves, rfl, rfl⟩ := hcall
      cases heq
      obtain rfl : x = x' := Option.some.inj (hx.symm.trans hx')
      obtain ⟨rfl, hnext⟩ := hholds.serves hfifo hserves
      exact ⟨rfl, shows_update hrel (.holds hnext)⟩
    | swap a b | moveAssign a b =>
      obtain ⟨-, -, rfl, rfl⟩ := hcall
      obtain ⟨-, heq⟩ := Option.ite_none_right_eq_some.mp hspec
      cases heq
      exact ⟨rfl, fun n => hrel (Equiv.swap a b n)⟩
    | moveConstruct n b =>
      obtain ⟨-, x, hx, rfl, rfl⟩ := hcall
      obtain ⟨-, hmap⟩ := Option.ite_none_right_eq_some.mp hspec
      obtain ⟨y, hy, heq⟩ := Option.map_eq_some_iff.mp hmap
      cases heq
      have hb := hrel b
      rw [hx, hy] at hb
      exact ⟨rfl, shows_update (shows_update hrel (.moved _)) hb⟩
    | destroy n =>
      obtain ⟨-, rfl, rfl⟩ := hcall
      obtain ⟨-, heq⟩ := Option.ite_none_right_eq_some.mp hspec
      cases heq
      exact ⟨rfl, shows_update hrel .absent⟩
  total {v L op r L'} hrel hadm hspec := by
    cases op with
    | construct n size allocator =>
      obtain ⟨hn, -⟩ := Option.ite_none_right_eq_some.mp hspec
      exact ⟨_, _, (hrel n).eq_none.mpr hn, rfl, rfl⟩
    | call n call =>
      obtain ⟨x, k, l, r₁, l', hx, hholds, hfifo, -⟩ := exists_holds hrel hspec
      obtain ⟨r', x', hserves⟩ := hholds.exists_serves hadm hfifo
      exact ⟨_, _, x, r', x', hx, hserves, rfl, rfl⟩
    | swap a b | moveAssign a b =>
      obtain ⟨⟨ha, hb⟩, -⟩ := Option.ite_none_right_eq_some.mp hspec
      exact ⟨_, _, (hrel a).isSome_eq.trans ha, (hrel b).isSome_eq.trans hb, rfl, rfl⟩
    | moveConstruct n b =>
      obtain ⟨hn, hmap⟩ := Option.ite_none_right_eq_some.mp hspec
      obtain ⟨y, hy, -⟩ := Option.map_eq_some_iff.mp hmap
      have hb : (v b).isSome := (hrel b).isSome_eq.trans (hy ▸ rfl)
      obtain ⟨x, hx⟩ := Option.isSome_iff_exists.mp hb
      exact ⟨_, _, (hrel n).eq_none.mpr hn, x, hx, rfl, rfl⟩
    | destroy n =>
      obtain ⟨hn, -⟩ := Option.ite_none_right_eq_some.mp hspec
      exact ⟨_, _, (hrel n).isSome_eq.trans hn, rfl, rfl⟩

/-! ## Names do not matter -/

/-- The operation on the objects of these names. -/
def Op.rename (f : ι → ι) : Op ι A T → Op ι A T
  | .construct n size allocator => .construct (f n) size allocator
  | .call n c => .call (f n) c
  | .swap a b => .swap (f a) (f b)
  | .moveConstruct n b => .moveConstruct (f n) (f b)
  | .moveAssign a b => .moveAssign (f a) (f b)
  | .destroy n => .destroy (f n)

omit [DecidableEq T] in
theorem Op.rename_swap (op : Op ι A T) :
    (op.rename (Equiv.swap a b)).rename (Equiv.swap a b) = op := by
  cases op <;> simp [Op.rename]

omit [DecidableEq T] in
theorem comp_swap_comp (v : Values ι A T) (e : Equiv.Perm ι) :
    (v ∘ Equiv.swap a b) ∘ e = (v ∘ e) ∘ Equiv.swap (e.symm a) (e.symm b) := by
  funext n
  have hswap : e (Equiv.swap (e.symm a) (e.symm b) n) = Equiv.swap a b (e n) := by
    rw [← Equiv.symm_trans_swap_trans a b e.symm, Equiv.trans_apply, Equiv.trans_apply,
      Equiv.symm_symm, Equiv.apply_symm_apply]
  exact congrArg v hswap.symm

/-- **Renamed objects do renamed operations.** -/
theorem performValue_rename (e : Equiv.Perm ι) (h : performValue c v op r v') :
    performValue c (v ∘ e) (op.rename e.symm) r (v' ∘ e) := by
  have hat : ∀ n, (v ∘ e) (e.symm n) = v n := fun n => congrArg v (e.apply_symm_apply n)
  cases op with
  | construct n size allocator =>
    obtain ⟨hn, rfl, rfl⟩ := h
    exact ⟨(hat n).trans hn, rfl, Function.update_comp_equiv ..⟩
  | call n call =>
    obtain ⟨x, r', x', hx, hserves, rfl, rfl⟩ := h
    exact ⟨x, r', x', (hat n).trans hx, hserves, rfl, Function.update_comp_equiv ..⟩
  | swap a b | moveAssign a b =>
    obtain ⟨ha, hb, rfl, rfl⟩ := h
    exact ⟨(hat a).symm ▸ ha, (hat b).symm ▸ hb, rfl, comp_swap_comp v e⟩
  | moveConstruct n b =>
    obtain ⟨hn, x, hx, rfl, rfl⟩ := h
    refine ⟨(hat n).trans hn, x, (hat b).trans hx, rfl, ?_⟩
    rw [Function.update_comp_equiv, Function.update_comp_equiv]
  | destroy n =>
    obtain ⟨hn, rfl, rfl⟩ := h
    exact ⟨(hat n).symm ▸ hn, rfl, Function.update_comp_equiv ..⟩

/-- Objects may be renamed before the calls or after. -/
theorem calls_rename (e : Equiv.Perm ι) (h : (valueObject c).Calls v ops rs v') :
    (valueObject c).Calls (v ∘ e) (ops.map (Op.rename e.symm)) rs (v' ∘ e) := by
  obtain ⟨_, hcalls, rfl⟩ := Object.Calls.simulate (valueObject c) (Op.rename e.symm)
    (fun v u => u = v ∘ e) (fun hu hp => ⟨_, hu ▸ performValue_rename e hp, rfl⟩) h rfl
  exact hcalls

/-- **Exchanged objects answer as one another did.** -/
theorem Owned.exchange_answers (h : Owned c w) {w₁ : World ι A T}
    (hs : Buffers.perform c w (.swap a b) none w₁) :
    (∃ w₂, (object c).Calls w₁ ops rs w₂) ↔
      ∃ w₂, (object c).Calls w (ops.map (Op.rename (Equiv.swap a b))) rs w₂ := by
  obtain ⟨h₁, -, -, -, hvalues⟩ := h.perform hs
  constructor
  · rintro ⟨w₂, hcalls⟩
    -- what answers after the exchange are the values of before, renamed
    have hrenamed := calls_rename (Equiv.swap a b) (h₁.calls hcalls).2
    rw [hvalues, Function.comp_assoc, ← Equiv.coe_trans, Equiv.swap_swap,
      Equiv.symm_swap] at hrenamed
    obtain ⟨w₃, hcalls', -⟩ := h.exists_calls hrenamed
    exact ⟨w₃, hcalls'⟩
  · rintro ⟨w₂, hcalls⟩
    have hrenamed := calls_rename (Equiv.swap a b) (h.calls hcalls).2
    have hsame : (Op.rename (Equiv.swap a b) ∘ Op.rename (Equiv.swap a b) : Op ι A T → Op ι A T)
        = id := funext Op.rename_swap
    rw [← hvalues, Equiv.symm_swap, List.map_map, hsame, List.map_id] at hrenamed
    obtain ⟨w₃, hcalls', -⟩ := h₁.exists_calls hrenamed
    exact ⟨w₃, hcalls'⟩

/-- **Value semantics and single ownership.** After any sequence of
operations every buffer is owned by one object, as it was allocated, or
was deallocated once and as it was allocated, which is so of every buffer
once no object is left; what each object holds and answers is its value,
which is a bounded list wherever lists have an answer; and two objects that
are exchanged answer as one another would have. -/
theorem buffers_follow_values (h : (object c).Calls (.init : World ι A T) ops rs w) :
    Owned c w ∧
      (∀ p b, w.elements[p]? = some b → b.freed = [] →
        ∃! n, handles (elementHandle c) w.objects n = some ⟨p, b.allocator, b.count⟩) ∧
      (∀ p b, w.states[p]? = some b → b.freed = [] →
        ∃! n, handles stateHandle w.objects n = some ⟨p, b.allocator, b.count⟩) ∧
      (valueObject c).Calls (fun _ => none) ops rs w.values ∧
      (∀ rs' L, Object.replies (listSpec c) (fun _ => none) ops = some (rs', L) →
        (∀ op ∈ ops, op.Admitted c) → rs = rs' ∧ ∀ n, Shows c (w.values n) (L n)) ∧
      ((∀ n, w.objects n = none) → (∀ b ∈ w.elements, b.freed = [(b.allocator, b.count)]) ∧
        ∀ b ∈ w.states, b.freed = [(b.allocator, b.count)]) ∧
      ∀ a b w₁, Buffers.perform c w (.swap a b) none w₁ → ∀ ops' rs',
        (∃ w₂, (object c).Calls w₁ ops' rs' w₂) ↔
          ∃ w₂, (object c).Calls w (ops'.map (Op.rename (Equiv.swap a b))) rs' w₂ := by
  obtain ⟨howned, hvalues⟩ := Owned.init.calls h
  refine ⟨howned, fun p b => howned.elements.exists_unique, fun p b => howned.states.exists_unique,
    hvalues, fun rs' L hspec hadm => ?_, fun hnone => ⟨fun b hb => ?_, fun b hb => ?_⟩,
    fun a b w₁ hs ops' rs' => howned.exchange_answers hs⟩
  · exact values_refine_lists.replies_eq (fun _ => .absent) hadm hspec hvalues
  · exact howned.elements.freed_eq (fun n => by rw [handles, hnone n, Option.bind_none]) hb
  · exact howned.states.freed_eq (fun n => by rw [handles, hnone n, Option.bind_none]) hb

/-! ## A worked run -/

/-- An `AtomicQueueB` of four-byte elements. -/
def wordBuffers : BufferClass ℕ := ⟨16, .and, false, true, .atomic 0, 4⟩

/-- Two queues with the allocators `7` and `8`, two elements pushed into the
first. They are swapped, the second pops one of the elements, is moved to a
third object, which pops the other, and all are destroyed after another
self-assignment: every buffer was deallocated once, by its allocator and
count. -/
theorem buffers_follow_values_run :
    ∃ w : World (Fin 3) ℕ ℕ,
      (object wordBuffers).Calls .init
        [.construct 0 2 7, .construct 1 2 8, .call 0 (.tryPush 5), .call 0 (.push 6), .swap 0 1,
          .call 1 (.tryPop 0), .call 0 (.tryPop 0), .moveConstruct 2 1, .call 2 .wasSize,
          .call 2 .pop, .destroy 2, .destroy 1, .moveAssign 0 0, .destroy 0]
        [none, none, some (.tryPush true none), some .push, none, some (.tryPop true 5),
          some (.tryPop false 0), none, some (.size 1), some (.pop 6), none, none, none, none] w ∧
      Owned wordBuffers w ∧ ∀ b ∈ w.elements, b.freed = [(b.allocator, b.count)] := by
  obtain ⟨L, hspec, hnone⟩ : ∃ L : Lists (Fin 3) ℕ,
      Object.replies (listSpec (A := ℕ) wordBuffers) (fun _ => none)
        [.construct 0 2 7, .construct 1 2 8, .call 0 (.tryPush 5), .call 0 (.push 6), .swap 0 1,
          .call 1 (.tryPop 0), .call 0 (.tryPop 0), .moveConstruct 2 1, .call 2 .wasSize,
          .call 2 .pop, .destroy 2, .destroy 1, .moveAssign 0 0, .destroy 0] =
        some ([none, none, some (.tryPush true none), some .push, none, some (.tryPop true 5),
          some (.tryPop false 0), none, some (.size 1), some (.pop 6), none, none, none, none], L) ∧
      ∀ n, L n = none := ⟨_, rfl, by decide⟩
  obtain ⟨v, hvalues⟩ := values_refine_lists.exists_calls (fun _ => .absent) (by decide) hspec
  obtain ⟨w, hcalls, -⟩ := Owned.init.exists_calls hvalues
  obtain ⟨howned, -, -, -, hlists, hfreed, -⟩ := buffers_follow_values hcalls
  obtain ⟨-, hshows⟩ := hlists _ L hspec (by decide)
  refine ⟨w, hcalls, howned, (hfreed fun n => ?_).1⟩
  rw [← values_eq_none, (hshows n).eq_none, hnone]

end Buffers

end AtomicQueue
