import AtomicQueue.Sequential.Ownership
import AtomicQueue.Sequential.Classes
/-!
# A queue that owns its buffers is a list

A call writes its memory back to the members and the arrays, where the next
call reads it. So the value of a queue holds a list, its calls do to it what
they do to a bounded list, and the list goes where the value goes.
-/

namespace AtomicQueue

variable {A T : Type} [DecidableEq T] {c : BufferClass T} {v v' : BufferValue A T}
variable {n : ℕ} {l l' : List T} {call : Call T} {r r' : Reply T}

/-- A slot written to the arrays is read back. -/
theorem Derived.cellOf_eq (D : Derived T) (cell : D.layout.Cell) :
    D.cellOf (D.stateOf cell) (D.elementOf cell) = cell := by
  obtain ⟨_, _, _, _ | _⟩ := D <;> rfl

namespace BufferClass

/-- The elements that the class takes. -/
def admits (c : BufferClass T) (x : T) : Bool :=
  match c.elements with
  | .atomic nil_ => x ≠ nil_
  | .states _ => true

def Admits (c : BufferClass T) : Call T → Prop
  | .tryPush x | .push x => c.admits x = true
  | _ => True

instance : DecidablePred c.Admits
  | .tryPush x | .push x => inferInstanceAs (Decidable (c.admits x = true))
  | .tryPop _ | .pop | .wasSize | .wasEmpty | .wasFull => isTrue trivial

theorem admits_derived {size_ : Word} (h : c.Fits size_) :
    (c.derived size_ h).layout.admits = c.admits := by
  obtain ⟨_, _, _, _, _ | _, _⟩ := c <;> rfl

theorem Admits.derived {size_ : Word} (h : c.Fits size_) (hadm : c.Admits call) :
    (c.derived size_ h).Admits call := by
  cases call with
  | tryPush x | push x => exact (congrFun (admits_derived h) x).trans hadm
  | _ => trivial

/-- Slots without `states_` have no state. -/
theorem stateOf_of_atomic {size_ : Word} (h : c.Fits size_) (hstates : c.hasStates = false)
    {cell : (c.derived size_ h).layout.Cell} : (c.derived size_ h).stateOf cell = .EMPTY := by
  obtain ⟨_, _, _, _, _ | _, _⟩ := c
  · rfl
  · cases hstates

/-- **What a call leaves is what the next one finds.** -/
theorem mem_put {elements : ℕ → T} (h : c.Fits v.size_) (m : Mem (c.derived v.size_ h))
    (hstates : v.states_.isSome = c.hasStates) (helements : v.elements_ = some elements) :
    ∃ elements', (c.put v h m).elements_ = some elements' ∧
      c.mem (c.put v h m) h elements' = m := by
  have hstate : ∀ i : Fin v.size_.toNat, ((c.put v h m).states_.map (· i)).getD .EMPTY =
      (c.derived v.size_ h).stateOf (m.cell i) := by
    intro i
    cases hv : v.states_ with
    | none =>
      rw [hv] at hstates
      rw [stateOf_of_atomic h hstates.symm, put, hv]
      rfl
    | some states =>
      rw [put, hv]
      exact dif_pos i.isLt
  refine ⟨_, congrArg (Option.map _) helements, ?_⟩
  change Mem.mk m.head_ m.tail_ _ = m
  congr 1
  funext i
  exact (congrArg₂ (c.derived v.size_ h).cellOf (hstate i) (dif_pos i.isLt)).trans
    (Derived.cellOf_eq _ _)

/-- **The queue holds a list** of at most `n` elements. -/
structure Holds (c : BufferClass T) (v : BufferValue A T) (n : ℕ) (l : List T) : Prop where
  slots : v.size_.toNat = n
  powerOfTwo : ∃ k, n = 2 ^ k
  lt : n < 2 ^ 31
  states : v.states_.isSome = c.hasStates
  list : ∃ (h : c.Fits v.size_) (elements : ℕ → T) (p : ℕ), v.elements_ = some elements ∧
    Represents (c.derived v.size_ h) (c.mem v h elements) p l

omit [DecidableEq T] in
/-- Where the list has a reply, so has that of the ring. -/
theorem ringFifo_of_fifo {R : Ring} (hpow : R.PowerOfTwo) (p : ℕ)
    (hfifo : fifo R.slots l call = some (r, l')) :
    ∃ p', ringFifo R (p, l) call = some (r, p', l') := by
  rw [← ringFifo_of_powerOfTwo hpow (p, l)] at hfifo
  obtain ⟨⟨r', p', l''⟩, hring, heq⟩ := Option.map_eq_some_iff.mp hfifo
  cases heq
  exact ⟨p', hring⟩

/-- **Its calls do what those of the list do**, -/
theorem Holds.serves (h : c.Holds v n l) (hfifo : fifo n l call = some (r, l'))
    (hserves : c.Serves v call r' v') : r' = r ∧ c.Holds v' n l' := by
  obtain ⟨hfits, elements, p, helements, hrep⟩ := h.list
  obtain ⟨_, elements', m, helements', hcall, rfl⟩ := hserves
  obtain rfl : elements = elements' := Option.some.inj (helements.symm.trans helements')
  obtain rfl := h.slots
  obtain ⟨p', hring⟩ := ringFifo_of_fifo (R := (c.derived v.size_ hfits).ring) h.powerOfTwo p hfifo
  obtain ⟨hr, hrep', -⟩ := hrep.reply_eq h.lt hring hcall
  obtain ⟨elements', hput, hmem⟩ := mem_put hfits m h.states helements
  rw [← hmem] at hrep'
  refine ⟨hr, rfl, h.powerOfTwo, h.lt, ?_, hfits, elements', p', hput, hrep'⟩
  exact (Option.isSome_map ..).trans h.states

/-- and there is one wherever the list replies. -/
theorem Holds.exists_serves (h : c.Holds v n l) (hadm : c.Admits call)
    (hfifo : fifo n l call = some (r, l')) : ∃ r' v', c.Serves v call r' v' := by
  obtain ⟨hfits, elements, p, helements, hrep⟩ := h.list
  obtain rfl := h.slots
  obtain ⟨p', hring⟩ := ringFifo_of_fifo (R := (c.derived v.size_ hfits).ring) h.powerOfTwo p hfifo
  obtain ⟨r', m, hcall⟩ := (object_refines h.lt).total (a := (p, l)) hrep (hadm.derived hfits) hring
  exact ⟨r', _, hfits, elements, m, helements, hcall, rfl⟩

omit [DecidableEq T] in
/-- The array length as constructed is a power of two. -/
theorem exists_pow_size_ (c : BufferClass T) (size : Word) : ∃ k, (c.size_ size).toNat = 2 ^ k :=
  (Ring.MinimizesContention.buffer size c.elementsPerCacheLine c.remapper).powerOfTwo

/-- A queue as constructed. -/
theorem mem_constructed {size : Word} {allocator : A} (h : c.Fits (c.size_ size)) :
    c.mem (c.constructed size allocator) h (fun _ => c.initialElement) =
      (c.derived (c.size_ size) h).fresh := by
  obtain ⟨_, _, _, _, _ | _, _⟩ := c <;> rfl

/-- **It holds the empty list.** -/
theorem Holds.constructed {size : Word} (allocator : A) (hlt : (c.size_ size).toNat < 2 ^ 31) :
    c.Holds (c.constructed size allocator) (c.size_ size).toNat [] where
  slots := rfl
  powerOfTwo := c.exists_pow_size_ size
  lt := hlt
  states := by
    rw [BufferClass.constructed]
    cases c.hasStates <;> rfl
  list := by
    refine ⟨Buffers.fits_size_ c size, fun _ => c.initialElement, 0, rfl, ?_⟩
    rw [mem_constructed]
    exact Represents.fresh _

/-- **It takes an element.** -/
theorem exists_serves_constructed {n : Word} {a : A} {x : T} (hlt : (c.size_ n).toNat < 2 ^ 31)
    (hx : c.admits x = true) :
    ∃ v, c.Serves (c.constructed n a) (.tryPush x) (.tryPush true none) v := by
  have hadm : c.Admits (.tryPush x) := hx
  have hfifo : fifo (c.size_ n).toNat [] (.tryPush x) = some (.tryPush true none, [x]) :=
    if_pos (Buffers.fits_size_ c n).1
  have hholds := Holds.constructed a hlt
  obtain ⟨r, v, hserves⟩ := hholds.exists_serves hadm hfifo
  obtain ⟨rfl, -⟩ := hholds.serves hfifo hserves
  exact ⟨v, hserves⟩

end BufferClass

namespace Buffers

variable {ι : Type} [DecidableEq ι]

/-- The lists that objects hold, with the most elements that each may have.
An object that was moved from holds none. -/
abbrev Lists (ι T : Type) := ι → Option (Option (ℕ × List T))

/-- **What an operation does to the lists.** It says nothing of a call that
waits for another thread, nor of one of an object that was moved from. -/
def listSpec (c : BufferClass T) (L : Lists ι T) : Op ι A T → Option (Option (Reply T) × Lists ι T)
  | .construct n size _ =>
    if L n = none then
      some (none, Function.update L n (some (some ((c.size_ size).toNat, []))))
    else none
  | .call n call =>
    (L n).join.bind fun q => (fifo q.1 q.2 call).map fun s =>
      (some s.1, Function.update L n (some (some (q.1, s.2))))
  | .swap a b | .moveAssign a b =>
    if (L a).isSome ∧ (L b).isSome then some (none, L ∘ Equiv.swap a b) else none
  | .moveConstruct n b =>
    if L n = none then
      (L b).map fun o => (none, Function.update (Function.update L b (some none)) n (some o))
    else none
  | .destroy n => if (L n).isSome then some (none, Function.update L n none) else none

/-- The sizes are ones for which the queue takes elements, and so are the
elements. -/
def Op.Admitted (c : BufferClass T) : Op ι A T → Prop
  | .construct _ size _ => (c.size_ size).toNat < 2 ^ 31
  | .call _ call => c.Admits call
  | _ => True

instance : DecidablePred (Op.Admitted (ι := ι) (A := A) c)
  | .construct _ size _ => inferInstanceAs (Decidable ((c.size_ size).toNat < 2 ^ 31))
  | .call _ call => inferInstanceAs (Decidable (c.Admits call))
  | .swap _ _ | .moveConstruct _ _ | .moveAssign _ _ | .destroy _ => isTrue trivial

end Buffers

end AtomicQueue
