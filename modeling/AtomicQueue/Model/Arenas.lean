import AtomicQueue.Common.Machine
import AtomicQueue.Model.HugePages
/-!
# Arenas and the blocks alive in them

The members of `HugePages` that a user calls, and arenas that are mapped,
allocated from, reset and swapped. `deallocate` is called on the arena that
holds the block and with the block's own size. Where it calls `std::abort`
there is no next step.
-/

namespace AtomicQueue

namespace HugePages

/-! ## Mapping the memory -/

/-- `Type`. -/
inductive PageType
  | pageDefault
  | page2MB
  | page1GB
  deriving DecidableEq

def PageType.pageSize (default_page_size : Size) : PageType → Size
  | .pageDefault => default_page_size
  | .page2MB => 1 <<< 21
  | .page1GB => 1 <<< 30

/-- `mmap`, of so many bytes in pages of this type. It returns `MAP_FAILED`
where this is `none`. -/
abbrev Mmap := PageType → Size → Option Address

variable (mmap : Mmap) (default_page_size size : Size)

/-- One round of the constructor's loop. -/
def tryMap (t : PageType) : Option HugePages :=
  let page_size := t.pageSize default_page_size
  -- rounded up to the page size
  let total_size := (size + (page_size - 1)) &&& ~~~(page_size - 1)
  (mmap t total_size).map fun p => { beg_ := p, cur_ := p, end_ := p + total_size }

/-- `HugePages(t, size)`, with smaller pages where there are none of the
larger. It throws `std::system_error` where this is `none`. -/
def construct : PageType → Option HugePages
  | .page1GB =>
    tryMap mmap default_page_size size .page1GB <|>
      (tryMap mmap default_page_size size .page2MB <|>
        tryMap mmap default_page_size size .pageDefault)
  | .page2MB =>
    tryMap mmap default_page_size size .page2MB <|>
      tryMap mmap default_page_size size .pageDefault
  | .pageDefault => tryMap mmap default_page_size size .pageDefault

/-! ## The other members -/

variable (arena b : HugePages)

/-- `allocate(size)` with the arena it leaves behind, also where it throws
`std::bad_alloc`. -/
def allocateThrowing : Option Address × HugePages :=
  let r := arena.allocateNothrow size
  if r.1 = 0 then (none, r.2) else (some r.1, r.2)

def reset : HugePages := { arena with cur_ := arena.beg_ }

def empty : Bool := arena.cur_ == arena.beg_

def available : Size := arena.end_ - arena.cur_

def capacity : Size := arena.end_ - arena.beg_

/-- `swap(b)`: the two afterwards. -/
def swap : HugePages × HugePages :=
  ({ cur_ := b.cur_, end_ := b.end_, beg_ := b.beg_ },
    { cur_ := arena.cur_, end_ := arena.end_, beg_ := arena.beg_ })

/-- With or without the arena that a throw leaves, `allocate` is the same. -/
theorem allocate_eq :
    arena.allocate size =
      (arena.allocateThrowing size).1.map fun p => (p, (arena.allocateThrowing size).2) := by
  unfold allocate allocateThrowing
  dsimp only
  split <;> rfl

end HugePages

namespace Arenas

open HugePages

variable {κ : Type} [DecidableEq κ]

/-- The arenas, and the history: the blocks alive in each with their sizes,
in the order of their allocation. -/
structure World (κ : Type) where
  arena : κ → HugePages
  live : κ → List (Address × Size)

inductive Action (κ : Type)
  | allocateNothrow (k : κ) (size : Size)
  | allocate (k : κ) (size : Size)
  | deallocate (k : κ) (p : Address) (size : Size)
  | reset (k : κ)
  | swap (k k' : κ)

def World.step (w : World κ) : Action κ → Option (World κ)
  | .allocateNothrow k size =>
    if 1 ≤ size then
      let r := (w.arena k).allocateNothrow size
      some ⟨Function.update w.arena k r.2,
        if r.1 = 0 then w.live else Function.update w.live k (w.live k ++ [(r.1, size)])⟩
    else none
  | .allocate k size =>
    if 1 ≤ size then
      let r := (w.arena k).allocateThrowing size
      some ⟨Function.update w.arena k r.2,
        match r.1 with
        | none => w.live
        | some p => Function.update w.live k (w.live k ++ [(p, size)])⟩
    else none
  | .deallocate k p size =>
    if (p, size) ∈ w.live k then
      ((w.arena k).deallocate p size).map fun arena =>
        ⟨Function.update w.arena k arena,
          Function.update w.live k ((w.live k).erase (p, size))⟩
    else none
  | .reset k =>
    some ⟨Function.update w.arena k (w.arena k).reset, Function.update w.live k []⟩
  | .swap k k' =>
    let r := (w.arena k).swap (w.arena k')
    some ⟨Function.update (Function.update w.arena k r.1) k' r.2, w.live ∘ Equiv.swap k k'⟩

/-- **The arenas as a transition system**, from those given, all empty. -/
def machine (arena : κ → HugePages) : Machine (World κ) (Action κ) where
  init := ⟨arena, fun _ => []⟩
  step := World.step

end Arenas

end AtomicQueue
