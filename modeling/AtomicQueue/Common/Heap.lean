import Mathlib.Data.List.Basic
import Mathlib.Logic.Equiv.Basic
import Mathlib.Tactic.Common
/-!
# Blocks of memory and their owners

A heap is the list of all blocks ever allocated, so that a block is named
by the number of its allocation. A block remembers how it was allocated,
and how it was deallocated since. `OwnedBy` says that every block is in
one pair of hands until it is deallocated, and is deallocated once and as
it was allocated; it is kept where owners allocate, deallocate what they
own, write to blocks, and hand blocks to one another.
-/

/-- A block, with the allocator and the count it was allocated with and
those of its deallocations. -/
structure Block (A X : Type*) where
  allocator : A
  count : ℕ
  data : X
  freed : List (A × ℕ)

abbrev Heap (A X : Type*) := List (Block A X)

/-- What a block's owner keeps of it, and deallocates it with. -/
structure Handle (A : Type*) where
  block : ℕ
  allocator : A
  count : ℕ

namespace Heap

variable {A X ι : Type*} {h : Heap A X} {a : A} {k p : ℕ} {x : X} {c : Handle A} {b : Block A X}

/-- **An allocation** is owned by who made it, -/
def allocate (h : Heap A X) (a : A) (k : ℕ) (x : X) : Heap A X := h ++ [⟨a, k, x, []⟩]

/-- **a deallocation** by who owns the block leaves the others theirs, -/
def deallocate (h : Heap A X) (c : Handle A) : Heap A X :=
  h.modify c.block fun b => { b with freed := b.freed ++ [(c.allocator, c.count)] }

def load (h : Heap A X) (p : ℕ) : Option X := h[p]?.map Block.data

/-- **and a store** changes no owner. -/
def store (h : Heap A X) (p : ℕ) (x : X) : Heap A X := h.modify p fun b => { b with data := x }

/-! ## What is read back -/

/-- A block allocated holds what it was given, -/
theorem load_allocate_self : (h.allocate a k x).load h.length = some x := by
  rw [load, allocate, List.getElem?_concat_length]
  rfl

/-- and the others hold what they did. -/
theorem load_allocate_of_lt (hp : p < h.length) : (h.allocate a k x).load p = h.load p := by
  rw [load, allocate, List.getElem?_append_left hp, load]

/-- Deallocated memory is not written to. -/
theorem load_deallocate : (h.deallocate c).load p = h.load p := by
  rw [load, deallocate, List.getElem?_modify, load]
  cases h[p]? with
  | none => rfl
  | some b => by_cases hp : c.block = p <;> simp [hp]

/-- A store changes the block it is to, -/
theorem load_store_self : (h.store p x).load p = (h.load p).map fun _ => x := by
  rw [load, store, List.getElem?_modify_eq, load]
  cases h[p]? <;> rfl

/-- and no other. -/
theorem load_store_of_ne {p' : ℕ} (hne : p' ≠ p) : (h.store p' x).load p = h.load p := by
  rw [load, store, List.getElem?_modify_ne _ _ hne, load]

/-! ## Ownership -/

/-- **Every block has one owner or was deallocated once**, as it was
allocated either way. -/
structure OwnedBy (h : Heap A X) (handle : ι → Option (Handle A)) : Prop where
  /-- An owner's block is there, and is the one it was allocated. -/
  of_handle : ∀ n c, handle n = some c →
    ∃ b, h[c.block]? = some b ∧ b.freed = [] ∧ b.allocator = c.allocator ∧ b.count = c.count
  unique : ∀ n n' c c', handle n = some c → handle n' = some c' → c.block = c'.block → n = n'
  /-- No block is lost, and none is deallocated otherwise or again. -/
  settled : ∀ p b, h[p]? = some b →
    (b.freed = [] ∧ ∃ n c, handle n = some c ∧ c.block = p) ∨ b.freed = [(b.allocator, b.count)]

namespace OwnedBy

variable {handle : ι → Option (Handle A)} {n : ι}

/-- On an empty heap nobody owns a block. -/
theorem nil : OwnedBy ([] : Heap A X) fun _ : ι => none where
  of_handle _ _ hc := by cases hc
  unique _ _ _ _ hc := by cases hc
  settled p b hb := by rw [List.getElem?_nil] at hb; cases hb

theorem block_lt (ho : h.OwnedBy handle) (hc : handle n = some c) : c.block < h.length := by
  obtain ⟨b, hb, -⟩ := ho.of_handle n c hc
  exact (List.getElem?_eq_some_iff.mp hb).1

/-- **What nobody owns any more was deallocated once.** -/
theorem freed_eq (ho : h.OwnedBy handle) (hnone : ∀ n, handle n = none) (hb : b ∈ h) :
    b.freed = [(b.allocator, b.count)] := by
  obtain ⟨p, hp⟩ := List.mem_iff_getElem?.mp hb
  rcases ho.settled p b hp with ⟨-, n, c, hc, -⟩ | hfreed
  · rw [hnone n] at hc
    cases hc
  · exact hfreed

/-- **One owner, by the count and the allocator of the block.** -/
theorem exists_unique (ho : h.OwnedBy handle) (hb : h[p]? = some b) (hlive : b.freed = []) :
    ∃! n, handle n = some ⟨p, b.allocator, b.count⟩ := by
  rcases ho.settled p b hb with ⟨-, n, ⟨p', a, k⟩, hc, rfl⟩ | hfreed
  · obtain ⟨b', hb', -, hall, hcount⟩ := ho.of_handle n _ hc
    obtain rfl : b = b' := Option.some.inj (hb.symm.trans hb')
    change b.allocator = a at hall
    change b.count = k at hcount
    refine ⟨n, by rw [hall, hcount]; exact hc, fun n' hn' => ?_⟩
    exact ho.unique n' n _ _ hn' hc rfl
  · rw [hlive] at hfreed
    cases hfreed

variable [DecidableEq ι]

theorem allocate (ho : h.OwnedBy handle) (hn : handle n = none) :
    (h.allocate a k x).OwnedBy (Function.update handle n (some ⟨h.length, a, k⟩)) := by
  have hself : ∀ {n' c}, Function.update handle n (some ⟨h.length, a, k⟩) n' = some c →
      n' = n ∧ c = ⟨h.length, a, k⟩ ∨ n' ≠ n ∧ handle n' = some c := fun {n' c} hc => by
    rcases eq_or_ne n' n with rfl | hne
    · rw [Function.update_self] at hc
      exact .inl ⟨rfl, (Option.some.inj hc).symm⟩
    · rw [Function.update_of_ne hne] at hc
      exact .inr ⟨hne, hc⟩
  refine ⟨fun n' c hc => ?_, fun n₁ n₂ c₁ c₂ h₁ h₂ heq => ?_, fun p b hb => ?_⟩
  · rcases hself hc with ⟨-, rfl⟩ | ⟨-, hc⟩
    · exact ⟨_, List.getElem?_concat_length, rfl, rfl, rfl⟩
    · obtain ⟨b, hb, hrest⟩ := ho.of_handle n' c hc
      refine ⟨b, ?_, hrest⟩
      rw [Heap.allocate, List.getElem?_append_left (ho.block_lt hc), hb]
  · -- the new block is none of the others
    rcases hself h₁ with ⟨rfl, rfl⟩ | ⟨-, hold₁⟩ <;> rcases hself h₂ with ⟨rfl, rfl⟩ | ⟨-, hold₂⟩
    · rfl
    · have hlt := ho.block_lt hold₂
      simp only at heq
      omega
    · have hlt := ho.block_lt hold₁
      simp only at heq
      omega
    · exact ho.unique _ _ _ _ hold₁ hold₂ heq
  · rcases Nat.lt_trichotomy p h.length with hlt | rfl | hgt
    · rw [Heap.allocate, List.getElem?_append_left hlt] at hb
      refine (ho.settled p b hb).imp_left fun ⟨hfreed, n', c, hc, hp⟩ => ⟨hfreed, n', c, ?_, hp⟩
      rw [Function.update_of_ne, hc]
      rintro rfl
      rw [hn] at hc
      cases hc
    · rw [Heap.allocate, List.getElem?_concat_length] at hb
      cases hb
      exact .inl ⟨rfl, n, _, Function.update_self .., rfl⟩
    · rw [Heap.allocate, List.getElem?_eq_none (by simp; omega)] at hb
      cases hb

theorem deallocate (ho : h.OwnedBy handle) (hn : handle n = some c) :
    (h.deallocate c).OwnedBy (Function.update handle n none) := by
  have hother : ∀ {n' c'}, Function.update handle n none n' = some c' →
      handle n' = some c' ∧ c.block ≠ c'.block := fun {n' c'} hc' => by
    have hne : n' ≠ n := by
      rintro rfl
      rw [Function.update_self] at hc'
      cases hc'
    rw [Function.update_of_ne hne] at hc'
    exact ⟨hc', fun heq => hne (ho.unique _ _ _ _ hc' hn heq.symm)⟩
  refine ⟨fun n' c' hc' => ?_, fun n₁ n₂ c₁ c₂ h₁ h₂ heq => ?_, fun p b hb => ?_⟩
  · obtain ⟨hc', hne⟩ := hother hc'
    obtain ⟨b, hb, hrest⟩ := ho.of_handle n' c' hc'
    refine ⟨b, ?_, hrest⟩
    rw [Heap.deallocate, List.getElem?_modify_ne _ _ hne, hb]
  · exact ho.unique _ _ _ _ (hother h₁).1 (hother h₂).1 heq
  · rcases eq_or_ne c.block p with rfl | hne
    · obtain ⟨b₀, hb₀, hfreed, hall, hcount⟩ := ho.of_handle n c hn
      rw [Heap.deallocate, List.getElem?_modify_eq, hb₀] at hb
      cases hb
      refine .inr ?_
      simp only [hfreed, hall, hcount, List.nil_append]
    · rw [Heap.deallocate, List.getElem?_modify_ne _ _ hne] at hb
      refine (ho.settled p b hb).imp_left fun ⟨hfreed, n', c', hc', hp⟩ => ⟨hfreed, n', c', ?_, hp⟩
      rw [Function.update_of_ne, hc']
      rintro rfl
      obtain rfl : c = c' := Option.some.inj (hn.symm.trans hc')
      exact hne hp

omit [DecidableEq ι] in
theorem store (ho : h.OwnedBy handle) : (h.store p x).OwnedBy handle := by
  refine ⟨fun n c hc => ?_, ho.unique, fun p' b hb => ?_⟩
  · obtain ⟨b, hb, hrest⟩ := ho.of_handle n c hc
    rw [Heap.store, List.getElem?_modify, hb]
    refine ⟨_, rfl, ?_⟩
    split <;> exact hrest
  · rw [Heap.store, List.getElem?_modify, Option.map_eq_map, Option.map_eq_some_iff] at hb
    obtain ⟨b₀, hb₀, rfl⟩ := hb
    have hsettled := ho.settled p' b₀ hb₀
    split <;> exact hsettled

omit [DecidableEq ι] in
/-- Blocks may change hands. -/
theorem comp (ho : h.OwnedBy handle) (e : Equiv.Perm ι) : h.OwnedBy (handle ∘ e) where
  of_handle n c hc := ho.of_handle (e n) c hc
  unique n n' c c' hc hc' heq := e.injective (ho.unique _ _ _ _ hc hc' heq)
  settled p b hb := (ho.settled p b hb).imp_left fun ⟨hfreed, n, c, hc, hp⟩ =>
    ⟨hfreed, e.symm n, c, by rw [Function.comp_apply, e.apply_symm_apply, hc], hp⟩

end OwnedBy

end Heap
