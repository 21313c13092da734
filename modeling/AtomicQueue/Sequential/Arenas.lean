import AtomicQueue.Common.Tiling
import AtomicQueue.Model.Arenas
/-!
# An arena is a stack of blocks

Which blocks are alive is stored nowhere. But the blocks alive in an arena
tile what it has in use, in the order of their allocation, so that the
address `deallocate` computes from `cur_` and the block's size is that of
the block only for the last one.
-/

namespace AtomicQueue

namespace Arenas

open HugePages

variable {arena arena' : HugePages} {live : List (Address × Size)} {b : Address × Size}
variable {size : Size}

/-- The addresses of a block. -/
def extent (b : Address × Size) : ℕ × ℕ := (b.1.toNat, b.1.toNat + b.2.toNat)

/-- Blocks of one extent are the same. -/
theorem extent_injective : Function.Injective extent := by
  intro b b' heq
  obtain ⟨hp, hend⟩ := Prod.mk.inj heq
  have hsize : b.2.toNat = b'.2.toNat := by omega
  exact Prod.ext (BitVec.eq_of_toNat_eq hp) (BitVec.eq_of_toNat_eq hsize)

abbrev span (b : Address × Size) : Set ℕ := Set.Ico (extent b).1 (extent b).2

/-! ## One arena -/

/-- **The blocks alive tile what is in use.** -/
structure Tidy (arena : HugePages) (live : List (Address × Size)) : Prop where
  beg_ne : arena.beg_ ≠ 0
  tiles : Tiles arena.beg_.toNat (live.map extent) arena.cur_.toNat
  cur_le : arena.cur_.toNat ≤ arena.end_.toNat

namespace Tidy

/-- The free part does not begin before the arena, -/
theorem beg_le (h : Tidy arena live) : arena.beg_.toNat ≤ arena.cur_.toNat := h.tiles.le

/-- so that what is available is from there to the end, -/
theorem toNat_available (h : Tidy arena live) :
    arena.available.toNat = arena.end_.toNat - arena.cur_.toNat :=
  BitVec.toNat_sub_of_le (BitVec.le_def.mpr h.cur_le)

/-- and what is used from the beginning to there. -/
theorem toNat_used (h : Tidy arena live) :
    arena.used.toNat = arena.cur_.toNat - arena.beg_.toNat :=
  BitVec.toNat_sub_of_le (BitVec.le_def.mpr h.beg_le)

theorem toNat_capacity (h : Tidy arena live) :
    arena.capacity.toNat = arena.end_.toNat - arena.beg_.toNat :=
  BitVec.toNat_sub_of_le (BitVec.le_def.mpr (h.beg_le.trans h.cur_le))

/-- **What is used and what is available add up to the capacity.** -/
theorem balance (h : Tidy arena live) :
    arena.used.toNat + arena.available.toNat = arena.capacity.toNat := by
  have hbeg := h.beg_le
  have hcur := h.cur_le
  rw [h.toNat_used, h.toNat_available, h.toNat_capacity]
  omega

/-- The next block is not at the null pointer. -/
theorem cur_ne (h : Tidy arena live) : arena.cur_ ≠ 0 := by
  intro hzero
  have hbeg := h.beg_le
  rw [hzero] at hbeg
  exact h.beg_ne (BitVec.eq_of_toNat_eq (Nat.le_zero.mp hbeg))

/-- A block is within the part in use, and has bytes. -/
theorem extent_le (h : Tidy arena live) (hb : b ∈ live) :
    arena.beg_.toNat ≤ b.1.toNat ∧ 0 < b.2.toNat ∧ b.1.toNat + b.2.toNat ≤ arena.cur_.toNat := by
  obtain ⟨hlo, hlt, hhi⟩ := h.tiles.bounds (List.mem_map_of_mem (f := extent) hb)
  simp only [extent] at hlo hlt hhi
  omega

/-- The arena is empty exactly if no block is in use. -/
theorem empty_iff (h : Tidy arena live) : arena.empty ↔ live = [] := by
  rw [HugePages.empty, beq_iff_eq]
  constructor
  · intro heq
    by_contra hne
    obtain ⟨b, hb⟩ := List.exists_mem_of_ne_nil live hne
    have hext := h.extent_le hb
    rw [heq] at hext
    omega
  · rintro rfl
    exact BitVec.eq_of_toNat_eq h.tiles.symm

/-! ### Allocation -/

/-- A block that does not fit is not allocated, -/
theorem allocateNothrow_of_lt (hlt : arena.available < size) :
    arena.allocateNothrow size = (0, arena) :=
  if_pos hlt

/-- and one that fits is the next. -/
theorem allocateNothrow_of_le (hle : ¬ arena.available < size) :
    arena.allocateNothrow size = (arena.cur_, { arena with cur_ := arena.cur_ + size }) :=
  if_neg hle

/-- **There is no room exactly when `size` exceeds what is available.** -/
theorem allocateNothrow_eq_zero_iff (h : Tidy arena live) :
    (arena.allocateNothrow size).1 = 0 ↔ arena.available < size := by
  by_cases hlt : arena.available < size
  · rw [allocateNothrow_of_lt hlt]
    exact iff_of_true rfl hlt
  · rw [allocateNothrow_of_le hlt]
    exact iff_of_false h.cur_ne hlt

/-- The other `allocate` throws where this one returns null, -/
theorem allocateThrowing_fst :
    (arena.allocateThrowing size).1 =
      if (arena.allocateNothrow size).1 = 0 then none else some (arena.allocateNothrow size).1 := by
  rw [allocateThrowing]
  split <;> rfl

/-- and does the same to the arena. -/
theorem allocateThrowing_snd :
    (arena.allocateThrowing size).2 = (arena.allocateNothrow size).2 := by
  rw [allocateThrowing]
  split <;> rfl

/-- The next block lies after those alive. -/
theorem allocate (h : Tidy arena live) (hpos : 1 ≤ size) (hle : ¬ arena.available < size) :
    Tidy { arena with cur_ := arena.cur_ + size } (live ++ [(arena.cur_, size)]) := by
  have hroom : size.toNat ≤ arena.available.toNat := by
    rw [BitVec.lt_def] at hle
    omega
  have hcur := h.cur_le
  have hend := arena.end_.isLt
  rw [h.toNat_available] at hroom
  have hadd : (arena.cur_ + size).toNat = arena.cur_.toNat + size.toNat := by
    rw [BitVec.toNat_add, Nat.mod_eq_of_lt (by omega)]
  have hsize : 1 ≤ size.toNat := hpos
  refine ⟨h.beg_ne, ?_, ?_⟩
  · rw [List.map_append]
    refine Tiles.concat_iff.mpr ⟨h.tiles, ?_, hadd.symm⟩
    simp only [extent]
    omega
  · change (arena.cur_ + size).toNat ≤ arena.end_.toNat
    omega

/-! ### Deallocation -/

/-- **Only the last block can be given back**: with any other the program
aborts. -/
theorem deallocate_eq_some_iff (h : Tidy arena live) (hb : b ∈ live) :
    (arena.deallocate b.1 b.2).isSome ↔ b.1.toNat + b.2.toNat = arena.cur_.toNat := by
  obtain ⟨hlo, hpos, hhi⟩ := h.extent_le hb
  have hlt := arena.cur_.isLt
  have hsub : (arena.cur_ - b.2).toNat = arena.cur_.toNat - b.2.toNat :=
    BitVec.toNat_sub_of_le (BitVec.le_def.mpr (by omega))
  rw [HugePages.deallocate, Option.isSome_ite, ← BitVec.toNat_inj, hsub]
  omega

/-- **Only the last block can be deallocated.** -/
theorem deallocate_isSome_iff (h : Tidy arena live) (hb : b ∈ live) :
    (arena.deallocate b.1 b.2).isSome ↔ live.getLast? = some b := by
  rw [h.deallocate_eq_some_iff hb]
  rcases List.eq_nil_or_concat' live with rfl | ⟨older, t, rfl⟩
  · cases hb
  have htiles := h.tiles
  rw [List.map_append] at htiles
  rw [List.getLast?_concat, Option.some.injEq]
  constructor
  · intro heq
    exact (extent_injective (htiles.eq_last (by simpa using List.mem_map_of_mem (f := extent) hb)
      heq)).symm
  · rintro rfl
    exact (Tiles.concat_iff.mp htiles).2.2

/-- What is left is as tidy. -/
theorem deallocate (h : Tidy arena live) (hb : b ∈ live)
    (hd : arena.deallocate b.1 b.2 = some arena') : Tidy arena' (live.erase b) := by
  have hlast := (h.deallocate_isSome_iff hb).mp (Option.isSome_iff_exists.mpr ⟨_, hd⟩)
  obtain ⟨older, rfl⟩ := List.getLast?_eq_some_iff.mp hlast
  -- so `cur_` goes back to the start of the last block, where the older ones end
  have htiles := h.tiles
  rw [List.map_append] at htiles
  obtain ⟨hinit, -, hcur⟩ := Tiles.concat_iff.mp htiles
  have hnot : b ∉ older := fun hmem => htiles.last_notMem (List.mem_map_of_mem hmem)
  have herase : (older ++ [b]).erase b = older := by
    rw [List.erase_append_right _ hnot, List.erase_cons_head, List.append_nil]
  rw [HugePages.deallocate, Option.ite_none_right_eq_some] at hd
  obtain ⟨hq, heq⟩ := hd
  obtain rfl := Option.some.inj heq
  rw [herase, hq]
  refine ⟨h.beg_ne, hinit, ?_⟩
  have hle := h.cur_le
  simp only [extent] at hcur
  dsimp only
  omega

/-! ### Reset -/

/-- With `reset` all blocks are free. -/
theorem reset (h : Tidy arena live) : Tidy arena.reset [] :=
  ⟨h.beg_ne, rfl, h.beg_le.trans h.cur_le⟩

end Tidy

/-! ## All arenas -/

variable {κ : Type} [DecidableEq κ] {w w' : World κ} {k : κ}

/-- The addresses of an arena. -/
def region (arena : HugePages) : Set ℕ := Set.Ico arena.beg_.toNat arena.end_.toNat

/-- Each arena is tidy, and no two share memory. -/
structure Kept (w : World κ) : Prop where
  tidy : ∀ k, Tidy (w.arena k) (w.live k)
  apart : Pairwise fun k k' => Disjoint (region (w.arena k)) (region (w.arena k'))

/-- What happens in one arena. -/
theorem Kept.update (h : Kept w) (htidy : Tidy arena live)
    (hregion : region arena = region (w.arena k)) :
    Kept ⟨Function.update w.arena k arena, Function.update w.live k live⟩ := by
  have hregions : ∀ k', region (Function.update w.arena k arena k') = region (w.arena k') := by
    intro k'
    rcases eq_or_ne k' k with rfl | hne
    · rw [Function.update_self, hregion]
    · rw [Function.update_of_ne hne]
  refine ⟨fun k' => ?_, fun k₁ k₂ hne => ?_⟩
  · rcases eq_or_ne k' k with rfl | hne
    · simpa only [Function.update_self] using htidy
    · simpa only [Function.update_of_ne hne] using h.tidy k'
  · simpa only [hregions] using h.apart hne

/-- Two arenas trade places, with their blocks. -/
theorem Kept.swap (h : Kept w) (k k' : κ) :
    Kept ⟨Function.update (Function.update w.arena k (w.arena k')) k' (w.arena k),
      w.live ∘ Equiv.swap k k'⟩ := by
  have harena : Function.update (Function.update w.arena k (w.arena k')) k' (w.arena k) =
      w.arena ∘ Equiv.swap k k' := by
    rw [Equiv.swap_comm, Equiv.comp_swap_eq_update]
  rw [harena]
  exact ⟨fun k₁ => h.tidy (Equiv.swap k k' k₁),
    fun k₁ k₂ hne => h.apart ((Equiv.swap k k').injective.ne hne)⟩

/-- A block is allocated, or there is no room. -/
theorem Kept.allocate (h : Kept w) (hpos : 1 ≤ size) :
    Kept ⟨Function.update w.arena k ((w.arena k).allocateNothrow size).2,
      if ((w.arena k).allocateNothrow size).1 = 0 then w.live
      else
        Function.update w.live k
          (w.live k ++ [(((w.arena k).allocateNothrow size).1, size)])⟩ := by
  by_cases hlt : (w.arena k).available < size
  · rw [Tidy.allocateNothrow_of_lt hlt, if_pos rfl, Function.update_eq_self]
    exact h
  · rw [Tidy.allocateNothrow_of_le hlt, if_neg (h.tidy k).cur_ne]
    exact h.update ((h.tidy k).allocate hpos hlt) rfl

/-- **Every action keeps the arenas.** -/
theorem Kept.step {a : Action κ} (h : Kept w) (hs : w.step a = some w') : Kept w' := by
  cases a with
  | allocateNothrow k size =>
    rw [World.step, Option.ite_none_right_eq_some] at hs
    obtain ⟨hpos, heq⟩ := hs
    obtain rfl := Option.some.inj heq
    exact h.allocate hpos
  | allocate k size =>
    rw [World.step, Option.ite_none_right_eq_some] at hs
    obtain ⟨hpos, heq⟩ := hs
    obtain rfl := Option.some.inj heq
    have hkept := h.allocate (k := k) hpos
    rw [Tidy.allocateThrowing_fst, Tidy.allocateThrowing_snd]
    by_cases hnull : ((w.arena k).allocateNothrow size).1 = 0
    · rw [if_pos hnull] at hkept ⊢
      exact hkept
    · rw [if_neg hnull] at hkept ⊢
      exact hkept
  | deallocate k p size =>
    rw [World.step, Option.ite_none_right_eq_some, Option.map_eq_some_iff] at hs
    obtain ⟨hmem, arena, hd, rfl⟩ := hs
    refine h.update ((h.tidy k).deallocate hmem hd) ?_
    rw [HugePages.deallocate, Option.ite_none_right_eq_some] at hd
    exact Option.some.inj hd.2 ▸ rfl
  | reset k =>
    obtain rfl := Option.some.inj hs
    exact h.update (h.tidy k).reset rfl
  | swap k k' =>
    obtain rfl := Option.some.inj hs
    exact h.swap k k'

/-! ## The arenas as they are mapped -/

/-- What the documentation of `mmap` says of a mapping: it is at no null
pointer and inside the address space. -/
structure Mmap.Valid (mmap : Mmap) : Prop where
  ne_null : ∀ {t n p}, mmap t n = some p → p ≠ 0
  inside : ∀ {t n p}, mmap t n = some p → p.toNat + n.toNat < 2 ^ 64

theorem tidy_tryMap {mmap : Mmap} (hv : Mmap.Valid mmap) {default_page_size : Size} {t : PageType}
    (h : tryMap mmap default_page_size size t = some arena) : Tidy arena [] := by
  obtain ⟨p, hp, rfl⟩ := Option.map_eq_some_iff.mp h
  refine ⟨hv.ne_null hp, rfl, ?_⟩
  dsimp only
  rw [BitVec.toNat_add, Nat.mod_eq_of_lt (hv.inside hp)]
  exact Nat.le_add_right _ _

/-- An arena constructed has no block in use. -/
theorem tidy_construct {mmap : Mmap} (hv : Mmap.Valid mmap) {default_page_size : Size}
    {t : PageType} (h : construct mmap default_page_size size t = some arena) : Tidy arena [] := by
  cases t with
  | pageDefault => exact tidy_tryMap hv h
  | page2MB =>
    rcases (Option.orElse_eq_some _ _ _).mp h with h | ⟨-, h⟩ <;> exact tidy_tryMap hv h
  | page1GB =>
    rcases (Option.orElse_eq_some _ _ _).mp h with h | ⟨-, h⟩
    · exact tidy_tryMap hv h
    · rcases (Option.orElse_eq_some _ _ _).mp h with h | ⟨-, h⟩ <;> exact tidy_tryMap hv h

/-- **A sound stack allocator.** In every arena the blocks alive tile what is
in use, in the order of their allocation; an allocation fails exactly when
it asks for more than is available, and then changes nothing; and of the
blocks alive the last can be deallocated and no other. -/
structure Sound (w : World κ) : Prop where
  ordered : ∀ k, (w.arena k).beg_ ≤ (w.arena k).cur_ ∧ (w.arena k).cur_ ≤ (w.arena k).end_
  balance : ∀ k, (w.arena k).used.toNat + (w.arena k).available.toNat =
    (w.arena k).capacity.toNat
  tiles : ∀ k, Tiles (w.arena k).beg_.toNat ((w.live k).map extent) (w.arena k).cur_.toNat
  disjoint : ∀ k, (w.live k).Pairwise fun b b' => Disjoint (span b) (span b')
  disjoint_arenas : ∀ k k', k ≠ k' → ∀ b ∈ w.live k, ∀ b' ∈ w.live k', Disjoint (span b) (span b')
  allocateNothrow : ∀ k size, 1 ≤ size →
    (((w.arena k).allocateNothrow size).1 = 0 ↔ (w.arena k).available < size) ∧
      (((w.arena k).allocateNothrow size).1 = 0 →
        ((w.arena k).allocateNothrow size).2 = w.arena k)
  allocate : ∀ k size, 1 ≤ size →
    (((w.arena k).allocateThrowing size).1 = none ↔ (w.arena k).available < size) ∧
      (((w.arena k).allocateThrowing size).1 = none →
        ((w.arena k).allocateThrowing size).2 = w.arena k)
  deallocate : ∀ k, ∀ b ∈ w.live k,
    ((w.arena k).deallocate b.1 b.2).isSome ↔ (w.live k).getLast? = some b

omit [DecidableEq κ] in
/-- A block lies in its arena. -/
theorem Kept.span_subset (h : Kept w) (hb : b ∈ w.live k) : span b ⊆ region (w.arena k) :=
  ((h.tidy k).tiles.subset (List.mem_map_of_mem hb)).trans
    (Set.Ico_subset_Ico_right (h.tidy k).cur_le)

omit [DecidableEq κ] in
theorem Kept.sound (h : Kept w) : Sound w where
  ordered k := ⟨(h.tidy k).beg_le, (h.tidy k).cur_le⟩
  balance k := (h.tidy k).balance
  tiles k := (h.tidy k).tiles
  disjoint k := by
    have hpairwise := (h.tidy k).tiles.pairwise_disjoint
    rwa [List.pairwise_map] at hpairwise
  disjoint_arenas k k' hne b hb b' hb' :=
    (h.apart hne).mono (h.span_subset hb) (h.span_subset hb')
  allocateNothrow k size _ := by
    have hiff : ((w.arena k).allocateNothrow size).1 = 0 ↔ (w.arena k).available < size :=
      (h.tidy k).allocateNothrow_eq_zero_iff
    exact ⟨hiff, fun hfail => by rw [Tidy.allocateNothrow_of_lt (hiff.mp hfail)]⟩
  allocate k size _ := by
    have hiff : ((w.arena k).allocateNothrow size).1 = 0 ↔ (w.arena k).available < size :=
      (h.tidy k).allocateNothrow_eq_zero_iff
    rw [Tidy.allocateThrowing_fst, Tidy.allocateThrowing_snd, ite_eq_left_iff]
    have hnone : (¬ ((w.arena k).allocateNothrow size).1 = 0 →
        some ((w.arena k).allocateNothrow size).1 = none) ↔
          ((w.arena k).allocateNothrow size).1 = 0 := by
      simp only [reduceCtorEq, imp_false, not_not]
    rw [hnone]
    exact ⟨hiff, fun hfail => by rw [Tidy.allocateNothrow_of_lt (hiff.mp hfail)]⟩
  deallocate k b hb := (h.tidy k).deallocate_isSome_iff hb

/-- **`HugePages` is a sound stack allocator**, over any calls on any number
of arenas, each mapped by itself. -/
theorem arenas_sound {arena : κ → HugePages} {mmap : κ → Mmap} {default_page_size : Size}
    (hmmap : ∀ k, Mmap.Valid (mmap k))
    (hmade : ∀ k, ∃ t size, construct (mmap k) default_page_size size t = some (arena k))
    (hapart : Pairwise fun k k' => Disjoint (region (arena k)) (region (arena k')))
    (hr : (machine arena).Reachable w) : Sound w := by
  have hkept : Kept w := by
    refine Machine.Run.invariant (M := machine arena) ⟨fun k => ?_, hapart⟩ ?_ hr
    · obtain ⟨t, size, hk⟩ := hmade k
      exact tidy_construct (hmmap k) hk
    · exact fun _ _ _ _ h hs _ => h.step hs
  exact hkept.sound

/-- An `mmap` without huge pages, with room for these sixteen pages. -/
def mmapSixteen (k : Fin 2) : Mmap := fun t n =>
  if t = .pageDefault ∧ n ≤ 0x10000 then some (if k = 0 then 0x10000 else 0x40000) else none

theorem valid_mmapSixteen (k : Fin 2) : Mmap.Valid (mmapSixteen k) := by
  have hbase : ∀ {t n p}, mmapSixteen k t n = some p →
      n.toNat ≤ 0x10000 ∧ (p = 0x10000 ∨ p = 0x40000) := by
    intro t n p h
    rw [mmapSixteen, Option.ite_none_right_eq_some] at h
    refine ⟨h.1.2, ?_⟩
    have hp := Option.some.inj h.2
    split at hp
    · exact .inl hp.symm
    · exact .inr hp.symm
  constructor
  · intro t n p h
    rcases (hbase h).2 with rfl | rfl <;> decide
  · intro t n p h
    have hle := (hbase h).1
    rcases (hbase h).2 with rfl | rfl
    · change 0x10000 + n.toNat < _
      omega
    · change 0x40000 + n.toNat < _
      omega

/-- The arenas of a page and of two. -/
def twoArenas (k : Fin 2) : HugePages :=
  if k = 0 then ⟨0x10000, 0x11000, 0x10000⟩ else ⟨0x40000, 0x42000, 0x40000⟩

/-- Two blocks in the first arena, a third for which there is no room, and,
the arenas swapped, the second block given back to the arena that now holds
it. -/
theorem arenas_sound_run :
    ∃ w : World (Fin 2), w.live 0 = [] ∧ w.live 1 = [(0x10000, 100)] ∧
      w.arena 1 = ⟨0x10064, 0x11000, 0x10000⟩ ∧ Sound w := by
  obtain ⟨w, hr, hw⟩ := (machine twoArenas).exists_run_of_execWhile (fun _ _ _ => True)
    [.allocate 0 100, .allocateNothrow 0 200, .allocate 0 0x1000, .swap 0 1,
      .deallocate 1 0x10064 200, .allocate 0 8, .reset 0]
    (fun w => (w.live 0, w.live 1, w.arena 1))
    (b := ([], [(0x10000, 100)], ⟨0x10064, 0x11000, 0x10000⟩)) (by decide)
  simp only [Prod.mk.injEq] at hw
  have hmade : ∀ k, ∃ t size, construct (mmapSixteen k) 0x1000 size t = some (twoArenas k) :=
    Fin.forall_fin_two.mpr ⟨⟨.page1GB, 1, by decide⟩, ⟨.page2MB, 0x1001, by decide⟩⟩
  have hdisjoint : Disjoint (region (twoArenas 0)) (region (twoArenas 1)) :=
    Set.Ico_disjoint_Ico.mpr (by decide)
  have hapart : Pairwise fun k k' => Disjoint (region (twoArenas k)) (region (twoArenas k'))
    | 0, 1, _ => hdisjoint
    | 1, 0, _ => hdisjoint.symm
    | 0, 0, hne | 1, 1, hne => absurd rfl hne
  exact ⟨w, hw.1, hw.2.1, hw.2.2, arenas_sound valid_mmapSixteen hmade hapart hr⟩

end Arenas

end AtomicQueue
