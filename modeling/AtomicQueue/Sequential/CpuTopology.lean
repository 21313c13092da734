import AtomicQueue.Model.CpuTopology
/-!
# When the filter keeps the processors of the mask

The filter asks the mask for an entry's place in the sorted list and not for
its `hw_thread_id`. The two are the same up to the first number that no
processor has. The count of what is left is checked against the mask's, and
differs from it only if the mask has a number past the end of the list.
-/

namespace AtomicQueue

namespace CpuTopology

variable {cpus : CpuSet} {c r : List CpuTopologyInfo} {cpuinfo : List String}
variable {hardware_concurrency : Word}

/-- The numbers of the processors listed. -/
def ids (c : List CpuTopologyInfo) : List ℕ := c.map fun x => x.hw_thread_id.toNat

/-! ## The list is in increasing order -/

theorem exists_sorted_of_getCpuTopologyInfo
    (h : getCpuTopologyInfo cpuinfo hardware_concurrency = .ok c) :
    ∃ v, c = sortByHwThreadId v := by
  rw [getCpuTopologyInfo] at h
  cases hs : cpuinfo.foldlM (fun s line => Parser.scan s line [.socket_id, .core_id, .hw_thread_id])
      ({} : Parser) with
  | error e =>
    rw [hs] at h
    cases h
  | ok s =>
    rw [hs] at h
    change (if _ then _ else _) = _ at h
    split at h
    · cases h
    · exact ⟨s.cpus, (Except.ok.inj h).symm⟩

instance : Std.Total fun a b : CpuTopologyInfo => a.hw_thread_id ≤ b.hw_thread_id :=
  ⟨fun a b => BitVec.le_total a.hw_thread_id b.hw_thread_id⟩

instance : IsTrans CpuTopologyInfo fun a b => a.hw_thread_id ≤ b.hw_thread_id :=
  ⟨fun _ _ _ => BitVec.le_trans⟩

/-- Sorted and without repetition, the numbers increase. -/
theorem ids_increasing (h : getCpuTopologyInfo cpuinfo hardware_concurrency = .ok c)
    (hdistinct : (ids c).Nodup) : (ids c).Pairwise (· < ·) := by
  obtain ⟨v, rfl⟩ := exists_sorted_of_getCpuTopologyInfo h
  have hsorted : (ids (sortByHwThreadId v)).Pairwise (· ≤ ·) := by
    rw [ids, List.pairwise_map]
    exact List.pairwise_insertionSort _ v
  exact (hsorted.and hdistinct).imp fun ⟨hle, hne⟩ => lt_of_le_of_ne hle hne

/-! ## What the filter leaves -/

theorem isSet_lt {k : ℕ} (h : cpus.isSet k) : k < 1024 := BitVec.lt_of_getLsbD h

/-- **The filter throws exactly if the mask has a number past the end of the
list.** -/
theorem getAvailableCpuTopologyInfo_eq (cpus : CpuSet)
    (h : getCpuTopologyInfo cpuinfo hardware_concurrency = .ok c) :
    ((∃ e, getAvailableCpuTopologyInfo cpus cpuinfo hardware_concurrency = .error e) ∧
        ∃ k, cpus.isSet k ∧ c.length ≤ k) ∨
      getAvailableCpuTopologyInfo cpus cpuinfo hardware_concurrency =
          .ok (Places.select cpus.isSet c) ∧
        ∀ k, cpus.isSet k → k < c.length := by
  have hsize : cpus.size = (Places.select cpus.isSet c).length ↔
      ∀ k, cpus.isSet k → k < c.length := by
    rw [Places.length_select]
    exact Places.countP_range_eq_iff fun k => isSet_lt
  have hreturn : getAvailableCpuTopologyInfo cpus cpuinfo hardware_concurrency =
      if cpus.size ≠ (Places.select cpus.isSet c).length then
        .error "get_available_cpu_topology_info() invariant broken."
      else .ok (Places.select cpus.isSet c) := by
    rw [getAvailableCpuTopologyInfo, h]
    dsimp only [bind, Except.bind]
    split <;> rfl
  rw [hreturn]
  by_cases hall : ∀ k, cpus.isSet k → k < c.length
  · rw [if_neg (not_not_intro (hsize.mpr hall))]
    exact .inr ⟨rfl, hall⟩
  · rw [if_pos fun heq => hall (hsize.mp heq)]
    push Not at hall
    exact .inl ⟨⟨_, rfl⟩, hall⟩

/-- **Exactly the entries in the mask**, in increasing order of
`hw_thread_id`, or an exception. -/
def KeepsAllowed (cpus : CpuSet) (cpuinfo : List String) (hardware_concurrency : Word)
    (c : List CpuTopologyInfo) : Prop :=
  (∃ e, getAvailableCpuTopologyInfo cpus cpuinfo hardware_concurrency = .error e) ∨
    ∃ r, getAvailableCpuTopologyInfo cpus cpuinfo hardware_concurrency = .ok r ∧
      (∀ x, x ∈ r ↔ x ∈ c ∧ cpus.isSet x.hw_thread_id.toNat) ∧ (ids r).Pairwise (· < ·)

/-- Nothing is missing below the mask. -/
def Covers (c : List CpuTopologyInfo) (cpus : CpuSet) : Prop :=
  ∀ k, cpus.isSet k → ∀ j ≤ k, ∃ x ∈ c, x.hw_thread_id.toNat = j

/-- The entries at the places in the mask are those in the mask exactly if
nothing is missing below it. -/
theorem select_allowed_iff (hinc : (ids c).Pairwise (· < ·))
    (hall : ∀ k, cpus.isSet k → k < c.length) :
    (∀ x, x ∈ Places.select cpus.isSet c ↔ x ∈ c ∧ cpus.isSet x.hw_thread_id.toNat) ↔
      Covers c cpus := by
  have hnodup : c.Nodup := .of_map _ (hinc.imp fun hlt => hlt.ne)
  have hlength : (ids c).length = c.length := List.length_map _
  have hagree := Places.agree_iff hinc (p := cpus.isSet) fun k hk => hlength.symm ▸ hall k hk
  have hmem : ∀ j, j ∈ ids c ↔ ∃ x ∈ c, x.hw_thread_id.toNat = j := fun j => List.mem_map
  rw [Places.mem_select_iff_filter hnodup (q := fun x => cpus.isSet x.hw_thread_id.toNat)]
  simp only [hmem, hlength] at hagree
  rw [Covers, ← hagree]
  simp only [ids, List.getElem_map]

/-- **The filter keeps the processors allowed exactly if** the mask has a
number past the end of the list, for which it throws, or no number below
the mask is missing from the list. -/
theorem keepsAllowed_iff (h : getCpuTopologyInfo cpuinfo hardware_concurrency = .ok c)
    (hdistinct : (ids c).Nodup) :
    KeepsAllowed cpus cpuinfo hardware_concurrency c ↔
      (∃ k, cpus.isSet k ∧ c.length ≤ k) ∨ Covers c cpus := by
  have hinc := ids_increasing h hdistinct
  rcases getAvailableCpuTopologyInfo_eq cpus h with ⟨herror, hpast⟩ | ⟨hok, hall⟩
  · exact iff_of_true (.inl herror) (.inl hpast)
  · have hnot : ¬ ∃ k, cpus.isSet k ∧ c.length ≤ k := fun ⟨k, hk, hle⟩ =>
      absurd (hall k hk) hle.not_gt
    rw [KeepsAllowed, hok, or_iff_right hnot, ← select_allowed_iff hinc hall]
    constructor
    · rintro (⟨e, he⟩ | ⟨r, hr, hmem, -⟩)
      · cases he
      · exact Except.ok.inj hr ▸ hmem
    · intro hmem
      exact .inr ⟨_, rfl, hmem, hinc.sublist (Places.select_sublist.map _)⟩

/-! ## A processor is offline -/

/-- `/proc/cpuinfo` of a machine whose processor `1` is offline. -/
def offlineOne : List String :=
  ["processor : 0", "physical id : 0", "core id : 0", "",
    "processor : 2", "physical id : 0", "core id : 1", "",
    "processor : 3", "physical id : 0", "core id : 1", ""]

/-- The processors listed there. -/
def listedOne : List CpuTopologyInfo := [⟨0, 0, 0⟩, ⟨0, 1, 2⟩, ⟨0, 1, 3⟩]

/-- The affinity masks of `0`, and of `0` and `2`. -/
def maskZero : CpuSet := 1#1024

def maskZeroTwo : CpuSet := 5#1024

/-- The mask of `0` needs nothing that is missing. -/
theorem keepsAllowed_iff_run : KeepsAllowed maskZero offlineOne 3 listedOne := by
  have hlisted : getCpuTopologyInfo offlineOne 3 = .ok listedOne := by rfl
  refine (keepsAllowed_iff hlisted (by decide)).mpr (.inr fun k hk j hj => ?_)
  have hlt : k < 1 := Nat.lt_of_not_le fun hle => by
    have hfalse : maskZero.isSet k = false := by
      rw [CpuSet.isSet, maskZero, BitVec.getLsbD_one, decide_eq_false (by omega : ¬ k = 0),
        Bool.and_false]
    rw [hfalse] at hk
    cases hk
  obtain rfl : j = 0 := by omega
  exact ⟨⟨0, 0, 0⟩, by decide, rfl⟩

/-- The mask of `0` and `2` leaves processors `0` and `3`. -/
theorem keepsAllowed_fails :
    ∃ c, getCpuTopologyInfo offlineOne 3 = .ok c ∧ (ids c).Nodup ∧
      ¬ KeepsAllowed maskZeroTwo offlineOne 3 c := by
  refine ⟨listedOne, by rfl, by decide, ?_⟩
  have hok : getAvailableCpuTopologyInfo maskZeroTwo offlineOne 3 = .ok [⟨0, 0, 0⟩, ⟨0, 1, 3⟩] := by
    decide +kernel
  rintro (⟨e, he⟩ | ⟨r, hr, hmem, -⟩)
  · cases hok.symm.trans he
  · obtain rfl := Except.ok.inj (hok.symm.trans hr)
    have hset : maskZeroTwo.isSet 3 = true := ((hmem ⟨0, 1, 3⟩).mp (by decide)).2
    exact absurd hset (by decide +kernel)

end CpuTopology

end AtomicQueue
