import Mathlib.Data.Finset.Card
import Mathlib.Data.List.Nodup
import Mathlib.Data.Finset.Range
import Mathlib.Tactic.Common
/-!
# Entries of a list and their places

The entries of an increasing list of numbers are no less than their places,
and up to the first number missing they are their places. So to choose
entries by their place is to choose them by their value only where nothing
is missing below what is chosen (`agree_iff`).
-/

namespace Places

variable {α : Type*} {l : List ℕ} {i j k : ℕ}

/-! ## Increasing lists -/

/-- An increasing list grows at least as fast as the places, -/
theorem getElem_add_le (h : l.Pairwise (· < ·)) (hij : i ≤ j) (hj : j < l.length) :
    l[i] + (j - i) ≤ l[j] := by
  induction j, hij using Nat.le_induction with
  | base => omega
  | succ j hij ih =>
    have hle := ih (by omega)
    have hlt : l[j] < l[j + 1] := List.pairwise_iff_getElem.mp h j (j + 1) (by omega) hj (by omega)
    omega

/-- so that no element is below its place, -/
theorem le_getElem (h : l.Pairwise (· < ·)) (hi : i < l.length) : i ≤ l[i] := by
  have hle := getElem_add_le h (Nat.zero_le i) hi
  omega

/-- and no two places have one element. -/
theorem eq_of_getElem_eq (h : l.Pairwise (· < ·)) (hi : i < l.length) (hj : j < l.length)
    (heq : l[i] = l[j]) : i = j := by
  rcases Nat.lt_trichotomy i j with hlt | heq | hlt
  · have hle := getElem_add_le h hlt.le hj
    omega
  · exact heq
  · have hle := getElem_add_le h hlt.le hi
    omega

/-- **An entry is its place exactly if nothing is missing up to it.** -/
theorem getElem_eq_self_iff (h : l.Pairwise (· < ·)) (hk : k < l.length) :
    l[k] = k ↔ ∀ j ≤ k, j ∈ l := by
  constructor
  · intro heq j hj
    have hle := getElem_add_le h hj hk
    have hge := le_getElem h (hj.trans_lt hk)
    have hself : l[j] = j := by omega
    exact List.mem_of_getElem hself
  · intro hall
    induction k with
    | zero =>
      obtain ⟨i, hi, heq⟩ := List.mem_iff_getElem.mp (hall 0 le_rfl)
      have hge := le_getElem h hi
      obtain rfl : i = 0 := by omega
      exact heq
    | succ k ih =>
      have hself := ih (by omega) fun j hj => hall j (by omega)
      obtain ⟨i, hi, heq⟩ := List.mem_iff_getElem.mp (hall (k + 1) le_rfl)
      -- `k + 1` is past the place of `k` and not past its own
      have hge := le_getElem h hi
      have hgt : k < i := by
        by_contra hle
        have := getElem_add_le h (not_lt.mp hle) (by omega)
        omega
      obtain rfl : i = k + 1 := by omega
      exact heq

/-- **Places and values are chosen alike** only where nothing is missing
below what is chosen. -/
theorem agree_iff (h : l.Pairwise (· < ·)) {p : ℕ → Bool} (hp : ∀ k, p k → k < l.length) :
    (∀ i (hi : i < l.length), p i = p l[i]) ↔ ∀ k, p k → ∀ j ≤ k, j ∈ l := by
  constructor
  · intro hagree
    -- by induction from the last place down: a chosen entry past its place is chosen as a place
    have key : ∀ d k, l.length - k = d → ∀ hlt : k < l.length, p k → l[k] = k := by
      intro d
      induction d using Nat.strongRecOn with
      | ind d ih =>
        intro k hd hlt hk
        have hnext : p l[k] := hagree k hlt ▸ hk
        by_contra hne
        have hge := le_getElem h hlt
        have hpast := hp _ hnext
        have hself := ih (l.length - l[k]) (by omega) l[k] rfl hpast hnext
        exact hne (eq_of_getElem_eq h hpast hlt hself)
    exact fun k hk => (getElem_eq_self_iff h (hp k hk)).mp (key _ k rfl (hp k hk) hk)
  · intro hall i hi
    refine Bool.eq_iff_iff.mpr ⟨fun hpi => ?_, fun hpl => ?_⟩
    · rw [(getElem_eq_self_iff h hi).mpr (hall i hpi)]
      exact hpi
    · have hself := (getElem_eq_self_iff h (hp _ hpl)).mpr (hall _ hpl)
      rwa [← eq_of_getElem_eq h (hp _ hpl) hi hself]

/-! ## Choosing by place -/

variable {xs : List α} {p : ℕ → Bool} {q : α → Bool} {x : α}

/-- The entries at the places chosen. -/
def select (p : ℕ → Bool) (xs : List α) : List α := (xs.zipIdx.filter fun x => p x.2).map Prod.fst

theorem mem_select : x ∈ select p xs ↔ ∃ (i : ℕ) (hi : i < xs.length), xs[i] = x ∧ p i := by
  simp only [select, List.mem_map, List.mem_filter, List.mem_zipIdx_iff_getElem?, Prod.exists,
    List.getElem?_eq_some_iff]
  constructor
  · rintro ⟨y, i, ⟨⟨hi, hy⟩, hpi⟩, rfl⟩
    exact ⟨i, hi, hy, hpi⟩
  · rintro ⟨i, hi, rfl, hpi⟩
    exact ⟨_, i, ⟨⟨hi, rfl⟩, hpi⟩, rfl⟩

/-- What is selected stays in order. -/
theorem select_sublist : (select p xs).Sublist xs := by
  have hsub := (List.filter_sublist (p := fun x : α × ℕ => p x.2) (l := xs.zipIdx)).map Prod.fst
  rwa [List.zipIdx_map_fst] at hsub

theorem length_select : (select p xs).length = (List.range xs.length).countP p := by
  have hrange : xs.zipIdx.map Prod.snd = List.range xs.length := by
    rw [List.zipIdx_map_snd, List.range_eq_range']
  rw [select, List.length_map, ← hrange, List.countP_map, List.countP_eq_length_filter]
  rfl

/-- **Choosing by place leaves the entries chosen by value** exactly if both
choose alike at every place. -/
theorem mem_select_iff_filter (hnodup : xs.Nodup) :
    (∀ x, x ∈ select p xs ↔ x ∈ xs ∧ q x) ↔ ∀ i (hi : i < xs.length), p i = q xs[i] := by
  constructor
  · intro h i hi
    have hmem : xs[i] ∈ select p xs ↔ p i := by
      rw [mem_select]
      constructor
      · rintro ⟨j, hj, hji, hpj⟩
        rwa [← (List.Nodup.getElem_inj_iff hnodup).mp hji]
      · exact fun hpi => ⟨i, hi, rfl, hpi⟩
    rw [h] at hmem
    exact Bool.eq_iff_iff.mpr ⟨fun hpi => (hmem.mpr hpi).2,
      fun hq => hmem.mp ⟨List.getElem_mem hi, hq⟩⟩
  · intro hagree x
    rw [mem_select]
    constructor
    · rintro ⟨i, hi, rfl, hpi⟩
      exact ⟨List.getElem_mem hi, hagree i hi ▸ hpi⟩
    · rintro ⟨hmem, hqx⟩
      obtain ⟨i, hi, rfl⟩ := List.mem_iff_getElem.mp hmem
      exact ⟨i, hi, rfl, (hagree i hi).symm ▸ hqx⟩

/-- As many are chosen among fewer places only if all chosen are there. -/
theorem countP_range_eq_iff {m n : ℕ} (hp : ∀ k, p k → k < m) :
    (List.range m).countP p = (List.range n).countP p ↔ ∀ k, p k → k < n := by
  have hcard : ∀ n, (List.range n).countP p = ((Finset.range n).filter fun k => p k).card := by
    intro n
    simp [Finset.card, Finset.filter, Multiset.range, List.countP_eq_length_filter]
  rw [hcard, hcard]
  constructor
  · intro heq k hk
    -- one past `n` is counted on the left only
    by_contra hge
    have hsub : (Finset.range n).filter (fun k => p k) ⊆ (Finset.range m).filter fun k => p k := by
      intro j hj
      rw [Finset.mem_filter] at hj ⊢
      exact ⟨Finset.mem_range.mpr (hp j hj.2), hj.2⟩
    have hmem : k ∈ (Finset.range n).filter fun k => p k := by
      rw [Finset.eq_of_subset_of_card_le hsub heq.le, Finset.mem_filter]
      exact ⟨Finset.mem_range.mpr (hp k hk), hk⟩
    exact hge (Finset.mem_range.mp (Finset.mem_filter.mp hmem).1)
  · intro hn
    congr 1
    ext k
    simp only [Finset.mem_filter, Finset.mem_range]
    exact and_congr_left fun hk => iff_of_true (hp k hk) (hn k hk)

end Places
