import AtomicQueue.Common.Machine
import Mathlib.Data.List.Nodup
import Mathlib.Logic.Function.Basic
/-!
# Threads that take numbers

A thread takes the next number of a counter, waits to be served, is
served, and is done with the number before it takes another. What is
known of a number is its ticket: who holds it, and what for. The numbers
not yet done are then in one-to-one correspondence with the threads that
have one (`Inv.pending`, `Inv.holder_unique`).
-/

/-- Who holds a number, and what for. -/
structure Ticket (ι γ : Type*) where
  holder : ι
  datum : γ
  deriving DecidableEq

/-- What a thread does: nothing, wait to be served, or what it was served
for. -/
inductive Ticket.Status (γ : Type*)
  | out
  | waiting (d : γ)
  | served (d : γ)

/-- **The numbers taken and the threads taking them.** -/
structure Tickets (ι γ : Type*) where
  issued : List (Ticket ι γ)
  /-- The latest number of a thread. -/
  no : ι → ℕ
  status : ι → Ticket.Status γ
  served : List ℕ
  done : List ℕ

namespace Tickets

open Ticket (Status)

variable {ι γ : Type*} [DecidableEq ι] {s s' : Tickets ι γ} {t t' : ι} {k : ℕ}

def empty : Tickets ι γ := ⟨[], fun _ => 0, fun _ => .out, [], []⟩

def take (s : Tickets ι γ) (t : ι) (d : γ) : Tickets ι γ :=
  { s with
    issued := s.issued ++ [⟨t, d⟩]
    no := Function.update s.no t s.issued.length
    status := Function.update s.status t (.waiting d) }

def serve (s : Tickets ι γ) (t : ι) (d : γ) : Tickets ι γ :=
  { s with
    served := s.served ++ [s.no t]
    status := Function.update s.status t (.served d) }

def finish (s : Tickets ι γ) (t : ι) : Tickets ι γ :=
  { s with
    done := s.done ++ [s.no t]
    status := Function.update s.status t .out }

/-- Served and done in one step. -/
def pass (s : Tickets ι γ) (t : ι) : Tickets ι γ :=
  { s with
    served := s.served ++ [s.no t]
    done := s.done ++ [s.no t]
    status := Function.update s.status t .out }

inductive Act (ι γ : Type*)
  | take (t : ι) (d : γ)
  | serve (t : ι)
  | finish (t : ι)
  | pass (t : ι)

def Act.thread : Act ι γ → ι
  | .take t _ | .serve t | .finish t | .pass t => t

def step (s : Tickets ι γ) : Act ι γ → Option (Tickets ι γ)
  | .take t d =>
    match s.status t with
    | .out => some (s.take t d)
    | _ => none
  | .serve t =>
    match s.status t with
    | .waiting d => some (s.serve t d)
    | _ => none
  | .finish t =>
    match s.status t with
    | .served _ => some (s.finish t)
    | _ => none
  | .pass t =>
    match s.status t with
    | .waiting _ => some (s.pass t)
    | _ => none

/-- The threads and their numbers as a transition system. -/
def machine (ι γ : Type*) [DecidableEq ι] : Machine (Tickets ι γ) (Act ι γ) where
  init := empty
  step := step

/-- **The numbers not done are held, one each, by the threads that are
not out.** -/
structure Inv (s : Tickets ι γ) : Prop where
  /-- A waiting thread holds a number for what it waits for. -/
  of_waiting : ∀ t d, s.status t = .waiting d →
    s.issued[s.no t]? = some ⟨t, d⟩ ∧ s.no t ∉ s.served ∧ s.no t ∉ s.done
  of_served : ∀ t d, s.status t = .served d →
    s.issued[s.no t]? = some ⟨t, d⟩ ∧ s.no t ∈ s.served ∧ s.no t ∉ s.done
  pending : ∀ k < s.issued.length, k ∉ s.done → ∃ t, s.status t ≠ .out ∧ s.no t = k
  served_lt : ∀ k ∈ s.served, k < s.issued.length
  served_nodup : s.served.Nodup
  done_served : ∀ k ∈ s.done, k ∈ s.served
  done_nodup : s.done.Nodup

omit [DecidableEq ι] in
theorem inv_empty : Inv (empty : Tickets ι γ) := by
  refine ⟨?_, ?_, ?_, ?_, .nil, ?_, .nil⟩ <;> simp [empty]

omit [DecidableEq ι] in
/-- Whoever is not out holds a number that is not done. -/
theorem Inv.holds (h : Inv s) (ht : s.status t ≠ .out) :
    ∃ d, s.issued[s.no t]? = some ⟨t, d⟩ ∧ s.no t ∉ s.done := by
  rcases hst : s.status t with _ | d | d
  · exact absurd hst ht
  · exact ⟨d, (h.of_waiting t d hst).1, (h.of_waiting t d hst).2.2⟩
  · exact ⟨d, (h.of_served t d hst).1, (h.of_served t d hst).2.2⟩

omit [DecidableEq ι] in
/-- Who has a ticket has one that was issued. -/
theorem Inv.no_lt (h : Inv s) (ht : s.status t ≠ .out) : s.no t < s.issued.length := by
  obtain ⟨d, hd, -⟩ := h.holds ht
  exact (List.getElem?_eq_some_iff.mp hd).1

omit [DecidableEq ι] in
/-- **No two threads have one number.** -/
theorem Inv.holder_unique (h : Inv s) (ht : s.status t ≠ .out) (ht' : s.status t' ≠ .out)
    (hno : s.no t = s.no t') : t = t' := by
  obtain ⟨d, hd, -⟩ := h.holds ht
  obtain ⟨d', hd', -⟩ := h.holds ht'
  rw [hno, hd', Option.some.injEq] at hd
  exact (congrArg Ticket.holder hd).symm

/-- **To take a ticket** keeps the invariant. -/
theorem Inv.take (h : Inv s) (d : γ) (hout : s.status t = .out) : Inv (s.take t d) := by
  have hlast : s.issued.length ∉ s.served := fun hk => Nat.lt_irrefl _ (h.served_lt _ hk)
  have hold : ∀ {j : ℕ} {c : Ticket ι γ}, s.issued[j]? = some c →
      (s.issued ++ [⟨t, d⟩])[j]? = some c := fun hj => by
    rw [List.getElem?_append_left (List.getElem?_eq_some_iff.mp hj).1, hj]
  refine ⟨fun t' d' ht' => ?_, fun t' d' ht' => ?_, fun k hk hdone => ?_, fun k hk => ?_,
    h.served_nodup, h.done_served, h.done_nodup⟩
  · simp only [Tickets.take] at ht' ⊢
    rcases eq_or_ne t' t with rfl | hne
    · rw [Function.update_self] at ht' ⊢
      cases ht'
      exact ⟨List.getElem?_concat_length, hlast, fun hk => hlast (h.done_served _ hk)⟩
    · rw [Function.update_of_ne hne] at ht' ⊢
      obtain ⟨hissued, hrest⟩ := h.of_waiting t' d' ht'
      exact ⟨hold hissued, hrest⟩
  · simp only [Tickets.take] at ht' ⊢
    rcases eq_or_ne t' t with rfl | hne
    · rw [Function.update_self] at ht'
      cases ht'
    · rw [Function.update_of_ne hne] at ht' ⊢
      obtain ⟨hissued, hrest⟩ := h.of_served t' d' ht'
      exact ⟨hold hissued, hrest⟩
  · simp only [Tickets.take, List.length_append, List.length_singleton] at hk hdone ⊢
    rcases Nat.lt_or_ge k s.issued.length with hlt | hge
    · obtain ⟨t', hst, hno⟩ := h.pending k hlt hdone
      have hne : t' ≠ t := by rintro rfl; exact hst hout
      exact ⟨t', by rwa [Function.update_of_ne hne], by rwa [Function.update_of_ne hne]⟩
    · refine ⟨t, by simp, ?_⟩
      rw [Function.update_self]
      omega
  · have := h.served_lt k hk
    simp only [Tickets.take, List.length_append]
    omega

/-- A number is served once, since its holder is served once. -/
theorem Inv.serve {d : γ} (h : Inv s) (hwait : s.status t = .waiting d) : Inv (s.serve t d) := by
  obtain ⟨hissued, hserved, hdone⟩ := h.of_waiting t d hwait
  have hout : s.status t ≠ .out := by rw [hwait]; simp
  refine ⟨fun t' d' ht' => ?_, fun t' d' ht' => ?_, fun k hk hkdone => ?_, fun k hk => ?_, ?_,
    fun k hk => List.mem_append_left _ (h.done_served k hk), h.done_nodup⟩
  · simp only [Tickets.serve] at ht' ⊢
    rcases eq_or_ne t' t with rfl | hne
    · rw [Function.update_self] at ht'
      cases ht'
    · rw [Function.update_of_ne hne] at ht'
      obtain ⟨hissued', hserved', hdone'⟩ := h.of_waiting t' d' ht'
      refine ⟨hissued', ?_, hdone'⟩
      rw [List.mem_append, List.mem_singleton, not_or]
      exact ⟨hserved', fun hno => hne (h.holder_unique (by rw [ht']; simp) hout hno)⟩
  · simp only [Tickets.serve, List.mem_append, List.mem_singleton] at ht' ⊢
    rcases eq_or_ne t' t with rfl | hne
    · rw [Function.update_self] at ht'
      cases ht'
      exact ⟨hissued, Or.inr rfl, hdone⟩
    · rw [Function.update_of_ne hne] at ht'
      obtain ⟨hissued', hserved', hdone'⟩ := h.of_served t' d' ht'
      exact ⟨hissued', Or.inl hserved', hdone'⟩
  · obtain ⟨t', hst, hno⟩ := h.pending k hk hkdone
    refine ⟨t', ?_, hno⟩
    simp only [Tickets.serve]
    rcases eq_or_ne t' t with rfl | hne
    · simp
    · rwa [Function.update_of_ne hne]
  · rcases List.mem_append.mp hk with hk | hk
    · exact h.served_lt k hk
    · rw [List.mem_singleton.mp hk]
      exact h.no_lt hout
  · rw [Tickets.serve, ← List.concat_eq_append]
    exact h.served_nodup.concat hserved

/-- **So does finishing.** -/
theorem Inv.finish {d : γ} (h : Inv s) (hst : s.status t = .served d) : Inv (s.finish t) := by
  obtain ⟨hissued, hserved, hdone⟩ := h.of_served t d hst
  have hout : s.status t ≠ .out := by rw [hst]; simp
  have hother : ∀ {t'}, t' ≠ t → s.status t' ≠ .out → s.no t' ∉ s.done →
      s.no t' ∉ s.done ++ [s.no t] := fun hne hst' hdone' => by
    rw [List.mem_append, List.mem_singleton, not_or]
    exact ⟨hdone', fun hno => hne (h.holder_unique hst' hout hno)⟩
  refine ⟨fun t' d' ht' => ?_, fun t' d' ht' => ?_, fun k hk hkdone => ?_, h.served_lt,
    h.served_nodup, fun k hk => ?_, ?_⟩
  · simp only [Tickets.finish] at ht' ⊢
    rcases eq_or_ne t' t with rfl | hne
    · rw [Function.update_self] at ht'
      cases ht'
    · rw [Function.update_of_ne hne] at ht'
      obtain ⟨hissued', hserved', hdone'⟩ := h.of_waiting t' d' ht'
      exact ⟨hissued', hserved', hother hne (by rw [ht']; simp) hdone'⟩
  · simp only [Tickets.finish] at ht' ⊢
    rcases eq_or_ne t' t with rfl | hne
    · rw [Function.update_self] at ht'
      cases ht'
    · rw [Function.update_of_ne hne] at ht'
      obtain ⟨hissued', hserved', hdone'⟩ := h.of_served t' d' ht'
      exact ⟨hissued', hserved', hother hne (by rw [ht']; simp) hdone'⟩
  · simp only [Tickets.finish, List.mem_append, List.mem_singleton, not_or] at hk hkdone ⊢
    obtain ⟨t', hst', hno⟩ := h.pending k hk hkdone.1
    have hne : t' ≠ t := by rintro rfl; exact hkdone.2 hno.symm
    exact ⟨t', by rwa [Function.update_of_ne hne], hno⟩
  · rcases List.mem_append.mp hk with hk | hk
    · exact h.done_served k hk
    · rw [List.mem_singleton.mp hk]
      exact hserved
  · rw [Tickets.finish, ← List.concat_eq_append]
    exact h.done_nodup.concat hdone

/-- To pass is to be served and to finish at once. -/
theorem pass_eq (s : Tickets ι γ) (t : ι) (d : γ) : s.pass t = (s.serve t d).finish t := by
  simp [Tickets.pass, Tickets.serve, Tickets.finish]

/-- **Every step keeps the invariant.** -/
theorem Inv.step {a : Act ι γ} (h : Inv s) (hs : step s a = some s') : Inv s' := by
  cases a with
  | take t d =>
    simp only [Tickets.step] at hs
    split at hs <;> cases hs
    exact h.take d ‹_›
  | serve t =>
    simp only [Tickets.step] at hs
    split at hs <;> cases hs
    exact h.serve ‹_›
  | finish t =>
    simp only [Tickets.step] at hs
    split at hs <;> cases hs
    exact h.finish ‹_›
  | pass t =>
    simp only [Tickets.step] at hs
    split at hs <;> cases hs
    rename_i d hwait
    rw [pass_eq s t d]
    exact (h.serve hwait).finish (by simp [Tickets.serve] : _ = Status.served d)

/-- **Every run keeps the correspondence.** -/
theorem inv_of_run {ok : Tickets ι γ → Act ι γ → Tickets ι γ → Prop}
    (h : (machine ι γ).Run ok s) : Inv s :=
  h.invariant inv_empty fun _ _ _ _ hI hs _ => hI.step hs

omit [DecidableEq ι] in
/-- **With nobody under way every number taken is done.** -/
theorem Inv.length_done (h : Inv s) (hout : ∀ t, s.status t = .out) :
    s.done.length = s.issued.length := by
  have hperm : s.done.Perm (List.range s.issued.length) := by
    refine (List.perm_ext_iff_of_nodup h.done_nodup List.nodup_range).mpr fun k => ?_
    rw [List.mem_range]
    constructor
    · intro hk
      exact h.served_lt k (h.done_served k hk)
    · intro hk
      by_contra hdone
      obtain ⟨t, ht, -⟩ := h.pending k hk hdone
      exact ht (hout t)
  simpa using hperm.length_eq

/-! ## One thread -/

/-- What is so while only thread `t` takes numbers. -/
structure Lone (t : ι) (s : Tickets ι γ) : Prop where
  done_eq : s.done = List.range s.done.length
  of_out : s.status t = .out → s.issued.length = s.done.length
  of_busy : s.status t ≠ .out → s.issued.length = s.done.length + 1 ∧ s.no t = s.done.length

theorem Lone.finish (h : Lone t s) (hst : s.status t ≠ .out) : Lone t (s.finish t) := by
  obtain ⟨hlen, hno⟩ := h.of_busy hst
  refine ⟨?_, fun _ => ?_, fun hne => absurd ?_ hne⟩
  · simp only [Tickets.finish, List.length_append, List.length_singleton]
    rw [List.range_succ, ← h.done_eq, hno]
  · simp only [Tickets.finish, List.length_append, List.length_singleton]
    exact hlen
  · simp [Tickets.finish]

theorem Lone.serve {d : γ} (h : Lone t s) (hst : s.status t ≠ .out) : Lone t (s.serve t d) where
  done_eq := h.done_eq
  of_out hout := by simp [Tickets.serve] at hout
  of_busy _ := h.of_busy hst

/-- **One thread is done with its numbers in their order.** -/
theorem lone_of_run (h : (machine ι γ).Run (fun _ b _ => b.thread = t) s) : Lone t s := by
  refine h.invariant ⟨rfl, fun _ => rfl, fun hne => absurd rfl hne⟩ ?_
  rintro s a s' - ih hs rfl
  cases a with
  | take t d =>
    simp only [machine, Tickets.step] at hs
    split at hs <;> cases hs
    rename_i hout
    refine ⟨ih.done_eq, fun hout' => ?_, fun _ => ⟨?_, ?_⟩⟩
    · simp [Tickets.take, Act.thread] at hout'
    · simp only [Tickets.take, List.length_append, List.length_singleton]
      rw [ih.of_out hout]
    · simp only [Tickets.take, Act.thread, Function.update_self]
      exact ih.of_out hout
  | serve t =>
    simp only [machine, Tickets.step] at hs
    split at hs <;> cases hs
    rename_i d hwait
    exact ih.serve (by rw [Act.thread, hwait]; simp)
  | finish t =>
    simp only [machine, Tickets.step] at hs
    split at hs <;> cases hs
    rename_i d hserved
    exact ih.finish (by rw [Act.thread, hserved]; simp)
  | pass t =>
    simp only [machine, Tickets.step] at hs
    split at hs <;> cases hs
    rename_i d hwait
    rw [pass_eq s t d]
    exact (ih.serve (by rw [Act.thread, hwait]; simp)).finish (by simp [Tickets.serve, Act.thread])

end Tickets
