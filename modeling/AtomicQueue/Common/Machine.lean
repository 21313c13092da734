import Mathlib.Tactic.Common
/-!
# Transition systems whose runs meet a condition

A machine is an initial state and a partial step function. A run is a
sequence of steps each of which meets a condition on its two states and
its action, so that "in every run whose steps all meet `ok`" is a
statement about `Run ok`, and "in every run" the case of no condition.
An invariant is proved once per step (`Run.invariant`), and a machine is
read as another one through `Run.map`.
-/

/-- **A transition system**: an action either is not enabled, or leads to
one state. -/
structure Machine (σ α : Type*) where
  init : σ
  step : σ → α → Option σ

namespace Machine

variable {σ τ α β : Type*} {M : Machine σ α}
variable {ok ok' : σ → α → σ → Prop} {s s' : σ} {as : List α}

/-- The states reached from the initial one by steps that meet `ok`. -/
inductive Run (M : Machine σ α) (ok : σ → α → σ → Prop) : σ → Prop
  | init : Run M ok M.init
  | step {s s' : σ} {a : α} (hs : Run M ok s) (h : M.step s a = some s') (hok : ok s a s') :
      Run M ok s'

/-- The states reached by any steps. -/
abbrev Reachable (M : Machine σ α) : σ → Prop := M.Run fun _ _ _ => True

/-- The state a schedule of actions leads to, if every one is enabled and
every step meets `ok`. -/
def execWhile (M : Machine σ α) (ok : σ → α → σ → Prop) [∀ s a s', Decidable (ok s a s')] :
    σ → List α → Option σ
  | s, [] => some s
  | s, a :: as =>
    (M.step s a).bind fun s' => if ok s a s' then M.execWhile ok s' as else none

/-- **The induction on runs.** What holds initially and is kept by a step
that meets `ok` holds of every state of the run. -/
theorem Run.invariant {I : σ → Prop} (h0 : I M.init)
    (hstep : ∀ s a s', M.Run ok s → I s → M.step s a = some s' → ok s a s' → I s')
    (h : M.Run ok s) : I s := by
  induction h with
  | init => exact h0
  | step hs h hok ih => exact hstep _ _ _ hs ih h hok

/-- A weaker condition has more runs. -/
theorem Run.mono (hsub : ∀ s a s', ok s a s' → ok' s a s') (h : M.Run ok s) : M.Run ok' s := by
  induction h with
  | init => exact .init
  | step _ h hok ih => exact .step ih h (hsub _ _ _ hok)

/-- **Reading one machine as another.** Where every step either leaves the
image alone or is a step of the other machine, a run's image is a run. -/
theorem Run.map (N : Machine τ β) (abs : σ → τ) {okN : τ → β → τ → Prop} (h0 : abs M.init = N.init)
    (hstep : ∀ s a s', M.Run ok s → M.step s a = some s' → ok s a s' →
      abs s' = abs s ∨ ∃ b, N.step (abs s) b = some (abs s') ∧ okN (abs s) b (abs s'))
    (h : M.Run ok s) : N.Run okN (abs s) := by
  induction h with
  | init => rw [h0]; exact .init
  | step hs h hok ih =>
    rcases hstep _ _ _ hs h hok with heq | ⟨b, hb, hbok⟩
    · rw [heq]; exact ih
    · exact .step ih hb hbok

/-- A schedule whose steps all meet the condition is a run. -/
theorem Run.execWhile [∀ s a s', Decidable (ok s a s')] (hs : M.Run ok s)
    (h : M.execWhile ok s as = some s') : M.Run ok s' := by
  induction as generalizing s with
  | nil => rw [Machine.execWhile, Option.some.injEq] at h; exact h ▸ hs
  | cons a as ih =>
    rw [Machine.execWhile, Option.bind_eq_some_iff] at h
    obtain ⟨t, ht, hrest⟩ := h
    rw [Option.ite_none_right_eq_some] at hrest
    exact ih (.step hs ht hrest.1) hrest.2

/-- What such a schedule computes, a run reaches. -/
theorem exists_run_of_execWhile (M : Machine σ α) (ok : σ → α → σ → Prop)
    [∀ s a s', Decidable (ok s a s')] (as : List α) (f : σ → β) {b : β}
    (h : (M.execWhile ok M.init as).map f = some b) : ∃ s, M.Run ok s ∧ f s = b := by
  obtain ⟨s, hs, hb⟩ := Option.map_eq_some_iff.mp h
  exact ⟨s, Run.init.execWhile hs, hb⟩

/-! ## Stretches of a run -/

/-- The states passed on the way from one state to another by steps that
meet `ok`, both ends included. -/
inductive Path (M : Machine σ α) (ok : σ → α → σ → Prop) : σ → List σ → σ → Prop
  | nil (s : σ) : Path M ok s [s] s
  | step {s s' s'' : σ} {vs : List σ} {a : α} (hp : Path M ok s vs s')
      (h : M.step s' a = some s'') (hok : ok s' a s'') : Path M ok s (vs ++ [s'']) s''

namespace Path

variable {vs vs' : List σ} {t : σ}

theorem mem_last (h : M.Path ok s vs t) : t ∈ vs := by
  cases h with
  | nil => exact List.mem_singleton_self _
  | step hp h hok => exact List.mem_append_right _ (List.mem_singleton_self _)

/-- All states passed are reached. -/
theorem run (h : M.Path ok s vs t) (hs : M.Run ok s) : ∀ v ∈ vs, M.Run ok v := by
  induction h with
  | nil => exact fun v hv => List.mem_singleton.mp hv ▸ hs
  | step hp h hok ih =>
    intro v hv
    rcases List.mem_append.mp hv with hv | hv
    · exact ih v hv
    · exact List.mem_singleton.mp hv ▸ .step (ih _ hp.mem_last) h hok

theorem mono (hsub : ∀ s a s', ok s a s' → ok' s a s') (h : M.Path ok s vs t) :
    M.Path ok' s vs t := by
  induction h with
  | nil => exact .nil _
  | step _ h hok ih => exact .step ih h (hsub _ _ _ hok)

end Path

/-- The states a schedule passes after those in `vs`, if every action is
enabled and every step meets `ok`. -/
def trace (M : Machine σ α) (ok : σ → α → σ → Prop) [∀ s a s', Decidable (ok s a s')] :
    List σ → σ → List α → Option (List σ × σ)
  | vs, s, [] => some (vs, s)
  | vs, s, a :: as =>
    (M.step s a).bind fun s' => if ok s a s' then M.trace ok (vs ++ [s']) s' as else none

theorem Path.trace [∀ s a s', Decidable (ok s a s')] {vs vs' : List σ} {t t' : σ}
    (hp : M.Path ok s vs t) (h : M.trace ok vs t as = some (vs', t')) : M.Path ok s vs' t' := by
  induction as generalizing vs t with
  | nil =>
    rw [Machine.trace, Option.some.injEq] at h
    cases h
    exact hp
  | cons a as ih =>
    rw [Machine.trace, Option.bind_eq_some_iff] at h
    obtain ⟨u, hu, hrest⟩ := h
    rw [Option.ite_none_right_eq_some] at hrest
    exact ih (hp.step hu hrest.1) hrest.2

end Machine
