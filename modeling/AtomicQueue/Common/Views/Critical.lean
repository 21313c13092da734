import AtomicQueue.Common.Linearizable
import AtomicQueue.Common.Views.Latest
/-!
# Calls that run one at a time

Threads call, wait, do what their calls do by accesses to plain locations,
and return. If no two of them are past their wait at once, the calls are
those of an object whose calls take one step each: a call takes effect as
its wait ends, and the plain locations are then as they will be left.
-/

namespace Views

/-- **What a call does past its wait**: accesses to plain locations, and what
follows from the values read. -/
inductive Body {N : Type} (W : N → Type) (R : Type)
  | ret (r : R)
  | access (n : N) (writes : Bool) (f : W n → W n) (k : W n → Body W R)

variable {N R : Type} {W : N → Type}

/-- What it leaves in the plain locations and returns. -/
def Body.run [DecidableEq N] : Body W R → (∀ n, W n) → (∀ n, W n) × R
  | .ret r, s => (s, r)
  | .access n _ f k, s => (k (s n)).run (Function.update s n (f (s n)))

end Views

namespace Object

open Views

/-- **The plain locations, whose calls take one step each.** -/
def ofBody {N C R : Type} {W : N → Type} [DecidableEq N] (plain : ∀ n, W n) (body : C → Body W R) :
    Object (∀ n, W n) C R where
  init := plain
  call p c r p' := (body c).run p = (p', r)

/-- **Where a thread is with its call.** -/
inductive Section {N : Type} (W : N → Type) (C R : Type)
  | idle
  | waits (c : C)
  /-- Past its wait, with what is left to do. -/
  | inside (b : Body W R)

variable {N C R ι : Type} {W : N → Type} [DecidableEq N] [DecidableEq ι]
variable {body : C → Body W R} {p p' : ∀ n, W n} {secs secs' : ι → Section W C R}
variable {es : List (Visible ι C R)} {t u : ι}

/-- **What threads do that run one at a time.** -/
inductive Critical (body : C → Body W R) (p : ∀ n, W n) (secs : ι → Section W C R) :
    List (Visible ι C R) → (∀ n, W n) → (ι → Section W C R) → Prop
  | still : Critical body p secs [] p secs
  | call {t : ι} {c : C} (h : secs t = .idle) :
      Critical body p secs [.call t c] p (Function.update secs t (.waits c))
  | enter {t : ι} {c : C} (h : secs t = .waits c) (hfree : ∀ u b, secs u ≠ .inside b) :
      Critical body p secs [] p (Function.update secs t (.inside (body c)))
  | access {t : ι} {n : N} {writes : Bool} {f : W n → W n} {k : W n → Body W R}
      (h : secs t = .inside (.access n writes f k))
      (halone : ∀ u, u ≠ t → ∀ b, secs u ≠ .inside b) :
      Critical body p secs [] (Function.update p n (f (p n)))
        (Function.update secs t (.inside (k (p n))))
  | leave {t : ι} {r : R} (h : secs t = .inside (.ret r))
      (halone : ∀ u, u ≠ t → ∀ b, secs u ≠ .inside b) :
      Critical body p secs [.reply t r] p (Function.update secs t .idle)

/-- A thread that stays where it is. -/
theorem Critical.stay {g : Section W C R} (h : g = secs t) :
    Critical body p secs [] p (Function.update secs t g) := by
  rw [h, Function.update_eq_self]
  exact .still

/-- A call past its wait has taken effect. -/
def Section.stage (p : ∀ n, W n) : Section W C R → Stage C R
  | .idle => .out
  | .waits c => .waits c
  | .inside b => .served (b.run p).2

omit [DecidableEq ι] in
/-- **The object is as the thread that runs will leave the locations.** -/
structure Ahead (p : ∀ n, W n) (secs : ι → Section W C R) (o : Shared (∀ n, W n) ι C R) : Prop where
  stage_eq : ∀ t, o.stage t = (secs t).stage p
  value_inside : ∀ t b, secs t = .inside b → o.value = (b.run p).1
  value_free : (∀ t b, secs t ≠ .inside b) → o.value = p

variable {plain : ∀ n, W n} {o : Shared (∀ n, W n) ι C R}

/-- A thread that is not past its wait moves, to where it is not. -/
theorem Ahead.outside (h : Ahead p secs o) {g : Section W C R} (hold : ∀ b, secs t ≠ .inside b)
    (hnew : ∀ b, g ≠ .inside b) :
    Ahead p (Function.update secs t g) (o.set o.value t (g.stage p)) where
  stage_eq u := by
    rcases eq_or_ne u t with rfl | hne
    · rw [Shared.set_stage_self, Function.update_self]
    · rw [Shared.set_stage_of_ne _ hne, Function.update_of_ne hne, h.stage_eq]
  value_inside u b hu := by
    rcases eq_or_ne u t with rfl | hne
    · rw [Function.update_self] at hu
      exact absurd hu (hnew b)
    · rw [Function.update_of_ne hne] at hu
      exact h.value_inside u b hu
  value_free hfree := by
    refine h.value_free fun u b => ?_
    rcases eq_or_ne u t with rfl | hne
    · exact hold b
    · have hu := hfree u b
      rwa [Function.update_of_ne hne] at hu

/-- A thread is past its wait, alone, with `b` to do. -/
theorem Ahead.inside (h : Ahead p secs o) (halone : ∀ u, u ≠ t → ∀ b, secs u ≠ .inside b)
    {b : Body W R} :
    Ahead p' (Function.update secs t (.inside b))
      (o.set (b.run p').1 t (.served (b.run p').2)) where
  stage_eq u := by
    rcases eq_or_ne u t with rfl | hne
    · rw [Shared.set_stage_self, Function.update_self]
      rfl
    · rw [Shared.set_stage_of_ne _ hne, Function.update_of_ne hne, h.stage_eq]
      -- the others see nothing of the locations
      cases hu : secs u with
      | inside b' => exact absurd hu (halone u hne b')
      | idle | waits c => rfl
  value_inside u b' hu := by
    rcases eq_or_ne u t with rfl | hne
    · rw [Function.update_self] at hu
      cases hu
      rfl
    · rw [Function.update_of_ne hne] at hu
      exact absurd hu (halone u hne b')
  value_free hfree := absurd (Function.update_self ..) (hfree t b)

/-- **Each step is one of the object**, or none. -/
theorem Ahead.step (h : Ahead p secs o) (hs : Critical body p secs es p' secs') :
    ∃ o', Shared.Path (ofBody plain body) o es o' ∧ Ahead p' secs' o' := by
  cases hs with
  | still => exact ⟨o, .nil o, h⟩
  | @call t c hidle =>
    have hstage := (h.stage_eq t).trans (congrArg (Section.stage p) hidle)
    exact ⟨_, .one (.call hstage), h.outside (by rw [hidle]; simp) (by simp)⟩
  | @enter t c hwaits hfree =>
    have hstage := (h.stage_eq t).trans (congrArg (Section.stage p) hwaits)
    refine ⟨_, .one (.take hstage ?_), h.inside fun u _ => hfree u⟩
    rw [h.value_free hfree]
    rfl
  | @access t n writes f k hin halone =>
    have hnext : Ahead (Function.update p n (f (p n)))
        (Function.update secs t (.inside (k (p n)))) _ := h.inside halone
    have hrun : (k (p n)).run (Function.update p n (f (p n))) =
        (Body.access n writes f k).run p := rfl
    have hstage : o.stage t = .served ((Body.access n writes f k).run p).2 :=
      (h.stage_eq t).trans (congrArg (Section.stage p) hin)
    rw [hrun, ← h.value_inside t _ hin, ← hstage, Shared.set_self] at hnext
    exact ⟨o, .nil o, hnext⟩
  | @leave t r hin halone =>
    have hstage : o.stage t = .served r :=
      (h.stage_eq t).trans (congrArg (Section.stage p) hin)
    have hvalue : o.value = p := h.value_inside t _ hin
    refine ⟨_, .one (.reply hstage), ?_⟩
    refine ⟨fun u => ?_, fun u b hu => ?_, fun _ => hvalue⟩
    · rcases eq_or_ne u t with rfl | hne
      · rw [Shared.set_stage_self, Function.update_self]
        rfl
      · rw [Shared.set_stage_of_ne _ hne, Function.update_of_ne hne, h.stage_eq]
    · rcases eq_or_ne u t with rfl | hne
      · rw [Function.update_self] at hu
        cases hu
      · rw [Function.update_of_ne hne] at hu
        exact absurd hu (halone u hne b)

/-- **A machine whose calls run one at a time is linearizable.** -/
theorem linearizable_of_critical {τ α : Type*} {M : Machine τ α} {ok : τ → α → τ → Prop}
    {obs : τ → α → List (Visible ι C R)} {x : τ} (plain : τ → ∀ n, W n)
    (sec : τ → ι → Section W C R) (hidle : ∀ t, sec M.init t = .idle)
    (hstep : ∀ x a x', M.Run ok x → M.step x a = some x' → ok x a x' →
      Critical body (plain x) (sec x) (obs x a) (plain x') (sec x'))
    (h : M.Seen ok obs es x) : Linearizable (ofBody (plain M.init) body) es := by
  refine linearizable_of_relation (fun x o => Ahead (plain x) (sec x) o) ?_ ?_ h
  · refine ⟨fun t => ?_, fun t b ht => ?_, fun _ => rfl⟩
    · rw [hidle]
      rfl
    · rw [hidle] at ht
      cases ht
  · intro x a x' o hr hrel hs hok
    exact hrel.step (hstep x a x' hr hs hok)

end Object
