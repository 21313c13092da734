import AtomicQueue.Common.Machine
import AtomicQueue.Common.Object
import Mathlib.Data.List.Nodup
import Mathlib.Logic.Function.Basic
/-!
# Objects called by several threads at once

Threads call an object and get replies, and what is seen of them is a
history of calls and replies. It is linearizable if every call can be given
a moment between the call and its reply at which it takes effect: there is
an order of the calls in which the object, called by one thread at a time,
gives the replies seen, and which puts a call that was replied to before
the calls made after that (`Linearizes`).

`Shared` is the object itself with its threads, every call taking effect in
one step of its own. A machine that it simulates step by step, each step of
the machine a stretch of its steps with the same events, has only
linearizable histories (`linearizable_of_simulation`).
-/

/-! ## What is seen of a machine -/

namespace Machine

variable {σ α ε : Type*} {M : Machine σ α} {ok : σ → α → σ → Prop} {obs : σ → α → List ε}
variable {s s' : σ} {as : List α} {es es' : List ε}

/-- A run, with the events seen on the way. -/
inductive Seen (M : Machine σ α) (ok : σ → α → σ → Prop) (obs : σ → α → List ε) :
    List ε → σ → Prop
  | init : Seen M ok obs [] M.init
  | step {es : List ε} {s s' : σ} {a : α} (hs : Seen M ok obs es s) (h : M.step s a = some s')
      (hok : ok s a s') : Seen M ok obs (es ++ obs s a) s'

/-- What is seen is seen of a run, -/
theorem Seen.run (h : M.Seen ok obs es s) : M.Run ok s := by
  induction h with
  | init => exact .init
  | step _ h hok ih => exact .step ih h hok

/-- and of any run with fewer conditions. -/
theorem Seen.mono {ok' : σ → α → σ → Prop} (hsub : ∀ s a s', ok s a s' → ok' s a s')
    (h : M.Seen ok obs es s) : M.Seen ok' obs es s := by
  induction h with
  | init => exact .init
  | step _ h hok ih => exact .step ih h (hsub _ _ _ hok)

/-- The events of a schedule after those in `es`, if every action is enabled
and every step meets `ok`. -/
def watch (M : Machine σ α) (ok : σ → α → σ → Prop) [∀ s a s', Decidable (ok s a s')]
    (obs : σ → α → List ε) : List ε → σ → List α → Option (List ε × σ)
  | es, s, [] => some (es, s)
  | es, s, a :: as =>
    (M.step s a).bind fun s' => if ok s a s' then M.watch ok obs (es ++ obs s a) s' as else none

theorem Seen.watch [∀ s a s', Decidable (ok s a s')] (hs : M.Seen ok obs es s)
    (h : M.watch ok obs es s as = some (es', s')) : M.Seen ok obs es' s' := by
  induction as generalizing es s with
  | nil =>
    rw [Machine.watch, Option.some.injEq] at h
    cases h
    exact hs
  | cons a as ih =>
    rw [Machine.watch, Option.bind_eq_some_iff] at h
    obtain ⟨u, hu, hrest⟩ := h
    rw [Option.ite_none_right_eq_some] at hrest
    exact ih (hs.step hu hrest.1) hrest.2

/-- The events that such a schedule computes are seen on a run. -/
theorem exists_seen_of_watch (M : Machine σ α) (ok : σ → α → σ → Prop)
    [∀ s a s', Decidable (ok s a s')] (obs : σ → α → List ε) (as : List α) (es : List ε)
    (h : (M.watch ok obs [] M.init as).map Prod.fst = some es) : ∃ s, M.Seen ok obs es s := by
  obtain ⟨⟨es', s⟩, hs, heq⟩ := Option.map_eq_some_iff.mp h
  cases heq
  exact ⟨s, Seen.init.watch hs⟩

end Machine

namespace Object

variable {σ τ ι α C R : Type*} {O : Object σ C R}

/-! ## Histories -/

/-- What is seen of a thread. -/
inductive Visible (ι C R : Type*)
  | call (t : ι) (c : C)
  | reply (t : ι) (r : R)
  deriving DecidableEq

def Visible.thread : Visible ι C R → ι
  | .call t _ => t
  | .reply t _ => t

variable {es es' : List (Visible ι C R)} {e : Visible ι C R} {t : ι} {c : C} {r : R} {m : ℕ}

/-- A call, by its place in a history, and the reply it gets. -/
structure Operation (ι C R : Type*) where
  place : ℕ
  thread : ι
  call : C
  reply : R

/-- The operation is replied to at place `m`: no other event of its thread
comes between. -/
structure Replied (es : List (Visible ι C R)) (o : Operation ι C R) (m : ℕ) : Prop where
  place_lt : o.place < m
  reply_eq : es[m]? = some (.reply o.thread o.reply)
  between : ∀ k, o.place < k → k < m → ∀ e, es[k]? = some e → e.thread ≠ o.thread

/-- **An order in which the calls of a history take effect.** Calls without
a reply may be among them. -/
structure Linearizes (O : Object σ C R) (es : List (Visible ι C R)) (L : List (Operation ι C R)) :
    Prop where
  /-- Called in this order by one thread, the object gives these replies. -/
  legal : ∃ s, O.Calls O.init (L.map Operation.call) (L.map Operation.reply) s
  called : ∀ o ∈ L, es[o.place]? = some (.call o.thread o.call)
  once : (L.map Operation.place).Nodup
  /-- Every reply seen is that of an operation. -/
  replied : ∀ m t r, es[m]? = some (.reply t r) → ∃ o ∈ L, o.thread = t ∧ o.reply = r ∧
    Replied es o m
  /-- An operation replied to before another one is called comes first. -/
  order : L.Pairwise fun o o' => ∀ m, Replied es o' m → o.place < m

/-- The history is one that the object could have shown. -/
def Linearizable (O : Object σ C R) (es : List (Visible ι C R)) : Prop :=
  ∃ L : List (Operation ι C R), Linearizes O es L

/-! ## Longer histories -/

variable {L : List (Operation ι C R)} {o : Operation ι C R} {k : ℕ}

/-- The place of a call with no event of its thread after it. -/
structure Latest (es : List (Visible ι C R)) (t : ι) (k : ℕ) : Prop where
  place_lt : k < es.length
  after : ∀ j, k < j → ∀ e, es[j]? = some e → e.thread ≠ t

/-- A call stays the latest of its thread while others are seen. -/
theorem Latest.append (h : Latest es t k) (hne : e.thread ≠ t) : Latest (es ++ [e]) t k where
  place_lt := by
    rw [List.length_append]
    exact Nat.lt_add_right _ h.place_lt
  after j hj e' he' := by
    rcases Nat.lt_trichotomy j es.length with hlt | rfl | hgt
    · rw [List.getElem?_append_left hlt] at he'
      exact h.after j hj e' he'
    · rw [List.getElem?_concat_length, Option.some.injEq] at he'
      exact he' ▸ hne
    · rw [List.getElem?_eq_none (by simp; omega)] at he'
      cases he'

/-- The event just seen is the latest of its thread. -/
theorem Latest.last : Latest (es ++ [e]) t es.length where
  place_lt := by simp
  after j hj e' he' := by
    rw [List.getElem?_eq_none (by simp; omega)] at he'
    cases he'

/-- An operation replied to in a longer history was replied to before, or by
the new event. -/
theorem Replied.of_append (h : Replied (es ++ [e]) o m) : Replied es o m ∨ m = es.length := by
  rcases Nat.lt_trichotomy m es.length with hlt | heq | hgt
  · refine Or.inl ⟨h.place_lt, ?_, fun k hk hkm e' he' => h.between k hk hkm e' ?_⟩
    · rw [← List.getElem?_append_left hlt]
      exact h.reply_eq
    · rw [List.getElem?_append_left (Nat.lt_trans hkm hlt)]
      exact he'
  · exact Or.inr heq
  · have hnone := h.reply_eq
    rw [List.getElem?_eq_none (by simp; omega)] at hnone
    cases hnone

/-- What was replied stays so. -/
theorem Replied.append (h : Replied es o m) : Replied (es ++ [e]) o m := by
  have hlt : m < es.length := (List.getElem?_eq_some_iff.mp h.reply_eq).1
  refine ⟨h.place_lt, ?_, fun k hk hkm e' he' => h.between k hk hkm e' ?_⟩
  · rw [List.getElem?_append_left hlt]
    exact h.reply_eq
  · rwa [List.getElem?_append_left (Nat.lt_trans hkm hlt)] at he'

/-- An operation was called within the history. -/
theorem Linearizes.place_lt (h : Linearizes O es L) (ho : o ∈ L) : o.place < es.length :=
  (List.getElem?_eq_some_iff.mp (h.called o ho)).1

/-- **An event more**, which is a call, or the reply of an operation that
took effect. -/
theorem Linearizes.append (h : Linearizes O es L)
    (hreply : ∀ t r, e = .reply t r → ∃ o ∈ L, o.thread = t ∧ o.reply = r ∧ Latest es t o.place) :
    Linearizes O (es ++ [e]) L where
  legal := h.legal
  called o ho := by
    rw [List.getElem?_append_left (h.place_lt ho)]
    exact h.called o ho
  once := h.once
  replied m t r hm := by
    rcases Nat.lt_trichotomy m es.length with hlt | rfl | hgt
    · rw [List.getElem?_append_left hlt] at hm
      obtain ⟨o, ho, ht, hr, hrep⟩ := h.replied m t r hm
      exact ⟨o, ho, ht, hr, hrep.append⟩
    · rw [List.getElem?_concat_length, Option.some.injEq] at hm
      obtain ⟨o, ho, rfl, rfl, hlast⟩ := hreply t r hm
      refine ⟨o, ho, rfl, rfl, hlast.place_lt, ?_, fun k hk hlt e' he' => ?_⟩
      · rw [List.getElem?_concat_length, hm]
      · rw [List.getElem?_append_left hlt] at he'
        exact hlast.after k hk e' he'
    · rw [List.getElem?_eq_none (by simp; omega)] at hm
      cases hm
  order := by
    refine h.order.imp_of_mem fun {o o'} ho _ horder m hm => ?_
    rcases hm.of_append with hm | rfl
    · exact horder m hm
    · exact h.place_lt ho

/-- **An operation more**, which takes effect after all others: it has not
been replied to. -/
theorem Linearizes.take (h : Linearizes O es L) (hlast : Latest es t k)
    (hcall : es[k]? = some (.call t c)) (hnew : k ∉ L.map Operation.place)
    {v v' : σ} (hlegal : O.Calls O.init (L.map Operation.call) (L.map Operation.reply) v)
    (hc : O.call v c r v') :
    Linearizes O es (L ++ [⟨k, t, c, r⟩]) where
  legal := by
    rw [List.map_append, List.map_append]
    exact ⟨v', hlegal.append (.cons hc (.nil v'))⟩
  called o ho := by
    rcases List.mem_append.mp ho with ho | ho
    · exact h.called o ho
    · rw [List.mem_singleton.mp ho]
      exact hcall
  once := by
    rw [List.map_append, List.map_singleton, ← List.concat_eq_append]
    exact h.once.concat hnew
  replied m t' r' hm := by
    obtain ⟨o, ho, hrest⟩ := h.replied m t' r' hm
    exact ⟨o, List.mem_append_left _ ho, hrest⟩
  order := by
    refine List.pairwise_append.mpr ⟨h.order, List.pairwise_singleton .., ?_⟩
    intro o _ o' ho' m hm
    rw [List.mem_singleton.mp ho'] at hm
    exact absurd rfl (hlast.after m hm.place_lt _ hm.reply_eq)

/-! ## The object with its threads -/

/-- Where a thread is with its call. -/
inductive Stage (C R : Type*)
  | out
  | waits (c : C)
  | served (r : R)

/-- **An object whose calls take effect in one step.** -/
structure Shared (σ ι C R : Type*) where
  value : σ
  stage : ι → Stage C R

namespace Shared

variable {s s' s'' : Shared σ ι C R} {v : σ}

def init (O : Object σ C R) : Shared σ ι C R := ⟨O.init, fun _ => .out⟩

variable [DecidableEq ι]

/-- Thread `t` comes to a stage, and the object to a value. -/
def set (s : Shared σ ι C R) (v : σ) (t : ι) (g : Stage C R) : Shared σ ι C R :=
  ⟨v, Function.update s.stage t g⟩

/-- A thread calls, or its call takes effect, or it gets the reply. -/
inductive Step (O : Object σ C R) (s : Shared σ ι C R) :
    List (Visible ι C R) → Shared σ ι C R → Prop
  | call {t : ι} {c : C} (h : s.stage t = .out) :
      Step O s [.call t c] (s.set s.value t (.waits c))
  | take {t : ι} {c : C} {r : R} {v : σ} (h : s.stage t = .waits c) (hc : O.call s.value c r v) :
      Step O s [] (s.set v t (.served r))
  | reply {t : ι} {r : R} (h : s.stage t = .served r) :
      Step O s [.reply t r] (s.set s.value t .out)

/-- Any number of steps, with what is seen of them. -/
inductive Path (O : Object σ C R) : Shared σ ι C R → List (Visible ι C R) → Shared σ ι C R → Prop
  | nil (s : Shared σ ι C R) : Path O s [] s
  | step {s s' s'' : Shared σ ι C R} {es es' : List (Visible ι C R)} (hp : Path O s es s')
      (h : Step O s' es' s'') : Path O s (es ++ es') s''

theorem Path.one (h : Step O s es s') : Path O s es s' := by
  simpa using (Path.nil (O := O) s).step h

/-- Two paths make one. -/
theorem Path.append (h : Path O s es s') (h' : Path O s' es' s'') : Path O s (es ++ es') s'' := by
  induction h' with
  | nil => simpa using h
  | step _ hstep ih => rw [← List.append_assoc]; exact ih.step hstep

/-! ## The moments of effect linearize -/

/-- **What the operations that took effect say of the threads**: one that
waits has called and is not among them, one that is served is. -/
structure Kept (O : Object σ C R) (es : List (Visible ι C R)) (s : Shared σ ι C R)
    (L : List (Operation ι C R)) : Prop extends Linearizes O es L where
  value_eq : O.Calls O.init (L.map Operation.call) (L.map Operation.reply) s.value
  waits : ∀ t c, s.stage t = .waits c → ∃ k, Latest es t k ∧ es[k]? = some (.call t c) ∧
    k ∉ L.map Operation.place
  served : ∀ t r, s.stage t = .served r → ∃ o ∈ L, o.thread = t ∧ o.reply = r ∧
    Latest es t o.place

omit [DecidableEq ι] in
/-- The empty history is linearized by nothing. -/
theorem kept_init (O : Object σ C R) : Kept O ([] : List (Visible ι C R)) (init O) [] where
  legal := ⟨O.init, .nil _⟩
  called o ho := absurd ho List.not_mem_nil
  once := List.nodup_nil
  replied m t r hm := by simp at hm
  order := .nil
  value_eq := .nil _
  waits t c h := by cases h
  served t r h := by cases h

@[simp] theorem set_value (g : Stage C R) : (s.set v t g).value = v := rfl

theorem set_stage_self (g : Stage C R) : (s.set v t g).stage t = g := Function.update_self ..

theorem set_stage_of_ne {u : ι} (g : Stage C R) (hne : u ≠ t) :
    (s.set v t g).stage u = s.stage u :=
  Function.update_of_ne hne ..

theorem set_self : s.set s.value t (s.stage t) = s := by
  rw [set, Function.update_eq_self]

/-- A call takes effect and returns. -/
theorem Path.take_reply (h : s.stage t = .waits c) (hc : O.call s.value c r v) :
    Path O s [.reply t r] (s.set v t .out) := by
  have hreply := Step.reply (O := O) (set_stage_self (s := s) (v := v) (t := t) (.served r))
  rw [set_value, set, set, Function.update_idem] at hreply
  exact (Path.one (.take h hc)).step hreply

variable {L : List (Operation ι C R)} {u : ι}

omit [DecidableEq ι] in
/-- An event of another thread leaves a thread waiting, -/
theorem Kept.waits_append (h : Kept O es s L) (hne : e.thread ≠ u) (hu : s.stage u = .waits c) :
    ∃ k, Latest (es ++ [e]) u k ∧ (es ++ [e])[k]? = some (.call u c) ∧
      k ∉ L.map Operation.place := by
  obtain ⟨k, hlast, hcall, hnew⟩ := h.waits u c hu
  exact ⟨k, hlast.append hne, by rw [List.getElem?_append_left hlast.place_lt]; exact hcall, hnew⟩

omit [DecidableEq ι] in
/-- or served. -/
theorem Kept.served_append (h : Kept O es s L) (hne : e.thread ≠ u) (hu : s.stage u = .served r) :
    ∃ o ∈ L, o.thread = u ∧ o.reply = r ∧ Latest (es ++ [e]) u o.place := by
  obtain ⟨o, ho, hthread, hr, hlast⟩ := h.served u r hu
  exact ⟨o, ho, hthread, hr, hlast.append hne⟩

/-- A thread calls. -/
theorem Kept.call (h : Kept O es s L) :
    Kept O (es ++ [.call t c]) (s.set s.value t (.waits c)) L where
  toLinearizes := h.append fun _ _ heq => by cases heq
  value_eq := h.value_eq
  waits u c' hu := by
    rcases eq_or_ne u t with rfl | hne
    · rw [set_stage_self] at hu
      cases hu
      refine ⟨es.length, .last, List.getElem?_concat_length, fun hmem => ?_⟩
      obtain ⟨o, ho, heq⟩ := List.mem_map.mp hmem
      exact absurd heq (Nat.ne_of_lt (h.place_lt ho))
    · rw [set_stage_of_ne _ hne] at hu
      exact h.waits_append (Ne.symm hne) hu
  served u r hu := by
    rcases eq_or_ne u t with rfl | hne
    · rw [set_stage_self] at hu
      cases hu
    · rw [set_stage_of_ne _ hne] at hu
      exact h.served_append (Ne.symm hne) hu

/-- A call takes effect. -/
theorem Kept.take (h : Kept O es s L) (hstage : s.stage t = .waits c)
    (hc : O.call s.value c r v) : ∃ L' : List (Operation ι C R),
      Kept O es (s.set v t (.served r)) L' := by
  obtain ⟨k, hlast, hcall, hnew⟩ := h.waits t c hstage
  refine ⟨L ++ [⟨k, t, c, r⟩], h.toLinearizes.take hlast hcall hnew h.value_eq hc, ?_,
    fun u c' hu => ?_, fun u r' hu => ?_⟩
  · rw [List.map_append, List.map_append]
    exact h.value_eq.append (.cons hc (.nil v))
  · rcases eq_or_ne u t with rfl | hne
    · rw [set_stage_self] at hu
      cases hu
    · rw [set_stage_of_ne _ hne] at hu
      obtain ⟨k', hlast', hcall', hnew'⟩ := h.waits u c' hu
      refine ⟨k', hlast', hcall', fun hmem => ?_⟩
      rw [List.map_append, List.mem_append, List.map_singleton, List.mem_singleton] at hmem
      rcases hmem with hmem | rfl
      · exact hnew' hmem
      · -- one place is a call of one thread
        rw [hcall] at hcall'
        cases hcall'
        exact hne rfl
  · rcases eq_or_ne u t with rfl | hne
    · rw [set_stage_self] at hu
      cases hu
      exact ⟨_, List.mem_append_right _ (List.mem_singleton_self _), rfl, rfl, hlast⟩
    · rw [set_stage_of_ne _ hne] at hu
      obtain ⟨o, ho, hrest⟩ := h.served u r' hu
      exact ⟨o, List.mem_append_left _ ho, hrest⟩

/-- A thread gets its reply. -/
theorem Kept.reply (h : Kept O es s L) (hstage : s.stage t = .served r) :
    Kept O (es ++ [.reply t r]) (s.set s.value t .out) L where
  toLinearizes := h.append fun t' r' heq => by
    cases heq
    exact h.served t r hstage
  value_eq := h.value_eq
  waits u c hu := by
    rcases eq_or_ne u t with rfl | hne
    · rw [set_stage_self] at hu
      cases hu
    · rw [set_stage_of_ne _ hne] at hu
      exact h.waits_append (Ne.symm hne) hu
  served u r' hu := by
    rcases eq_or_ne u t with rfl | hne
    · rw [set_stage_self] at hu
      cases hu
    · rw [set_stage_of_ne _ hne] at hu
      exact h.served_append (Ne.symm hne) hu

/-- **Every step of the shared object keeps a linearization.** -/
theorem Kept.step (h : Kept O es s L) (hs : Step O s es' s') :
    ∃ L' : List (Operation ι C R), Kept O (es ++ es') s' L' := by
  cases hs with
  | call => exact ⟨L, h.call⟩
  | take hstage hc =>
    rw [List.append_nil]
    exact h.take hstage hc
  | reply hstage => exact ⟨L, h.reply hstage⟩

/-- **Every stretch of steps keeps the order of effects.** -/
theorem Kept.path (h : Kept O es s L) (hp : Path O s es' s') :
    ∃ L' : List (Operation ι C R), Kept O (es ++ es') s' L' := by
  induction hp with
  | nil =>
    rw [List.append_nil]
    exact ⟨L, h⟩
  | step _ hstep ih =>
    obtain ⟨L', h'⟩ := ih
    rw [← List.append_assoc]
    exact h'.step hstep

end Shared

/-! ## Simulation -/

variable [DecidableEq ι] {M : Machine τ α} {ok : τ → α → τ → Prop}
variable {obs : τ → α → List (Visible ι C R)} {x : τ}

/-- **A machine that the object with its threads simulates** has linearizable
histories: each step is a stretch of steps of the object, in which calls of
several threads may take effect. -/
theorem linearizable_of_relation (Rel : τ → Shared σ ι C R → Prop)
    (h0 : Rel M.init (Shared.init O))
    (hstep : ∀ x a x' s, M.Run ok x → Rel x s → M.step x a = some x' → ok x a x' →
      ∃ s', Shared.Path O s (obs x a) s' ∧ Rel x' s')
    (h : M.Seen ok obs es x) : Linearizable O es := by
  have hkept : ∃ s, Rel x s ∧ ∃ L : List (Operation ι C R), Shared.Kept O es s L := by
    induction h with
    | init => exact ⟨_, h0, [], Shared.kept_init O⟩
    | step hs h hok ih =>
      obtain ⟨s, hrel, L, hL⟩ := ih
      obtain ⟨s', hpath, hrel'⟩ := hstep _ _ _ _ hs.run hrel h hok
      exact ⟨s', hrel', hL.path hpath⟩
  obtain ⟨s, -, L, hL⟩ := hkept
  exact ⟨L, hL.toLinearizes⟩

/-- Where the simulation is a function. -/
theorem linearizable_of_simulation (abs : τ → Shared σ ι C R)
    (h0 : abs M.init = Shared.init O)
    (hstep : ∀ x a x', M.Run ok x → M.step x a = some x' → ok x a x' →
      Shared.Path O (abs x) (obs x a) (abs x'))
    (h : M.Seen ok obs es x) : Linearizable O es := by
  refine linearizable_of_relation (fun x s => abs x = s) h0 ?_ h
  rintro x a x' s hr rfl hs hok
  exact ⟨_, hstep x a x' hr hs hok, rfl⟩

omit [DecidableEq ι] in
/-- **What one object could have shown, so could one that simulates it.** -/
theorem Linearizable.simulate {υ : Type*} (Q : Object υ C R) (Rel : σ → υ → Prop)
    (h0 : Rel O.init Q.init)
    (hstep : ∀ {s u c r s'}, Rel s u → O.call s c r s' → ∃ u', Q.call u c r u' ∧ Rel s' u')
    (h : Linearizable O es) : Linearizable Q es := by
  obtain ⟨L, hL⟩ := h
  obtain ⟨s, hs⟩ := hL.legal
  obtain ⟨u, hu, -⟩ := hs.simulate Q id Rel hstep h0
  rw [List.map_id] at hu
  exact ⟨L, ⟨u, hu⟩, hL.called, hL.once, hL.replied, hL.order⟩

end Object
