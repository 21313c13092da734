import Mathlib.Tactic.Common
/-!
# Objects called by one caller at a time

An object takes calls and answers them with replies; what a call may reply
and leave behind is a relation, so that an object may take its steps in
several ways. A specification says what the reply is, as a function of an
abstract value, and says nothing of the calls that may not be made. An
object refines it if every call that may be made has an answer, the answer
the specification gives, and keeps the value represented.
-/

/-- **An object.** -/
structure Object (σ C R : Type*) where
  init : σ
  call : σ → C → R → σ → Prop

namespace Object

variable {σ τ α C R : Type*} {O : Object σ C R} {P : Object τ C R}
variable {spec : α → C → Option (R × α)} {ok : C → Prop}
variable {s s' : σ} {a a' : α} {cs : List C} {rs rs' : List R}

/-- The replies a sequence of calls may get, and the state it may end in. -/
inductive Calls (O : Object σ C R) : σ → List C → List R → σ → Prop
  | nil (s : σ) : Calls O s [] [] s
  | cons {s s' s'' : σ} {c : C} {r : R} {cs : List C} {rs : List R} (h : O.call s c r s')
      (hs : Calls O s' cs rs s'') : Calls O s (c :: cs) (r :: rs) s''

/-- What a specification says of a sequence of calls. -/
def replies (spec : α → C → Option (R × α)) : α → List C → Option (List R × α)
  | a, [] => some ([], a)
  | a, c :: cs => (spec a c).bind fun r => (replies spec r.2 cs).map fun q => (r.1 :: q.1, q.2)

/-- **Refinement**, for the calls that are `ok`, by a representation. -/
structure Refines (O : Object σ C R) (spec : α → C → Option (R × α)) (ok : C → Prop)
    (Rep : σ → α → Prop) : Prop where
  /-- Every answer is the one specified, -/
  sound : ∀ {s a c r a' r' s'}, Rep s a → ok c → spec a c = some (r, a') → O.call s c r' s' →
    r' = r ∧ Rep s' a'
  /-- and there is one. -/
  total : ∀ {s a c r a'}, Rep s a → ok c → spec a c = some (r, a') → ∃ r' s', O.call s c r' s'

variable {Rep : σ → α → Prop}

/-- **The replies to a sequence of calls are those specified.** -/
theorem Refines.replies_eq (h : O.Refines spec ok Rep) (hs : Rep s a) (hok : ∀ c ∈ cs, ok c)
    (hspec : replies spec a cs = some (rs, a')) (hcalls : O.Calls s cs rs' s') :
    rs' = rs ∧ Rep s' a' := by
  induction hcalls generalizing a rs with
  | nil s =>
    cases hspec
    exact ⟨rfl, hs⟩
  | @cons s s' s'' c r cs rs' hcall hrest ih =>
    simp only [replies, Option.bind_eq_some_iff, Option.map_eq_some_iff] at hspec
    obtain ⟨⟨r₁, a₁⟩, h₁, ⟨rs₁, a₂⟩, h₂, heq⟩ := hspec
    cases heq
    obtain ⟨rfl, hs'⟩ := h.sound hs (hok c List.mem_cons_self) h₁ hcall
    obtain ⟨rfl, hs''⟩ := ih hs' (fun c hc => hok c (List.mem_cons_of_mem _ hc)) h₂
    exact ⟨rfl, hs''⟩

/-- **Every sequence of calls that may be made gets its replies.** -/
theorem Refines.exists_calls (h : O.Refines spec ok Rep) (hs : Rep s a) (hok : ∀ c ∈ cs, ok c)
    (hspec : replies spec a cs = some (rs, a')) : ∃ s', O.Calls s cs rs s' := by
  induction cs generalizing s a rs with
  | nil =>
    cases hspec
    exact ⟨s, .nil s⟩
  | cons c cs ih =>
    simp only [replies, Option.bind_eq_some_iff, Option.map_eq_some_iff] at hspec
    obtain ⟨⟨r₁, a₁⟩, h₁, ⟨rs₁, a₂⟩, h₂, heq⟩ := hspec
    cases heq
    obtain ⟨r', s₁, hcall⟩ := h.total hs (hok c List.mem_cons_self) h₁
    obtain ⟨rfl, hs₁⟩ := h.sound hs (hok c List.mem_cons_self) h₁ hcall
    obtain ⟨s', hrest⟩ := ih hs₁ (fun c hc => hok c (List.mem_cons_of_mem _ hc)) h₂
    exact ⟨s', .cons hcall hrest⟩

/-- The replies to these calls, the first made on the object as it is
initially, are `rs` and no others. -/
def Answers (O : Object σ C R) (cs : List C) (rs : List R) : Prop :=
  (∃ s, O.Calls O.init cs rs s) ∧ ∀ rs' s, O.Calls O.init cs rs' s → rs' = rs

/-- An object that refines a specification answers as that does. -/
theorem Refines.answers (h : O.Refines spec ok Rep) (hinit : Rep O.init a) (hok : ∀ c ∈ cs, ok c)
    (hspec : replies spec a cs = some (rs, a')) : O.Answers cs rs :=
  ⟨h.exists_calls hinit hok hspec, fun _ _ hcalls => (h.replies_eq hinit hok hspec hcalls).1⟩

/-- The object, called only where `may` allows it. -/
def restrict (O : Object σ C R) (may : σ → C → Prop) : Object σ C R where
  init := O.init
  call s c r s' := may s c ∧ O.call s c r s'

/-- What a sequence of calls after another one replies. -/
theorem replies_append (cs' : List C) :
    replies spec a (cs ++ cs') = (replies spec a cs).bind fun q =>
      (replies spec q.2 cs').map fun q' => (q.1 ++ q'.1, q'.2) := by
  induction cs generalizing a with
  | nil => simp [replies]
  | cons c cs ih =>
    rw [List.cons_append, replies, replies]
    cases spec a c with
    | none => rfl
    | some q =>
      simp only [Option.bind_some, ih]
      cases replies spec q.2 cs with
      | none => rfl
      | some q' =>
        simp only [Option.bind_some, Option.map_some, Option.map_map]
        rfl

/-- Calls made after others. -/
theorem Calls.append (h : O.Calls s cs rs s') {cs' : List C} {s'' : σ}
    (h' : O.Calls s' cs' rs' s'') : O.Calls s (cs ++ cs') (rs ++ rs') s'' := by
  induction h with
  | nil s => exact h'
  | cons hcall _ ih => exact .cons hcall (ih h')

/-- **Simulation.** Where each call of one object is a call of another one,
from related states to related states, so is a sequence of calls. -/
theorem Calls.simulate {D : Type*} (Q : Object τ D R) (f : C → D) (Rel : σ → τ → Prop) {t : τ}
    (hstep : ∀ {s t c r s'}, Rel s t → O.call s c r s' → ∃ t', Q.call t (f c) r t' ∧ Rel s' t')
    (h : O.Calls s cs rs s') (hrel : Rel s t) : ∃ t', Q.Calls t (cs.map f) rs t' ∧ Rel s' t' := by
  induction h generalizing t with
  | nil s => exact ⟨t, .nil t, hrel⟩
  | cons hcall _ ih =>
    obtain ⟨t₁, hcall', hrel'⟩ := hstep hrel hcall
    obtain ⟨t', hcalls, hlast⟩ := ih hrel'
    exact ⟨t', .cons hcall' hcalls, hlast⟩

/-! ## Specifications that say the same -/

variable {β : Type*} {spec' : β → C → Option (R × β)} {π : β → α} {b : β}

/-- Where the abstract values of one specification are read as those of
another, so are the replies to a sequence of calls. -/
theorem replies_map (h : ∀ b c, (spec' b c).map (fun q => (q.1, π q.2)) = spec (π b) c) :
    (replies spec' b cs).map (fun q => (q.1, π q.2)) = replies spec (π b) cs := by
  induction cs generalizing b with
  | nil => rfl
  | cons c cs ih =>
    rw [replies, replies, ← h]
    cases spec' b c with
    | none => rfl
    | some q =>
      simp only [Option.map_some, Option.bind_some, ← ih]
      cases replies spec' q.2 cs <;> rfl

theorem exists_replies (h : ∀ b c, (spec' b c).map (fun q => (q.1, π q.2)) = spec (π b) c)
    (hspec : replies spec (π b) cs = some (rs, a')) :
    ∃ b', replies spec' b cs = some (rs, b') ∧ π b' = a' := by
  rw [← replies_map h] at hspec
  obtain ⟨⟨rs', b'⟩, hb', heq⟩ := Option.map_eq_some_iff.mp hspec
  cases heq
  exact ⟨b', hb', rfl⟩

end Object
