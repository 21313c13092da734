import AtomicQueue.Model.Layout
/-!
# What a slot does

To its users a slot is free, empty or with an element, or it is in the
hands of the one `do_push` or `do_pop` that won it. A step of either
waits, wins the slot, holds it or gives it back, and one
read-modify-write may do the last three at once. `Phase` and its moves
say so, without the memory and the code of either kind of slot; a `Spec`
of a layout is the relation by which its code does these moves and no
others.
-/

namespace AtomicQueue

variable {T : Type} {L : Layout T}

/-- **The state of a slot as its users see it.** In `push p x` the slot is
held by a `do_push` of `x` at point `p`, in `pop p x` by a `do_pop` at
point `p` that is to return `x`. -/
inductive Phase (L : Layout T)
  | free (v : Option T)
  | push (p : L.Push) (x : T)
  | pop (p : L.Pop) (x : T)

/-- **What a step of `do_push(x, …)` does**, from point `p`. -/
inductive PushMove (L : Layout T) (x : T) :
    L.Push → Phase L → PushOut L.Push → Phase L → Prop
  | wait {p p' φ} (hp : L.pushOwns p = false) (hp' : L.pushOwns p' = false) :
      PushMove L x p φ (.next p') φ
  | win {p p'} (hp : L.pushOwns p = false) (hp' : L.pushOwns p' = true) :
      PushMove L x p (.free none) (.next p') (.push p' x)
  /-- The slot is won, filled and given back in one step. -/
  | pass {p} (hp : L.pushOwns p = false) : PushMove L x p (.free none) .done (.free (some x))
  | hold {p p'} (hp : L.pushOwns p = true) (hp' : L.pushOwns p' = true) :
      PushMove L x p (.push p x) (.next p') (.push p' x)
  | release {p} (hp : L.pushOwns p = true) : PushMove L x p (.push p x) .done (.free (some x))

/-- **What a step of `do_pop` does**, from point `p`. -/
inductive PopMove (L : Layout T) : L.Pop → Phase L → PopOut L.Pop T → Phase L → Prop
  | wait {p p' φ} (hp : L.popOwns p = false) (hp' : L.popOwns p' = false) :
      PopMove L p φ (.next p') φ
  | win {p p' x} (hp : L.popOwns p = false) (hp' : L.popOwns p' = true) :
      PopMove L p (.free (some x)) (.next p') (.pop p' x)
  | pass {p x} (hp : L.popOwns p = false) : PopMove L p (.free (some x)) (.done x) (.free none)
  | hold {p p' x} (hp : L.popOwns p = true) (hp' : L.popOwns p' = true) :
      PopMove L p (.pop p x) (.next p') (.pop p' x)
  | release {p x} (hp : L.popOwns p = true) : PopMove L p (.pop p x) (.done x) (.free none)

/-- The phases in which a `do_push` of `x` can be at point `p`. With one
producer it never waits for another `do_push`. -/
def Phase.AtPush (spsc : Bool) (p : L.Push) (x : T) (φ : Phase L) : Prop :=
  if L.pushOwns p then φ = .push p x else spsc = true → ∀ p' x', φ ≠ .push p' x'

/-- The phases in which a `do_pop` can be at point `p`. -/
def Phase.AtPop (spsc : Bool) (p : L.Pop) (φ : Phase L) : Prop :=
  if L.popOwns p then ∃ x, φ = .pop p x else spsc = true → ∀ p' x', φ ≠ .pop p' x'

/-- **The code of a layout does these moves.** `PushPoint` and `PopPoint`
are the points of the code compiled for this value of `spsc_`. -/
structure Spec (L : Layout T) (spsc : Bool) where
  Holds : L.Cell → Phase L → Prop
  PushPoint : L.Push → Prop
  PopPoint : L.Pop → Prop
  holds_fresh : Holds L.fresh (.free none)
  pushEntry_point : PushPoint L.pushEntry
  pushEntry_owns : L.pushOwns L.pushEntry = false
  popEntry_point : PopPoint L.popEntry
  popEntry_owns : L.popOwns L.popEntry = false
  /-- A slot won is kept until the return. -/
  push_keeps : ∀ {weak x c p p'}, L.pushOwns p = true → (L.pushStep weak x c p).2 = .next p' →
    L.pushOwns p' = true
  pop_keeps : ∀ {weak c p p'}, L.popOwns p = true → (L.popStep weak c p).2 = .next p' →
    L.popOwns p' = true
  push_point : ∀ {weak x c p p'}, PushPoint p → (L.pushStep weak x c p).2 = .next p' →
    PushPoint p'
  pop_point : ∀ {weak c p p'}, PopPoint p → (L.popStep weak c p).2 = .next p' → PopPoint p'
  push_move : ∀ {x c p φ} weak, L.admits x = true → PushPoint p → Holds c φ → φ.AtPush spsc p x →
    ∃ φ', Holds (L.pushStep weak x c p).1 φ' ∧ PushMove L x p φ (L.pushStep weak x c p).2 φ'
  pop_move : ∀ {c p φ} weak, PopPoint p → Holds c φ → φ.AtPop spsc p →
    ∃ φ', Holds (L.popStep weak c p).1 φ' ∧ PopMove L p φ (L.popStep weak c p).2 φ'
  /-- The waiting loops test for exactly the two free phases. -/
  awaitsPush_eq : ∀ {c v}, Holds c (.free v) → L.awaitsPush c = v.isNone
  awaitsPop_eq : ∀ {c v}, Holds c (.free v) → L.awaitsPop c = v.isSome
  /-- A slot won by one side is not in the state the other waits for. -/
  awaitsPop_push : ∀ {c p x}, Holds c (.push p x) → L.awaitsPop c = false
  awaitsPush_pop : ∀ {c p x}, Holds c (.pop p x) → L.awaitsPush c = false
  /-- A step that neither waits nor fails spuriously comes closer to the
  return. -/
  pushRank : L.Push → ℕ
  popRank : L.Pop → ℕ
  push_progress : ∀ {x c p p'}, PushPoint p → (L.pushOwns p = false → Holds c (.free none)) →
    (L.pushStep false x c p).2 = .next p' → pushRank p' < pushRank p
  pop_progress : ∀ {c p p'}, PopPoint p →
    (L.popOwns p = false → ∃ x, Holds c (.free (some x))) →
    (L.popStep false c p).2 = .next p' → popRank p' < popRank p

/-! ## Atomic elements -/

namespace AtomicElements

variable [DecidableEq T] (nil_ : T) (maximizeThroughput_ spsc_ : Bool)

/-- With read-modify-writes a slot is never held: one step wins it and
gives it back. -/
def Holds (c : T) : Phase (layout nil_ maximizeThroughput_ spsc_) → Prop
  | .free none => c = nil_
  | .free (some x) => c = x ∧ x ≠ nil_
  | .push p _ => spsc_ = true ∧ p = Push.store ∧ c = nil_
  | .pop p x => spsc_ = true ∧ p = Pop.store x ∧ c = x ∧ x ≠ nil_

/-- The points of `do_push` with this `spsc_`. -/
def PushPoint : Push → Prop
  | .load | .store => spsc_ = true
  | .compareExchange | .pause => spsc_ = false

def PopPoint : Pop T → Prop
  | .load | .store _ => spsc_ = true
  | .exchange | .pause => spsc_ = false

variable {nil_ maximizeThroughput_ spsc_}

/-- **The steps of `do_push`.** With one producer the load that finds `NIL`
wins the slot; else the compare-exchange wins it, fills it and gives it
back. -/
theorem push_move {x c : T} {p : Push} {φ : Phase (layout nil_ maximizeThroughput_ spsc_)}
    (weak : Bool) (hx : x ≠ nil_) (hp : PushPoint spsc_ p)
    (hc : Holds nil_ maximizeThroughput_ spsc_ c φ) (hφ : φ.AtPush spsc_ p x) :
    ∃ φ', Holds nil_ maximizeThroughput_ spsc_
        (pushStep nil_ maximizeThroughput_ weak x c p).1 φ' ∧
      PushMove _ x p φ (pushStep nil_ maximizeThroughput_ weak x c p).2 φ' := by
  cases p with
  | load =>
    change spsc_ = true at hp
    rcases φ with (_ | y) | ⟨p', y⟩ | ⟨p', y⟩
    · change c = nil_ at hc
      rw [pushStep, if_neg (not_not_intro hc)]
      exact ⟨.push .store x, ⟨hp, rfl, hc⟩, .win rfl rfl⟩
    · rw [pushStep, if_pos (hc.1 ▸ hc.2)]
      exact ⟨_, hc, .wait rfl rfl⟩
    · exact absurd rfl (hφ hp p' y)
    · rw [pushStep, if_pos (hc.2.2.1 ▸ hc.2.2.2)]
      exact ⟨_, hc, .wait rfl rfl⟩
  | store =>
    obtain rfl : φ = .push .store x := hφ
    exact ⟨.free (some x), ⟨rfl, hx⟩, .release rfl⟩
  | compareExchange =>
    change spsc_ = false at hp
    rcases φ with (_ | y) | ⟨p', y⟩ | ⟨p', y⟩
    · cases weak with
      | false =>
        rw [pushStep, if_pos ⟨hc, rfl⟩]
        exact ⟨.free (some x), ⟨rfl, hx⟩, .pass rfl⟩
      | true =>
        -- it failed spuriously
        rw [pushStep, if_neg (by simp)]
        exact ⟨_, hc, .wait rfl rfl⟩
    · rw [pushStep, if_neg fun h => hc.2 (hc.1 ▸ h.1)]
      exact ⟨_, hc, .wait rfl rfl⟩
    · exact absurd (hp.symm.trans hc.1) (by decide)
    · exact absurd (hp.symm.trans hc.1) (by decide)
  | pause =>
    refine ⟨φ, hc, ?_⟩
    rw [pushStep]
    split <;> exact .wait rfl rfl

/-- **The steps of `do_pop`.** An exchange that finds `NIL` changes nothing,
and any other takes the element and gives the slot back. -/
theorem pop_move {c : T} {p : Pop T} {φ : Phase (layout nil_ maximizeThroughput_ spsc_)}
    (hp : PopPoint spsc_ p) (hc : Holds nil_ maximizeThroughput_ spsc_ c φ)
    (hφ : φ.AtPop spsc_ p) :
    ∃ φ', Holds nil_ maximizeThroughput_ spsc_ (popStep nil_ maximizeThroughput_ c p).1 φ' ∧
      PopMove _ p φ (popStep nil_ maximizeThroughput_ c p).2 φ' := by
  cases p with
  | load =>
    change spsc_ = true at hp
    rcases φ with (_ | y) | ⟨p', y⟩ | ⟨p', y⟩
    · change c = nil_ at hc
      rw [popStep, if_neg (not_not_intro hc)]
      exact ⟨.free none, hc, .wait rfl rfl⟩
    · rw [popStep, if_pos (hc.1 ▸ hc.2), hc.1]
      exact ⟨.pop (.store y) y, ⟨hp, rfl, rfl, hc.2⟩, .win rfl rfl⟩
    · rw [popStep, if_neg (not_not_intro hc.2.2)]
      exact ⟨_, hc, .wait rfl rfl⟩
    · exact absurd rfl (hφ hp p' y)
  | store element =>
    obtain ⟨x, rfl⟩ : ∃ x, φ = .pop (.store element) x := hφ
    cases hc.2.1
    exact ⟨.free none, rfl, .release rfl⟩
  | exchange =>
    change spsc_ = false at hp
    rcases φ with (_ | y) | ⟨p', y⟩ | ⟨p', y⟩
    · -- `NIL` is exchanged for `NIL`
      change c = nil_ at hc
      rw [popStep, if_neg (not_not_intro hc)]
      exact ⟨.free none, rfl, .wait rfl rfl⟩
    · rw [popStep, if_pos (hc.1 ▸ hc.2), hc.1]
      exact ⟨.free none, rfl, .pass rfl⟩
    · exact absurd (hp.symm.trans hc.1) (by decide)
    · exact absurd (hp.symm.trans hc.1) (by decide)
  | pause =>
    refine ⟨φ, hc, ?_⟩
    rw [popStep]
    split <;> exact .wait rfl rfl

/-- No step leaves the loop that `spsc_` chose. -/
theorem push_point {weak : Bool} {x c : T} {p p' : Push} (hp : PushPoint spsc_ p)
    (h : (pushStep nil_ maximizeThroughput_ weak x c p).2 = .next p') : PushPoint spsc_ p' := by
  cases p with
  | store => cases h
  | load | compareExchange | pause =>
    simp only [pushStep] at h
    split at h <;> cases h <;> exact hp

theorem pop_point {c : T} {p p' : Pop T} (hp : PopPoint spsc_ p)
    (h : (popStep nil_ maximizeThroughput_ c p).2 = .next p') : PopPoint spsc_ p' := by
  cases p with
  | store element => cases h
  | load | exchange | pause =>
    simp only [popStep] at h
    split at h <;> cases h <;> exact hp

/-- A free slot is `NIL` exactly if it has no element. -/
theorem awaitsPush_eq {c : T} {v : Option T}
    (h : Holds nil_ maximizeThroughput_ spsc_ c (.free v)) : decide (c = nil_) = v.isNone := by
  cases v with
  | none => exact decide_eq_true h
  | some x => exact decide_eq_false (h.1 ▸ h.2)

theorem awaitsPop_eq {c : T} {v : Option T}
    (h : Holds nil_ maximizeThroughput_ spsc_ c (.free v)) : decide (c ≠ nil_) = v.isSome := by
  rw [decide_not, awaitsPush_eq h, Option.not_isNone]

/-- With one producer the slot is `NIL` until the store, so that no consumer
takes it for full, -/
theorem awaitsPop_push {c x : T} {p : Push}
    (h : Holds nil_ maximizeThroughput_ spsc_ c (.push p x)) : decide (c ≠ nil_) = false :=
  decide_eq_false (not_not_intro h.2.2)

/-- and with one consumer the element is there until the store of `NIL`. -/
theorem awaitsPush_pop {c x : T} {p : Pop T}
    (h : Holds nil_ maximizeThroughput_ spsc_ c (.pop p x)) : decide (c = nil_) = false :=
  decide_eq_false (h.2.2.1 ▸ h.2.2.2)

/-- The steps to the return that are neither waits nor failures. -/
def pushRank : Push → ℕ
  | .store | .compareExchange => 0
  | .load | .pause => 1

def popRank : Pop T → ℕ
  | .store _ | .exchange => 0
  | .load | .pause => 1

/-- On a slot without an element no step of `do_push` waits: it comes closer
to the one that returns, -/
theorem push_progress {x c : T} {p p' : Push}
    (hc : (layout nil_ maximizeThroughput_ spsc_).pushOwns p = false →
      Holds nil_ maximizeThroughput_ spsc_ c (.free none))
    (h : (pushStep nil_ maximizeThroughput_ false x c p).2 = .next p') :
    pushRank p' < pushRank p := by
  cases p with
  | store => cases h
  | load =>
    obtain rfl : c = nil_ := hc rfl
    rw [pushStep, if_neg (not_not_intro rfl)] at h
    cases h
    decide
  | compareExchange =>
    obtain rfl : c = nil_ := hc rfl
    rw [pushStep, if_pos ⟨rfl, rfl⟩] at h
    cases h
  | pause =>
    obtain rfl : c = nil_ := hc rfl
    rw [pushStep, if_neg (by simp)] at h
    cases h
    decide

/-- and so does a step of `do_pop` on a slot with one. -/
theorem pop_progress {c : T} {p p' : Pop T}
    (hc : (layout nil_ maximizeThroughput_ spsc_).popOwns p = false →
      ∃ x, Holds nil_ maximizeThroughput_ spsc_ c (.free (some x)))
    (h : (popStep nil_ maximizeThroughput_ c p).2 = .next p') : popRank p' < popRank p := by
  cases p with
  | store element => cases h
  | load =>
    obtain ⟨x, rfl, hx⟩ := hc rfl
    rw [popStep, if_pos hx] at h
    cases h
    exact Nat.zero_lt_one
  | exchange =>
    obtain ⟨x, rfl, hx⟩ := hc rfl
    rw [popStep, if_pos hx] at h
    cases h
  | pause =>
    obtain ⟨x, rfl, hx⟩ := hc rfl
    rw [popStep, if_neg (by simp [hx])] at h
    cases h
    exact Nat.zero_lt_one

variable (nil_ maximizeThroughput_ spsc_)

/-- **The code of the atomic slots does the moves of a slot.** -/
def spec : Spec (layout nil_ maximizeThroughput_ spsc_) spsc_ where
  Holds := Holds nil_ maximizeThroughput_ spsc_
  PushPoint := PushPoint spsc_
  PopPoint := PopPoint spsc_
  holds_fresh := rfl
  pushEntry_point := by cases spsc_ <;> rfl
  pushEntry_owns := by cases spsc_ <;> rfl
  popEntry_point := by cases spsc_ <;> rfl
  popEntry_owns := by cases spsc_ <;> rfl
  push_keeps {_ _ _ p _} hp h := by
    cases p with
    | store => cases h
    | load | compareExchange | pause => cases hp
  pop_keeps {_ _ p _} hp h := by
    cases p with
    | store element => cases h
    | load | exchange | pause => cases hp
  push_point := push_point (T := T)
  pop_point := pop_point
  push_move {x c p φ} weak hx := push_move (T := T) (c := c) weak (of_decide_eq_true hx)
  pop_move _ := pop_move
  awaitsPush_eq h := awaitsPush_eq h
  awaitsPop_eq h := awaitsPop_eq h
  awaitsPop_push h := awaitsPop_push h
  awaitsPush_pop h := awaitsPush_pop h
  pushRank := pushRank
  popRank := popRank
  push_progress _ hc := push_progress (T := T) hc
  pop_progress _ hc := pop_progress (T := T) hc

end AtomicElements

/-! ## Elements guarded by a state -/

namespace StateElements

variable (E : ElementType T) (maximizeThroughput_ spsc_ : Bool)

/-- With one producer and one consumer the state is not changed by
winning the slot. -/
def Holds (c : Cell T) : Phase (layout E maximizeThroughput_ spsc_) → Prop
  | .free none => c.state = .EMPTY
  | .free (some x) => c.state = .STORED ∧ c.element = x
  | .push p x =>
    c.state = (if spsc_ then .EMPTY else .STORING) ∧ pushOwns p = true ∧
      (p = Push.publish → c.element = x)
  | .pop p x =>
    c.state = (if spsc_ then .STORED else .LOADING) ∧ popOwns p = true ∧
      (∀ y, p = Pop.release y → y = x) ∧ (p = Pop.move ∨ p = Pop.moving → c.element = x)

def PushPoint : Push → Prop
  | .load => spsc_ = true
  | .compareExchange | .pause => spsc_ = false
  | .assign | .assigning | .publish => True

def PopPoint : Pop T → Prop
  | .load => spsc_ = true
  | .compareExchange | .pause => spsc_ = false
  | .move | .moving | .release _ => True

variable {E maximizeThroughput_ spsc_}

/-- **The steps of `do_push`.** The slot is held from the access that wins it
to the store of `STORED`, with the element assigned in between. -/
theorem push_move {x : T} {c : Cell T} {p : Push}
    {φ : Phase (layout E maximizeThroughput_ spsc_)} (weak : Bool) (hp : PushPoint spsc_ p)
    (hc : Holds E maximizeThroughput_ spsc_ c φ) (hφ : φ.AtPush spsc_ p x) :
    ∃ φ', Holds E maximizeThroughput_ spsc_ (pushStep E maximizeThroughput_ weak x c p).1 φ' ∧
      PushMove _ x p φ (pushStep E maximizeThroughput_ weak x c p).2 φ' := by
  cases p with
  | load =>
    change spsc_ = true at hp
    rcases φ with (_ | y) | ⟨p', y⟩ | ⟨p', y⟩
    · change c.state = .EMPTY at hc
      rw [pushStep, if_neg (not_not_intro hc)]
      exact ⟨.push .assign x, ⟨by rw [if_pos hp]; exact hc, rfl, by simp⟩, .win rfl rfl⟩
    · rw [pushStep, if_pos (by rw [hc.1]; decide)]
      exact ⟨_, hc, .wait rfl rfl⟩
    · exact absurd rfl (hφ hp p' y)
    · rw [pushStep, if_pos (by rw [hc.1, if_pos hp]; decide)]
      exact ⟨_, hc, .wait rfl rfl⟩
  | compareExchange =>
    change spsc_ = false at hp
    subst hp
    rcases φ with (_ | y) | ⟨p', y⟩ | ⟨p', y⟩
    · cases weak with
      | false =>
        rw [pushStep, if_pos ⟨hc, rfl⟩]
        exact ⟨.push .assign x, ⟨rfl, rfl, by simp⟩, .win rfl rfl⟩
      | true =>
        rw [pushStep, if_neg (by simp)]
        exact ⟨_, hc, .wait rfl rfl⟩
    all_goals
      rw [pushStep, if_neg (by rintro ⟨h, -⟩; rw [hc.1] at h; simp at h)]
      exact ⟨_, hc, .wait rfl rfl⟩
  | pause =>
    refine ⟨φ, hc, ?_⟩
    rw [pushStep]
    split <;> exact .wait rfl rfl
  | assign =>
    obtain rfl : φ = .push .assign x := hφ
    exact ⟨.push .assigning x, ⟨hc.1, rfl, by simp⟩, .hold rfl rfl⟩
  | assigning =>
    obtain rfl : φ = .push .assigning x := hφ
    exact ⟨.push .publish x, ⟨hc.1, rfl, fun _ => rfl⟩, .hold rfl rfl⟩
  | publish =>
    obtain rfl : φ = .push .publish x := hφ
    exact ⟨.free (some x), ⟨rfl, hc.2.2 rfl⟩, .release rfl⟩

/-- **The steps of `do_pop`.** The slot is held until the store of `EMPTY`,
and the element is moved out before. -/
theorem pop_move {c : Cell T} {p : Pop T} {φ : Phase (layout E maximizeThroughput_ spsc_)}
    (weak : Bool) (hp : PopPoint spsc_ p) (hc : Holds E maximizeThroughput_ spsc_ c φ)
    (hφ : φ.AtPop spsc_ p) :
    ∃ φ', Holds E maximizeThroughput_ spsc_ (popStep E maximizeThroughput_ weak c p).1 φ' ∧
      PopMove _ p φ (popStep E maximizeThroughput_ weak c p).2 φ' := by
  cases p with
  | load =>
    change spsc_ = true at hp
    rcases φ with (_ | y) | ⟨p', y⟩ | ⟨p', y⟩
    · change c.state = .EMPTY at hc
      rw [popStep, if_pos (by rw [hc]; decide)]
      exact ⟨.free none, hc, .wait rfl rfl⟩
    · rw [popStep, if_neg (not_not_intro hc.1)]
      exact ⟨.pop .move y, ⟨by rw [if_pos hp]; exact hc.1, rfl, by simp, fun _ => hc.2⟩,
        .win rfl rfl⟩
    · rw [popStep, if_pos (by rw [hc.1, if_pos hp]; decide)]
      exact ⟨_, hc, .wait rfl rfl⟩
    · exact absurd rfl (hφ hp p' y)
  | compareExchange =>
    change spsc_ = false at hp
    subst hp
    rcases φ with (_ | y) | ⟨p', y⟩ | ⟨p', y⟩
    · change c.state = .EMPTY at hc
      rw [popStep, if_neg (by rintro ⟨h, -⟩; rw [hc] at h; simp at h)]
      exact ⟨.free none, hc, .wait rfl rfl⟩
    · cases weak with
      | false =>
        rw [popStep, if_pos ⟨hc.1, rfl⟩]
        exact ⟨.pop .move y, ⟨rfl, rfl, by simp, fun _ => hc.2⟩, .win rfl rfl⟩
      | true =>
        rw [popStep, if_neg (by simp)]
        exact ⟨_, hc, .wait rfl rfl⟩
    all_goals
      rw [popStep, if_neg (by rintro ⟨h, -⟩; rw [hc.1] at h; simp at h)]
      exact ⟨_, hc, .wait rfl rfl⟩
  | pause =>
    refine ⟨φ, hc, ?_⟩
    rw [popStep]
    split <;> exact .wait rfl rfl
  | move =>
    obtain ⟨x, rfl⟩ : ∃ x, φ = .pop .move x := hφ
    exact ⟨.pop .moving x, ⟨hc.1, rfl, by simp, fun _ => hc.2.2.2 (Or.inl rfl)⟩, .hold rfl rfl⟩
  | moving =>
    obtain ⟨x, rfl⟩ : ∃ x, φ = .pop .moving x := hφ
    have helem : c.element = x := hc.2.2.2 (Or.inr rfl)
    refine ⟨.pop (.release c.element) x, ⟨hc.1, rfl, ?_, by simp⟩, .hold rfl rfl⟩
    intro y hy
    cases hy
    exact helem
  | release element =>
    obtain ⟨x, rfl⟩ : ∃ x, φ = .pop (.release element) x := hφ
    obtain rfl : element = x := hc.2.2.1 element rfl
    exact ⟨.free none, rfl, .release rfl⟩

/-- `spsc_` chooses how the slot is won, and what follows is the same. -/
theorem push_point {weak : Bool} {x : T} {c : Cell T} {p p' : Push} (hp : PushPoint spsc_ p)
    (h : (pushStep E maximizeThroughput_ weak x c p).2 = .next p') : PushPoint spsc_ p' := by
  cases p with
  | publish => cases h
  | assign | assigning => cases h; trivial
  | load | compareExchange | pause =>
    simp only [pushStep] at h
    split at h <;> cases h <;> first | exact hp | trivial

theorem pop_point {weak : Bool} {c : Cell T} {p p' : Pop T} (hp : PopPoint spsc_ p)
    (h : (popStep E maximizeThroughput_ weak c p).2 = .next p') : PopPoint spsc_ p' := by
  cases p with
  | release element => cases h
  | move | moving => cases h; trivial
  | load | compareExchange | pause =>
    simp only [popStep] at h
    split at h <;> cases h <;> first | exact hp | trivial

def pushRank : Push → ℕ
  | .publish => 0
  | .assigning => 1
  | .assign => 2
  | .load | .compareExchange => 3
  | .pause => 4

def popRank : Pop T → ℕ
  | .release _ => 0
  | .moving => 1
  | .move => 2
  | .load | .compareExchange => 3
  | .pause => 4

/-- On an `EMPTY` slot no step of `do_push` waits, -/
theorem push_progress {x : T} {c : Cell T} {p p' : Push}
    (hc : (layout E maximizeThroughput_ spsc_).pushOwns p = false →
      Holds E maximizeThroughput_ spsc_ c (.free none))
    (h : (pushStep E maximizeThroughput_ false x c p).2 = .next p') :
    pushRank p' < pushRank p := by
  cases p with
  | publish => cases h
  | assign | assigning => cases h; decide
  | load =>
    have hstate : c.state = .EMPTY := hc rfl
    rw [pushStep, if_neg (not_not_intro hstate)] at h
    cases h
    decide
  | compareExchange =>
    have hstate : c.state = .EMPTY := hc rfl
    rw [pushStep, if_pos ⟨hstate, rfl⟩] at h
    cases h
    decide
  | pause =>
    have hstate : c.state = .EMPTY := hc rfl
    rw [pushStep, if_neg (by simp [hstate])] at h
    cases h
    decide

/-- nor one of `do_pop` on a `STORED` one. -/
theorem pop_progress {c : Cell T} {p p' : Pop T}
    (hc : (layout E maximizeThroughput_ spsc_).popOwns p = false →
      ∃ x, Holds E maximizeThroughput_ spsc_ c (.free (some x)))
    (h : (popStep E maximizeThroughput_ false c p).2 = .next p') : popRank p' < popRank p := by
  cases p with
  | release element => cases h
  | move | moving => cases h; exact Nat.lt_succ_self _
  | load =>
    obtain ⟨x, hstate, -⟩ := hc rfl
    rw [popStep, if_neg (not_not_intro hstate)] at h
    cases h
    exact Nat.lt_succ_self _
  | compareExchange =>
    obtain ⟨x, hstate, -⟩ := hc rfl
    rw [popStep, if_pos ⟨hstate, rfl⟩] at h
    cases h
    exact Nat.lt_succ_self _
  | pause =>
    obtain ⟨x, hstate, -⟩ := hc rfl
    rw [popStep, if_neg (by simp [hstate])] at h
    cases h
    exact Nat.lt_succ_self _

variable (E maximizeThroughput_ spsc_)

/-- **The code of the guarded slots does the moves of a slot.** -/
def spec : Spec (layout E maximizeThroughput_ spsc_) spsc_ where
  Holds := Holds E maximizeThroughput_ spsc_
  PushPoint := PushPoint spsc_
  PopPoint := PopPoint spsc_
  holds_fresh := rfl
  pushEntry_point := by cases spsc_ <;> rfl
  pushEntry_owns := by cases spsc_ <;> rfl
  popEntry_point := by cases spsc_ <;> rfl
  popEntry_owns := by cases spsc_ <;> rfl
  push_keeps {_ _ _ p _} hp h := by
    cases p with
    | publish => cases h
    | assign | assigning => cases h; rfl
    | load | compareExchange | pause => cases hp
  pop_keeps {_ _ p _} hp h := by
    cases p with
    | release element => cases h
    | move | moving => cases h; rfl
    | load | compareExchange | pause => cases hp
  push_point := push_point
  pop_point := pop_point
  push_move weak _ := push_move weak
  pop_move := pop_move
  awaitsPush_eq {c v} h := by
    cases v with
    | none => exact decide_eq_true h
    | some x => exact decide_eq_false (by rw [h.1]; decide)
  awaitsPop_eq {c v} h := by
    cases v with
    | none =>
      change c.state = .EMPTY at h
      exact decide_eq_false (by rw [h]; decide)
    | some x => exact decide_eq_true h.1
  awaitsPop_push h := decide_eq_false (by rw [h.1]; split <;> decide)
  awaitsPush_pop h := decide_eq_false (by rw [h.1]; split <;> decide)
  pushRank := pushRank
  popRank := popRank
  push_progress _ hc := push_progress hc
  pop_progress _ hc := pop_progress hc

end StateElements

/-- **The slots of a queue class meet their specification.** -/
def Derived.spec [DecidableEq T] (D : Derived T) : Spec D.layout D.spsc_ :=
  match D with
  | ⟨_, spsc_, maximizeThroughput_, .atomic nil_⟩ =>
    AtomicElements.spec nil_ maximizeThroughput_ spsc_
  | ⟨_, spsc_, maximizeThroughput_, .states E⟩ => StateElements.spec E maximizeThroughput_ spsc_

end AtomicQueue
