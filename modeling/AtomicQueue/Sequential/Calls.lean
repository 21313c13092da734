import AtomicQueue.Sequential.Represents
/-!
# A call made alone

From a memory that holds a list, a call has few points to be at, and at
each the memory is as it was or changed in one counter and one slot
(`During`). A step goes from one of these points to another, or ends the
call with the reply of the list (`During.step`); and no `compare_exchange`
failing spuriously, it comes closer to the end. At no point does the call
wait for its slot.
-/

namespace AtomicQueue

variable {T : Type} [DecidableEq T] {D : Derived T}
variable {m m' m₀ : Mem D} {pc pc' : Pc D} {e : Event T D.ring.slots} {l : List T} {c : Call T}
variable {x y : T} {p : ℕ} {weak : Bool} {i : Fin D.ring.slots}

/-- `was_size`, by itself or for another function. -/
def Call.Sizes : Call T → Prop
  | .wasSize | .wasEmpty | .wasFull => True
  | _ => False

/-- **Where a call can be**, begun at memory `m₀` that holds `l`. -/
inductive During (D : Derived T) (m₀ : Mem D) (l : List T) : Call T → Mem D → Pc D → Prop
  | tryPushLoad {x : T} (hx : D.layout.admits x = true) :
      During D m₀ l (.tryPush x) m₀ (.tryPushLoad x)
  | tryPushCheck {x : T} (hx : D.layout.admits x = true) :
      During D m₀ l (.tryPush x) m₀ (.tryPushCheck x m₀.head_)
  | tryPushClaim {x : T} (hx : D.layout.admits x = true) (hroom : l.length < D.ring.slots) :
      During D m₀ l (.tryPush x) m₀ (.tryPushClaim x m₀.head_)
  | pushClaim {x : T} (hx : D.layout.admits x = true) (hroom : l.length < D.ring.slots) :
      During D m₀ l (.push x) m₀ (.pushClaim x)
  | pushStore {x : T} (hx : D.layout.admits x = true) (hroom : l.length < D.ring.slots) :
      During D m₀ l (.push x) m₀ (.pushStore x m₀.head_)
  | doPush {c : Call T} {x : T} {cell : D.layout.Cell} {q : D.layout.Push}
      (hc : c = .tryPush x ∨ c = .push x) (hx : D.layout.admits x = true)
      (hroom : l.length < D.ring.slots) (hq : D.spec.PushPoint q)
      (hcell : D.spec.Holds cell (if D.layout.pushOwns q then .push q x else .free none)) :
      During D m₀ l c ((m₀.setHead (m₀.head_ + 1)).set (D.ring.slot m₀.head_) cell)
        (.doPush x (D.ring.slot m₀.head_) q)
  | tryPopLoad {x : T} : During D m₀ l (.tryPop x) m₀ .tryPopLoad
  | tryPopCheck {x : T} : During D m₀ l (.tryPop x) m₀ (.tryPopCheck m₀.tail_)
  | tryPopClaim {x y : T} {rest : List T} (hl : l = y :: rest) :
      During D m₀ l (.tryPop x) m₀ (.tryPopClaim m₀.tail_)
  | popClaim {y : T} {rest : List T} (hl : l = y :: rest) : During D m₀ l .pop m₀ .popClaim
  | popStore {y : T} {rest : List T} (hl : l = y :: rest) :
      During D m₀ l .pop m₀ (.popStore m₀.tail_)
  | doPop {c : Call T} {y : T} {rest : List T} {cell : D.layout.Cell} {q : D.layout.Pop}
      (hc : c = .pop ∨ ∃ x, c = .tryPop x) (hl : l = y :: rest) (hq : D.spec.PopPoint q)
      (hcell : D.spec.Holds cell (if D.layout.popOwns q then .pop q y else .free (some y))) :
      During D m₀ l c ((m₀.setTail (m₀.tail_ + 1)).set (D.ring.slot m₀.tail_) cell)
        (.doPop (D.ring.slot m₀.tail_) q)
  | wasSizeLoad {c : Call T} {headFirst : Bool} (hc : c.Sizes) :
      During D m₀ l c m₀ (.wasSizeLoad headFirst)
  | wasSizeHead {c : Call T} (hc : c.Sizes) : During D m₀ l c m₀ (.wasSizeHead m₀.head_)
  | wasSizeTail {c : Call T} (hc : c.Sizes) : During D m₀ l c m₀ (.wasSizeTail m₀.tail_)

/-- **How a call ends**: with the reply of the list, the memory holding the
list after it, and untouched by a refusal. -/
def Ends (D : Derived T) (m₀ : Mem D) (p : ℕ) (l : List T) (c : Call T) (m' : Mem D)
    (e : Event T D.ring.slots) : Prop :=
  ∃ r l', fifo D.ring.slots l c = some (r, l') ∧ D.reply c e = some r ∧
    Represents D m' (p + r.taken) l' ∧ (r.refused = true → m' = m₀)

/-- The steps to the end, at most, where none fails spuriously. -/
def Pc.rank : Pc D → ℕ
  | .idle => 0
  | .tryPushLoad _ => D.spec.pushRank D.layout.pushEntry + 3
  | .tryPushCheck _ _ | .pushClaim _ => D.spec.pushRank D.layout.pushEntry + 2
  | .tryPushClaim _ _ | .pushStore _ _ => D.spec.pushRank D.layout.pushEntry + 1
  | .doPush _ _ q => D.spec.pushRank q
  | .tryPopLoad => D.spec.popRank D.layout.popEntry + 3
  | .tryPopCheck _ | .popClaim => D.spec.popRank D.layout.popEntry + 2
  | .tryPopClaim _ | .popStore _ => D.spec.popRank D.layout.popEntry + 1
  | .doPop _ q => D.spec.popRank q
  | .wasSizeLoad _ => 1
  | .wasSizeHead _ | .wasSizeTail _ => 0

/-- **What a step of a call does**: it stays in the call, closer to its end
unless it failed spuriously, or ends it. -/
def Steps (D : Derived T) (m₀ : Mem D) (p : ℕ) (l : List T) (c : Call T) (weak : Bool) (pc : Pc D)
    (m' : Mem D) (pc' : Pc D) (e : Event T D.ring.slots) : Prop :=
  (pc' ≠ .idle ∧ During D m₀ l c m' pc' ∧ (weak = false → pc'.rank < pc.rank)) ∨
    (pc' = .idle ∧ Ends D m₀ p l c m' e)

/-! ## The claims -/

/-- The position at `head_` is claimed: `do_push` begins on an empty slot. -/
theorem During.claimPush (hrep : Represents D m₀ p l) (hclear : D.ring.Clear p l.length)
    (hx : D.layout.admits x = true) (hroom : l.length < D.ring.slots)
    (hc : c = .tryPush x ∨ c = .push x) :
    During D m₀ l c (m₀.setHead (m₀.head_ + 1))
      (.doPush x (D.ring.slot m₀.head_) D.layout.pushEntry) := by
  have hfree := hrep.free_head hclear
  have hd : During D m₀ l c ((m₀.setHead (m₀.head_ + 1)).set (D.ring.slot m₀.head_)
      (m₀.cell (D.ring.slot m₀.head_))) (.doPush x (D.ring.slot m₀.head_) D.layout.pushEntry) :=
    .doPush hc hx hroom D.spec.pushEntry_point (by rw [D.spec.pushEntry_owns]; exact hfree)
  rwa [← Mem.setHead_cell m₀ (m₀.head_ + 1), Mem.set_eq_self] at hd

/-- The position at `tail_` is claimed: `do_pop` begins on a full slot. -/
theorem During.claimPop {rest : List T} (hrep : Represents D m₀ p l) (hl : l = y :: rest)
    (hc : c = .pop ∨ ∃ x, c = .tryPop x) :
    During D m₀ l c (m₀.setTail (m₀.tail_ + 1))
      (.doPop (D.ring.slot m₀.tail_) D.layout.popEntry) := by
  subst hl
  have hfull := hrep.full_tail
  have hd : During D m₀ (y :: rest) c ((m₀.setTail (m₀.tail_ + 1)).set (D.ring.slot m₀.tail_)
      (m₀.cell (D.ring.slot m₀.tail_))) (.doPop (D.ring.slot m₀.tail_) D.layout.popEntry) :=
    .doPop hc rfl D.spec.popEntry_point (by rw [D.spec.popEntry_owns]; exact hfull)
  rwa [← Mem.setTail_cell m₀ (m₀.tail_ + 1), Mem.set_eq_self] at hd

/-- A claim of the position at `head_` is a step. -/
theorem Steps.claimPush (hrep : Represents D m₀ p l) (hclear : D.ring.Clear p l.length)
    (hx : D.layout.admits x = true) (hroom : l.length < D.ring.slots)
    (hc : c = .tryPush x ∨ c = .push x) (hrank : D.spec.pushRank D.layout.pushEntry < pc.rank) :
    Steps D m₀ p l c weak pc (m₀.setHead (m₀.head_ + 1))
      (.doPush x (D.ring.slot m₀.head_) D.layout.pushEntry) (.claimPush x) :=
  Or.inl ⟨by simp, .claimPush hrep hclear hx hroom hc, fun _ => hrank⟩

/-- And one of the position at `tail_`. -/
theorem Steps.claimPop {rest : List T} (hrep : Represents D m₀ p l) (hl : l = y :: rest)
    (hc : c = .pop ∨ ∃ x, c = .tryPop x) (hrank : D.spec.popRank D.layout.popEntry < pc.rank) :
    Steps D m₀ p l c weak pc (m₀.setTail (m₀.tail_ + 1))
      (.doPop (D.ring.slot m₀.tail_) D.layout.popEntry) .claimPop :=
  Or.inl ⟨by simp, .claimPop hrep hl hc, fun _ => hrank⟩

/-! ## The slots -/

/-- The slot that a `do_push` of `x` alone works on is empty or held, and
full at the return. -/
theorem holds_pushStep (weak : Bool) {cell : D.layout.Cell} {q : D.layout.Push}
    (hx : D.layout.admits x = true) (hq : D.spec.PushPoint q)
    (hcell : D.spec.Holds cell (if D.layout.pushOwns q then .push q x else .free none)) :
    match (D.layout.pushStep weak x cell q).2 with
    | .next q' => D.spec.Holds (D.layout.pushStep weak x cell q).1
        (if D.layout.pushOwns q' then .push q' x else .free none)
    | .done => D.spec.Holds (D.layout.pushStep weak x cell q).1 (.free (some x)) := by
  have hphase : Phase.AtPush D.spsc_ q x
      (if D.layout.pushOwns q then .push q x else .free none) := by
    unfold Phase.AtPush
    split <;> simp
  obtain ⟨φ', hφ', hm⟩ := D.spec.push_move weak hx hq hcell hphase
  generalize (D.layout.pushStep weak x cell q).2 = out at hm ⊢
  cases hp : D.layout.pushOwns q <;> simp only [hp] at hm
  · cases hm with
    | wait _ hp' => simpa [hp'] using hφ'
    | win _ hp' => simpa [hp'] using hφ'
    | pass _ => exact hφ'
  · cases hm with
    | wait hp₀ _ => exact absurd (hp₀.symm.trans hp) (by decide)
    | hold _ hp' => simpa [hp'] using hφ'
    | release _ => exact hφ'

/-- The slot that a `do_pop` alone works on is full or held, and empty at
the return of its element. -/
theorem holds_popStep (weak : Bool) {cell : D.layout.Cell} {q : D.layout.Pop}
    (hq : D.spec.PopPoint q)
    (hcell : D.spec.Holds cell (if D.layout.popOwns q then .pop q y else .free (some y))) :
    match (D.layout.popStep weak cell q).2 with
    | .next q' => D.spec.Holds (D.layout.popStep weak cell q).1
        (if D.layout.popOwns q' then .pop q' y else .free (some y))
    | .done z => z = y ∧ D.spec.Holds (D.layout.popStep weak cell q).1 (.free none) := by
  have hphase : Phase.AtPop D.spsc_ q
      (if D.layout.popOwns q then .pop q y else .free (some y)) := by
    unfold Phase.AtPop
    split <;> simp
  obtain ⟨φ', hφ', hm⟩ := D.spec.pop_move weak hq hcell hphase
  generalize (D.layout.popStep weak cell q).2 = out at hm ⊢
  cases hp : D.layout.popOwns q <;> simp only [hp] at hm
  · cases hm with
    | wait _ hp' => simpa [hp'] using hφ'
    | win _ hp' => simpa [hp'] using hφ'
    | pass _ => exact ⟨rfl, hφ'⟩
  · cases hm with
    | wait hp₀ _ => exact absurd (hp₀.symm.trans hp) (by decide)
    | hold _ hp' => simpa [hp'] using hφ'
    | release _ => exact ⟨rfl, hφ'⟩

/-- **A step of `do_push`** leaves the slot empty or in the hands of the
call, or returns having appended the element. -/
theorem During.stepPush (hrep : Represents D m₀ p l) (hclear : D.ring.Clear p l.length)
    (hx : D.layout.admits x = true) (hroom : l.length < D.ring.slots)
    (hc : c = .tryPush x ∨ c = .push x) {cell : D.layout.Cell} {q : D.layout.Push}
    (hq : D.spec.PushPoint q)
    (hcell : D.spec.Holds cell (if D.layout.pushOwns q then .push q x else .free none))
    (hadv : D.advance weak ((m₀.setHead (m₀.head_ + 1)).set (D.ring.slot m₀.head_) cell)
      (.doPush x (D.ring.slot m₀.head_) q) = some (m', pc', e)) :
    Steps D m₀ p l c weak (.doPush x (D.ring.slot m₀.head_) q) m' pc' e := by
  have hstep := holds_pushStep weak hx hq hcell
  rw [Derived.advance, Derived.stepPush, Option.some.injEq] at hadv
  simp only [Mem.set_cell_self] at hadv
  cases ho : (D.layout.pushStep weak x cell q).2 with
  | next q' =>
    rw [ho] at hadv hstep
    cases hadv
    refine Or.inl ⟨by simp, ?_, fun hweak => ?_⟩
    · have hd : During D m₀ l c _ (.doPush x (D.ring.slot m₀.head_) q') :=
        .doPush hc hx hroom (D.spec.push_point hq ho) hstep
      rwa [← Mem.set_set _ (c := cell)] at hd
    · subst hweak
      refine D.spec.push_progress hq (fun hp => ?_) ho
      simpa [hp] using hcell
  | done =>
    rw [ho] at hadv hstep
    cases hadv
    refine Or.inr ⟨rfl, ?_⟩
    have hrep' := hrep.push hroom hclear hstep
    rw [← Mem.set_set _ (c := cell)] at hrep'
    rcases hc with rfl | rfl
    · refine ⟨.tryPush true none, l ++ [x], ?_, rfl, hrep', by simp [Reply.refused]⟩
      rw [fifo, if_pos hroom]
    · exact ⟨.push, l ++ [x], by rw [fifo, if_pos hroom], rfl, hrep', by simp [Reply.refused]⟩

/-- **A step of `do_pop`** leaves the slot full or in the hands of the
call, or returns having taken the first element. -/
theorem During.stepPop {rest : List T} (hrep : Represents D m₀ p l) (hl : l = y :: rest)
    (hc : c = .pop ∨ ∃ x, c = .tryPop x) {cell : D.layout.Cell}
    {q : D.layout.Pop} (hq : D.spec.PopPoint q)
    (hcell : D.spec.Holds cell (if D.layout.popOwns q then .pop q y else .free (some y)))
    (hadv : D.advance weak ((m₀.setTail (m₀.tail_ + 1)).set (D.ring.slot m₀.tail_) cell)
      (.doPop (D.ring.slot m₀.tail_) q) = some (m', pc', e)) :
    Steps D m₀ p l c weak (.doPop (D.ring.slot m₀.tail_) q) m' pc' e := by
  have hstep := holds_popStep weak hq hcell
  rw [Derived.advance, Derived.stepPop, Option.some.injEq] at hadv
  simp only [Mem.set_cell_self] at hadv
  cases ho : (D.layout.popStep weak cell q).2 with
  | next q' =>
    rw [ho] at hadv hstep
    cases hadv
    refine Or.inl ⟨by simp, ?_, fun hweak => ?_⟩
    · have hd : During D m₀ l c _ (.doPop (D.ring.slot m₀.tail_) q') :=
        .doPop hc hl (D.spec.pop_point hq ho) hstep
      rwa [← Mem.set_set _ (c := cell)] at hd
    · subst hweak
      refine D.spec.pop_progress hq (fun hp => ⟨y, ?_⟩) ho
      simpa [hp] using hcell
  | done z =>
    rw [ho] at hadv hstep
    cases hadv
    refine Or.inr ⟨rfl, ?_⟩
    obtain ⟨rfl, hempty⟩ := hstep
    subst hl
    have hrep' := hrep.pop hempty
    rw [← Mem.set_set _ (c := cell)] at hrep'
    rcases hc with rfl | ⟨x, rfl⟩
    · exact ⟨.pop z, rest, rfl, rfl, hrep', by simp [Reply.refused]⟩
    · exact ⟨.tryPop true z, rest, rfl, rfl, hrep', by simp [Reply.refused]⟩

/-! ## The call -/

/-- `was_size` returns the length of the list. -/
theorem Ends.sized (hrep : Represents D m₀ p l) (hc : c.Sizes) :
    Ends D m₀ p l c m₀ (.sized l.length) := by
  cases c with
  | wasSize => exact ⟨_, l, rfl, rfl, hrep, fun _ => rfl⟩
  | wasEmpty => exact ⟨_, l, rfl, rfl, hrep, fun _ => rfl⟩
  | wasFull => exact ⟨_, l, rfl, rfl, hrep, fun _ => rfl⟩
  | _ => exact hc.elim

/-- **A step of a call made alone.** -/
theorem During.step (hrep : Represents D m₀ p l) (hsize : D.ring.slots < 2 ^ 31)
    (hclear : c.appends = true → l.length < D.ring.slots → D.ring.Clear p l.length)
    (h : During D m₀ l c m pc) (hadv : D.advance weak m pc = some (m', pc', e)) :
    Steps D m₀ p l c weak pc m' pc' e := by
  cases h with
  | @tryPushLoad x hx =>
    cases hadv
    exact Or.inl ⟨by simp, .tryPushCheck hx, fun _ => by simp [Pc.rank]⟩
  | @tryPushCheck x hx =>
    rw [Derived.advance] at hadv
    split at hadv <;> rename_i htest <;> rw [hrep.full_iff hsize] at htest <;> cases hadv
    · refine Or.inr ⟨rfl, .tryPush false (some x), l, ?_, rfl, hrep, fun _ => rfl⟩
      rw [fifo, if_neg (by omega)]
    · exact Or.inl ⟨by simp, .tryPushClaim hx (by omega), fun _ => by simp [Pc.rank]⟩
  | @tryPushClaim x hx hroom =>
    rw [Derived.advance] at hadv
    split at hadv
    · cases hadv
      exact .claimPush hrep (hclear rfl hroom) hx hroom (Or.inl rfl) (by simp [Pc.rank])
    · split at hadv <;> cases hadv
      · exact .claimPush hrep (hclear rfl hroom) hx hroom (Or.inl rfl) (by simp [Pc.rank])
      · -- nobody else moves `head_`, so the failure is spurious
        rename_i hfail
        exact Or.inl ⟨by simp, .tryPushCheck hx, fun hweak => absurd ⟨rfl, hweak⟩ hfail⟩
  | @pushClaim x hx hroom =>
    -- with `spsc_` the load, else the `fetch_add`
    rw [Derived.advance] at hadv
    split at hadv <;> cases hadv
    · exact Or.inl ⟨by simp, .pushStore hx hroom, fun _ => by simp [Pc.rank]⟩
    · exact .claimPush hrep (hclear rfl hroom) hx hroom (Or.inr rfl) (by simp [Pc.rank])
  | @pushStore x hx hroom =>
    cases hadv
    exact .claimPush hrep (hclear rfl hroom) hx hroom (Or.inr rfl) (by simp [Pc.rank])
  | doPush hc hx hroom hq hcell =>
    have happends : c.appends = true := by rcases hc with rfl | rfl <;> rfl
    exact During.stepPush hrep (hclear happends hroom) hx hroom hc hq hcell hadv
  | tryPopLoad =>
    cases hadv
    exact Or.inl ⟨by simp, .tryPopCheck, fun _ => by simp [Pc.rank]⟩
  | @tryPopCheck x =>
    rw [Derived.advance] at hadv
    split at hadv <;> rename_i htest <;> rw [hrep.empty_iff hsize] at htest <;> cases hadv
    · subst htest
      exact Or.inr ⟨rfl, .tryPop false x, [], rfl, rfl, hrep, fun _ => rfl⟩
    · obtain ⟨y, rest, hl⟩ := List.exists_cons_of_ne_nil htest
      exact Or.inl ⟨by simp, .tryPopClaim hl, fun _ => by simp [Pc.rank]⟩
  | @tryPopClaim x y rest hl =>
    rw [Derived.advance] at hadv
    split at hadv
    · cases hadv
      exact .claimPop hrep hl (Or.inr ⟨x, rfl⟩) (by simp [Pc.rank])
    · split at hadv <;> cases hadv
      · exact .claimPop hrep hl (Or.inr ⟨x, rfl⟩) (by simp [Pc.rank])
      · rename_i hfail
        exact Or.inl ⟨by simp, .tryPopCheck, fun hweak => absurd ⟨rfl, hweak⟩ hfail⟩
  | @popClaim y rest hl =>
    rw [Derived.advance] at hadv
    split at hadv <;> cases hadv
    · exact Or.inl ⟨by simp, .popStore hl, fun _ => by simp [Pc.rank]⟩
    · exact .claimPop hrep hl (Or.inl rfl) (by simp [Pc.rank])
  | @popStore y rest hl =>
    cases hadv
    exact .claimPop hrep hl (Or.inl rfl) (by simp [Pc.rank])
  | doPop hc hl hq hcell => exact During.stepPop hrep hl hc hq hcell hadv
  | @wasSizeLoad _ headFirst hc =>
    cases hadv
    cases headFirst
    · exact Or.inl ⟨by simp, .wasSizeTail hc, fun _ => by simp [Pc.rank]⟩
    · exact Or.inl ⟨by simp, .wasSizeHead hc, fun _ => by simp [Pc.rank]⟩
  | wasSizeHead hc =>
    cases hadv
    rw [hrep.wasSizeOf_eq hsize]
    exact Or.inr ⟨rfl, .sized hrep hc⟩
  | wasSizeTail hc =>
    cases hadv
    rw [hrep.wasSizeOf_eq hsize]
    exact Or.inr ⟨rfl, .sized hrep hc⟩

end AtomicQueue
