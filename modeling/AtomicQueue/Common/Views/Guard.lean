import AtomicQueue.Common.Views.Latest
/-!
# An atomic location that guards a plain one

Threads win the pair by the value of the atomic location, access the plain
one while they have it, and give both back by a release store. Whoever wins
it reads the latest message with acquire, so that all accesses to the plain
location have happened before. There may be several sides, each waiting for
values of its own.

Among many threads the pair is won by a read-modify-write. Where a side is
one thread alone a load will do, if no older message with such a value is
left that it may read.
-/

namespace Views

/-- The accesses of one atomic and one plain location. -/
abbrev GuardInstr (A B R : Type) := Instr (fun _ : Unit => A) (fun _ : Unit => B) R

/-- **The accesses of one side**, from point `p` of its code: `owns` are the
points past the access that won, `awaits` the values that let it win and
`live` those that let any side win. -/
inductive Shape {A B P R : Type} (alone : Bool) (owns : P → Bool) (point : R → Option P)
    (awaits : A → Bool) (live : A → Prop) : P → GuardInstr A B R → Prop
  | pause {p r p'} (hp : owns p = false) (hr : point r = some p') (hp' : owns p' = false) :
      Shape alone owns point awaits live p (.pause r)
  | look {p o k} (hp : owns p = false)
      (hk : ∀ a, ∃ p', point (k a) = some p' ∧
        (owns p' = true → alone = true ∧ o.acquires = true ∧ awaits a = true)) :
      Shape alone owns point awaits live p (.load () o k)
  | claim {p expected desired success failure r k} (halone : alone = false) (hp : owns p = false)
      (hlive : live expected) (hacq : success.acquires = true)
      (hrel : point r = none → success.releases = true)
      (hk : ∀ a, ∃ p', point (k a) = some p' ∧ owns p' = false) :
      Shape alone owns point awaits live p (.cas () expected desired success failure r k)
  | swap {p o f k} (halone : alone = false) (hp : owns p = false) (hlive : ∀ a, live a)
      (hacq : o.acquires = true) (hrel : o.releases = true) :
      Shape alone owns point awaits live p (.rmw () o f k)
  | hold {p writes f k} (hp : owns p = true)
      (hk : ∀ b, ∃ p', point (k b) = some p' ∧ owns p' = true) :
      Shape alone owns point awaits live p (.plain () writes f k)
  | release {p a o r} (hp : owns p = true) (hrel : o.releases = true) (hr : point r = none) :
      Shape alone owns point awaits live p (.store () a o r)

variable {ι L N : Type} {V : L → Type} {W : N → Type} {P R R' : Type}
variable [DecidableEq ι] [DecidableEq L] [DecidableEq N]

/-- **What an access does**, of a thread `t` with view `v` at point `p`: it
waits, perhaps on a message out of date, with one of the results that it may
have, or it does what `run` says of the latest message. -/
inductive Effect (m : Memory ι V W) (last : L → ℕ) (top : ∀ ℓ, Message ι L (V ℓ))
    (v : View ι L) (t : ι) (ℓ : L) (n : N) (alone : Bool) (owns : P → Bool)
    (point : R → Option P) (live : V ℓ → Prop) (p : P) (may : R → Prop)
    (run : Store (fun _ : Unit => V ℓ) (fun _ : Unit => W n) × R) :
    Memory ι V W → View ι L → R → Prop
  | wait {v' r p'} (hp : owns p = false) (hr : point r = some p') (hp' : owns p' = false)
      (hfront : v'.1 ≤ last) (hmay : may r) :
      Effect m last top v t ℓ n alone owns point live p may run m v' r
  | win {v' p'} (halone : alone = true) (hp : owns p = false) (hr : point run.2 = some p')
      (hp' : owns p' = true) (hfront : v'.1 ≤ last) (hcur : v'.1 ℓ = last ℓ)
      (hview : (top ℓ).view ≤ v') (hvalue : run.1.value () = (top ℓ).value)
      (hplain : run.1.plain () = m.plain n) :
      Effect m last top v t ℓ n alone owns point live p may run m v' run.2
  | swap {o msg m' v'} (halone : alone = false) (hp : owns p = false)
      (hlive : live (top ℓ).value) (hw : Writes m last top ℓ o (last ℓ + 1) msg m' v')
      (hvalue : run.1.value () = msg.value) (hplain : run.1.plain () = m.plain n)
      (hmsg : (top ℓ).view ≤ msg.view) (hview : (top ℓ).view ≤ v')
      (hrel : point run.2 = none → v' ≤ msg.view) :
      Effect m last top v t ℓ n alone owns point live p may run m' v' run.2
  | hold {writes p'} (hp : owns p = true) (hr : point run.2 = some p') (hp' : owns p' = true)
      (hvalue : run.1.value () = (top ℓ).value) :
      Effect m last top v t ℓ n alone owns point live p may run
        (m.access n ⟨t, v.2 t + 1, writes⟩ (run.1.plain ())) (tick v t) run.2
  | release {o τ msg m' v'} (hp : owns p = true) (hr : point run.2 = none)
      (hw : Writes m last top ℓ o τ msg m' v') (hvalue : run.1.value () = msg.value)
      (hplain : run.1.plain () = m.plain n) (hrel : v' ≤ msg.view) :
      Effect m last top v t ℓ n alone owns point live p may run m' v' run.2

variable {m m' : Memory ι V W} {last : L → ℕ}
variable {top : ∀ ℓ, Message ι L (V ℓ)} {v v' : View ι L} {t : ι} {c : Choice} {ℓ : L} {n : N}
variable {alone : Bool} {owns : P → Bool} {point : R → Option P} {awaits : V ℓ → Bool}
variable {live : V ℓ → Prop} {p : P} {i : GuardInstr (V ℓ) (W n) R} {f : R → R'} {r' : R'}

/-- **The accesses of these shapes have these effects**, if an owner has seen
the latest message, a thread alone could not win by an older one, and after
every older one that would win the place is taken. -/
theorem Shape.effect [∀ ℓ, DecidableEq (V ℓ)] (hi : Shape alone owns point awaits live p i)
    (hL : Latest m last top) (hv : v.1 ≤ last) (hcur : owns p = true → v.1 ℓ = last ℓ)
    (hlone : alone = true → Current m last v ℓ fun x => awaits x = true)
    (hmany : alone = false → Gapless m last ℓ live)
    (h : (i.embed (V := V) (W := W) ℓ n f).exec c t m v = some (m', v', r')) :
    ∃ r, r' = f r ∧ Effect m last top v t ℓ n alone owns point live p
      (fun r => ∃ fails s, (i.run fails s).2 = r)
      (i.run c.fails ⟨fun _ => (top ℓ).value, fun _ => m.plain n⟩) m' v' r := by
  cases hi with
  | @pause r p' hp hr hp' =>
    cases h
    exact ⟨r, rfl, .wait hp hr hp' hv ⟨false, ⟨fun _ => (top ℓ).value, fun _ => m.plain n⟩, rfl⟩⟩
  | @look o k hp hk =>
    obtain ⟨τ, msg, hread, rfl, rfl⟩ := hL.load hv h
    refine ⟨k msg.value, rfl, ?_⟩
    obtain ⟨p', hr, hwin⟩ := hk msg.value
    cases hp' : owns p' with
    | false =>
      exact .wait hp hr hp' hread.front_le
        ⟨false, ⟨fun _ => msg.value, fun _ => m'.plain n⟩, rfl⟩
    | true =>
      obtain ⟨halone, hacq, hawaits⟩ := hwin hp'
      obtain ⟨rfl, rfl⟩ := (hlone halone).eq_last hL hread.le hread.found hawaits
      exact .win halone hp hr hp' hread.front_le (le_antisymm (hread.front_le ℓ) hread.le_front)
        (hread.received hacq) rfl rfl
  | @claim expected desired success failure r k halone hp hlive hacq hrel hk =>
    rcases hL.cas hv ((hmany halone).mono fun x hx => hx ▸ hlive) h with
      ⟨msg, hw, hval, hexp, hmsg, hview, hfails, rfl⟩ | ⟨τ, msg, hread, rfl, rfl⟩
    · refine ⟨r, rfl, ?_⟩
      have hrun : (Instr.cas (W := fun _ : Unit => W n) () expected desired success failure r k).run
          c.fails ⟨fun _ => (top ℓ).value, fun _ => m.plain n⟩ =
          (Store.set ⟨fun _ => (top ℓ).value, fun _ => m.plain n⟩ () desired, r) := by
        rw [Instr.run, if_pos ⟨hexp, hfails⟩]
      rw [hrun]
      exact .swap halone hp (hexp ▸ hlive) hw (Store.set_value_self.trans hval.symm)
        rfl hmsg (hview hacq) fun hr => hw.released (hrel hr)
    · obtain ⟨p', hr, hp'⟩ := hk msg.value
      refine ⟨k msg.value, rfl, .wait hp hr hp' hread.front_le
        ⟨true, ⟨fun _ => msg.value, fun _ => m'.plain n⟩, ?_⟩⟩
      rw [Instr.run, if_neg (by simp)]
  | @swap o f k halone hp hlive hacq hrel =>
    obtain ⟨msg, hw, hval, hmsg, hview, rfl⟩ := hL.rmw hv ((hmany halone).mono fun x _ => hlive x) h
    refine ⟨k (top ℓ).value, rfl, ?_⟩
    exact .swap halone hp (hlive _) hw (Store.set_value_self.trans hval.symm)
      rfl hmsg (hview hacq) fun _ => hw.released hrel
  | @hold writes g k hp hk =>
    obtain ⟨rfl, rfl, rfl⟩ := Instr.exec_plain h
    obtain ⟨p', hr, hp'⟩ := hk (m.plain n)
    have hplain : ((Instr.plain (V := fun _ : Unit => V ℓ) (W := fun _ : Unit => W n) () writes g
        k).run c.fails ⟨fun _ => (top ℓ).value, fun _ => m.plain n⟩).1.plain () =
        g (m.plain n) := Store.setPlain_plain_self
    refine ⟨k (m.plain n), rfl, ?_⟩
    rw [← hplain]
    exact .hold hp hr hp' rfl
  | @release a o r hp hrel hr =>
    obtain ⟨τ, msg, hw, hval, rfl⟩ := hL.store hv (hcur hp) h
    exact ⟨r, rfl, .release hp hr hw (Store.set_value_self.trans hval.symm) rfl
      (hw.released hrel)⟩

/-! ## What follows from it -/

/-- **After an access that does not wait**: the latest messages are as `run`
says, and what was seen is passed on. -/
structure Exact (m : Memory ι V W) (last : L → ℕ) (top : ∀ ℓ, Message ι L (V ℓ)) (v : View ι L)
    (ℓ : L) (n : N) (alone : Bool) (owns : P → Bool) (point : R → Option P) (live : V ℓ → Prop)
    (p : P) (s : Store (fun _ : Unit => V ℓ) (fun _ : Unit => W n)) (r : R)
    (m' : Memory ι V W) (v' : View ι L) (last' : L → ℕ) (top' : ∀ ℓ, Message ι L (V ℓ)) :
    Prop where
  latest : Latest m' last' top'
  le_last : last ≤ last'
  front_le : v'.1 ≤ last'
  value : (top' ℓ).value = s.value ()
  plain : m'.plain n = s.plain ()
  top_of_ne : ∀ ℓ', ℓ' ≠ ℓ → top' ℓ' = top ℓ'
  last_of_ne : ∀ ℓ', ℓ' ≠ ℓ → last' ℓ' = last ℓ'
  plain_of_ne : ∀ n', n' ≠ n → m'.plain n' = m.plain n'
  log_of_ne : ∀ n', n' ≠ n → m'.log n' = m.log n'
  /-- An owner has seen the latest message, and all accesses if it had seen
  them by `w`. -/
  owned : ∀ p', point r = some p' → owns p' = true →
    v'.1 ℓ = last' ℓ ∧ ∀ w, m.Settled n w → w ≤ v' → m'.Settled n v'
  /-- Who wins has received the latest message. -/
  received : owns p = false → (top ℓ).view ≤ v'
  /-- Without an owner nothing was accessed, and the message passes on what
  the one before it did, -/
  passed : (∀ p', point r = some p' → owns p' = false) →
    m'.log n = m.log n ∧ (owns p = false → (top ℓ).view ≤ (top' ℓ).view)
  /-- and at the end all that the thread has seen. -/
  sent : point r = none → v' ≤ (top' ℓ).view
  /-- An access that does not win, nor only waits, read a value that might
  have won. -/
  live : owns p = false → ∀ p', point r = some p' → owns p' = false →
    alone = false ∧ live (top ℓ).value
  gapless : ∀ Q : ∀ ℓ, V ℓ → Prop, (∀ ℓ', Gapless m last ℓ' (Q ℓ')) →
    (owns p = true → point r = none → ¬ Q ℓ (top ℓ).value) → ∀ ℓ', Gapless m' last' ℓ' (Q ℓ')
  current : alone = true → ∀ (Q : V ℓ → Prop) (w : View ι L), Current m last w ℓ Q →
    (owns p = true → point r = none → ¬ Q (top ℓ).value) → Current m' last' w ℓ Q
  current_of_ne : ∀ ℓ', ℓ' ≠ ℓ → ∀ (Q : V ℓ' → Prop) (w : View ι L), Current m last w ℓ' Q →
    Current m' last' w ℓ' Q
  /-- A thread alone that gives the pair back has seen its message. -/
  released : alone = true → point r = none → v'.1 ℓ = last' ℓ

section

variable {live : V ℓ → Prop} {point : R → Option P} {r : R}
variable {may : R → Prop} {run : Store (fun _ : Unit => V ℓ) (fun _ : Unit => W n) × R}

omit [DecidableEq ι] [DecidableEq N] in
/-- The message of a store, or of a read-modify-write, is the latest one. -/
theorem Writes.exact {o : Order} {τ : ℕ} {msg : Message ι L (V ℓ)} {s : Store _ _}
    (hw : Writes m last top ℓ o τ msg m' v') (hL : Latest m last top)
    (hvalue : s.value () = msg.value) (hplain : s.plain () = m.plain n)
    (hreceived : owns p = false → (top ℓ).view ≤ v' ∧ (top ℓ).view ≤ msg.view)
    (hsent : point r = none → v' ≤ msg.view)
    (hlive : owns p = false → alone = false ∧ live (top ℓ).value ∧ τ = last ℓ + 1)
    (hend : owns p = true → point r = none) :
    Exact m last top v ℓ n alone owns point live p s r m' v' (Function.update last ℓ τ)
      (Function.update top ℓ msg) where
  latest := hw.latest
  le_last := le_update_last hw.after.le
  front_le := hw.front_le
  value := by rw [Function.update_self, hvalue]
  plain := by rw [hw.memory, hplain]; rfl
  top_of_ne ℓ' hne := Function.update_of_ne hne ..
  last_of_ne ℓ' hne := Function.update_of_ne hne ..
  plain_of_ne n' _ := by rw [hw.memory]; rfl
  log_of_ne n' _ := by rw [hw.memory]; rfl
  owned p' hr hp' := by
    refine ⟨by rw [Function.update_self, hw.front], fun w hset hle => ?_⟩
    rw [hw.memory]
    exact hset.mono hle
  received hp := (hreceived hp).1
  passed _ := by
    refine ⟨by rw [hw.memory]; rfl, fun hp => ?_⟩
    rw [Function.update_self]
    exact (hreceived hp).2
  sent hr := by
    rw [Function.update_self]
    exact hsent hr
  live hp _ _ _ := ⟨(hlive hp).1, (hlive hp).2.1⟩
  gapless Q hgap hQ := by
    refine Gapless.writes hgap hL hw fun hval => ?_
    cases hp : owns p with
    | false => exact (hlive hp).2.2
    | true => exact absurd hval (hQ hp (hend hp))
  current halone Q w hcur hQ := by
    rw [hw.memory]
    cases hp : owns p with
    | false => exact absurd (halone.symm.trans (hlive hp).1) (by decide)
    | true => exact hcur.add hL (hQ hp (hend hp))
  current_of_ne ℓ' hne Q w hcur := by
    rw [hw.memory]
    exact hcur.add_of_ne hne
  released _ _ := by rw [Function.update_self, hw.front]

/-- **An access waits, or it is exact.** -/
theorem Effect.exact (h : Effect m last top v t ℓ n alone owns point live p may run m' v' r)
    (hL : Latest m last top) (hv : v.1 ≤ last) (hcur : owns p = true → v.1 ℓ = last ℓ) :
    (m' = m ∧ v'.1 ≤ last ∧ owns p = false ∧ may r ∧
        ∃ p', point r = some p' ∧ owns p' = false) ∨
      r = run.2 ∧ ∃ last' top',
        Exact m last top v ℓ n alone owns point live p run.1 r m' v' last' top' := by
  cases h with
  | wait hp hr hp' hfront hmay => exact Or.inl ⟨rfl, hfront, hp, hmay, _, hr, hp'⟩
  | @win v' p' halone hp hr hp' hfront hfront' hview hvalue hplain =>
    refine Or.inr ⟨rfl, last, top, ?_⟩
    have hno : ∀ q, point run.2 = some q → owns q = true := by
      intro q hq
      rw [hr] at hq
      cases hq
      exact hp'
    exact
      { latest := hL, le_last := le_rfl, front_le := hfront, value := hvalue.symm
        plain := hplain.symm, top_of_ne := fun _ _ => rfl, last_of_ne := fun _ _ => rfl
        plain_of_ne := fun _ _ => rfl, log_of_ne := fun _ _ => rfl
        owned := fun _ _ _ => ⟨hfront', fun w hset hle => hset.mono hle⟩
        received := fun _ => hview
        passed := fun hfree => absurd ((hfree p' hr).symm.trans hp') (by decide)
        sent := fun hnone => by rw [hr] at hnone; cases hnone
        live := fun _ q hq hq' => absurd (hq'.symm.trans (hno q hq)) (by decide)
        gapless := fun Q hgap _ => hgap
        current := fun _ Q w hc _ => hc
        current_of_ne := fun _ _ Q w hc => hc
        released := fun _ hnone => by rw [hr] at hnone; cases hnone }
  | swap halone hp hlive hw hvalue hplain hmsg hview hrel =>
    refine Or.inr ⟨rfl, _, _, hw.exact hL hvalue hplain (fun _ => ⟨hview, hmsg⟩)
      hrel (fun _ => ⟨halone, hlive, rfl⟩) fun hp' => ?_⟩
    exact absurd (hp.symm.trans hp') (by decide)
  | @hold writes p' hp hr hp' hvalue =>
    refine Or.inr ⟨rfl, last, top, ?_⟩
    have hown : ∀ {C : Prop}, owns p = false → C := fun hp' =>
      absurd (hp'.symm.trans hp) (by decide)
    exact
      { latest := hL.access, le_last := le_rfl, front_le := hv, value := hvalue.symm
        plain := Function.update_self .., top_of_ne := fun _ _ => rfl
        last_of_ne := fun _ _ => rfl
        plain_of_ne := fun _ hne => Function.update_of_ne hne ..
        log_of_ne := fun _ hne => Memory.access_log_of_ne hne
        owned := fun _ _ _ => ⟨hcur hp, fun w hset hle => (hset.mono hle).access⟩
        received := fun hp' => hown hp'
        passed := fun hfree => absurd ((hfree p' hr).symm.trans hp') (by decide)
        sent := fun hnone => by rw [hr] at hnone; cases hnone
        live := fun hp' => hown hp'
        gapless := fun Q hgap _ => hgap
        current := fun _ Q w hc _ => hc
        current_of_ne := fun _ _ Q w hc => hc
        released := fun _ hnone => by rw [hr] at hnone; cases hnone }
  | release hp hr hw hvalue hplain hrel =>
    refine Or.inr ⟨rfl, _, _, hw.exact hL hvalue hplain (fun hp' => ?_) (fun _ => hrel)
      (fun hp' => ?_) fun _ => hr⟩
    all_goals exact absurd (hp'.symm.trans hp) (by decide)

end

end Views
