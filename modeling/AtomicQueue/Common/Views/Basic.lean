import Mathlib.Order.Lattice
import Mathlib.Order.BoundedOrder.Lattice
import Mathlib.Order.Nat
import Mathlib.Logic.Function.Basic
import Mathlib.Tactic.Common
/-!
# Memory with relaxed, acquire and release accesses

The stores to an atomic location are messages in a total order, and a load
may return any of them that is not older than what the thread has seen of
the location. A read-modify-write puts its message next after the one it
read, and no other store comes between. A release store sends along what its
thread has seen; who reads it with acquire has seen that too, and so does
who reads a read-modify-write of it. A view is what a thread has seen: for
each location a message, and for each thread a number of its steps, those
that happened before.

The places of the messages are numbers, and a store may take any free place
after the one its thread has seen. So a store need not be the last one of its
location, and every finite order of stores has such numbers.

Plain locations have one value. Their accesses are logged with the step of
the thread that made them, and an access races with an earlier one of
another thread that it does not know to have happened before.

Sequentially consistent accesses are not stronger here than acquire and
release ones, and no load reads from a later store.
-/

/-- **What a thread has seen**: of each location, all messages before a
place; of each thread, its first steps. -/
abbrev View (ι L : Type) := (L → ℕ) × (ι → ℕ)

namespace Views

/-- The order of an access. -/
inductive Order
  | relaxed
  | acquire
  | release
  | acqRel
  deriving DecidableEq

namespace Order

def acquires : Order → Bool
  | acquire | acqRel => true
  | _ => false

def releases : Order → Bool
  | release | acqRel => true
  | _ => false

end Order

/-- A store, with what it sends along. -/
structure Message (ι L α : Type) where
  value : α
  view : View ι L

/-- An access to a plain location: the step of its thread that made it. -/
structure Access (ι : Type) where
  thread : ι
  step : ℕ
  writes : Bool
  deriving DecidableEq

/-- **The memory**, with atomic locations `L` and plain locations `N`. -/
structure Memory (ι : Type) {L N : Type} (V : L → Type) (W : N → Type) where
  msgs : ∀ ℓ, ℕ → Option (Message ι L (V ℓ))
  plain : ∀ n, W n
  log : N → List (Access ι)

/-- **One access to the memory**, and what follows from the value read. -/
inductive Instr {L N : Type} (V : L → Type) (W : N → Type) (R : Type)
  | load (ℓ : L) (o : Order) (k : V ℓ → R)
  | store (ℓ : L) (x : V ℓ) (o : Order) (r : R)
  | rmw (ℓ : L) (o : Order) (f : V ℓ → V ℓ) (k : V ℓ → R)
  /-- A compare-exchange that may fail spuriously. -/
  | cas (ℓ : L) (expected desired : V ℓ) (success failure : Order) (r : R) (k : V ℓ → R)
  /-- An access to a plain location. -/
  | plain (n : N) (writes : Bool) (f : W n → W n) (k : W n → R)
  /-- No access. -/
  | pause (r : R)

/-- What the memory leaves open: the message read, the place of a store,
and whether a compare-exchange fails whatever it reads. -/
structure Choice where
  read : ℕ
  write : ℕ
  fails : Bool

variable {ι L N : Type} {V : L → Type} {W : N → Type} {R : Type}

section

variable [DecidableEq ι] [DecidableEq L] [DecidableEq N]

/-- Thread `t` takes a step, and sees the message at place `τ`. -/
def see (v : View ι L) (t : ι) (ℓ : L) (τ : ℕ) : View ι L :=
  (Function.update v.1 ℓ τ, Function.update v.2 t (v.2 t + 1))

/-- Thread `t` takes a step. -/
def tick (v : View ι L) (t : ι) : View ι L := (v.1, Function.update v.2 t (v.2 t + 1))

/-- What an access of this order takes from a message, -/
def Order.receive (o : Order) (v : View ι L) : View ι L := if o.acquires then v else ⊥

/-- and what it sends along. -/
def Order.send (o : Order) (v : View ι L) : View ι L := if o.releases then v else ⊥

namespace Memory

variable (m : Memory ι V W)

/-- The message at place `τ`, if a thread with view `v` may read it. -/
def read (v : View ι L) (ℓ : L) (τ : ℕ) : Option (Message ι L (V ℓ)) :=
  if v.1 ℓ ≤ τ then m.msgs ℓ τ else none

/-- A message more. -/
def add (ℓ : L) (τ : ℕ) (msg : Message ι L (V ℓ)) : Memory ι V W :=
  { m with msgs := Function.update m.msgs ℓ (Function.update (m.msgs ℓ) τ (some msg)) }

/-- An access to a plain location. -/
def access (n : N) (a : Access ι) (x : W n) : Memory ι V W :=
  { m with
    plain := Function.update m.plain n x
    log := Function.update m.log n (m.log n ++ [a]) }

/-- A thread that has seen `v` would race at its next step: one of the
earlier accesses, itself or the other a write, is not known to have happened
before. -/
def Races (v : View ι L) (n : N) (writes : Bool) : Prop :=
  ∃ a ∈ m.log n, (a.writes = true ∨ writes = true) ∧ v.2 a.thread < a.step

end Memory

/-- The read-modify-write of the message at place `τ`. -/
def exchange (m : Memory ι V W) (v : View ι L) (t : ι) (ℓ : L) (τ : ℕ) (o : Order)
    (msg : Message ι L (V ℓ)) (x : V ℓ) : Option (Memory ι V W × View ι L) :=
  if (m.msgs ℓ (τ + 1)).isNone then
    let v' := see v t ℓ (τ + 1) ⊔ o.receive msg.view
    some (m.add ℓ (τ + 1) ⟨x, msg.view ⊔ o.send v'⟩, v')
  else none

/-- **An access by thread `t`**, which has seen `v`. -/
def Instr.exec [∀ ℓ, DecidableEq (V ℓ)] (c : Choice) (t : ι) (m : Memory ι V W) (v : View ι L) :
    Instr V W R → Option (Memory ι V W × View ι L × R)
  | .load ℓ o k =>
    (m.read v ℓ c.read).map fun msg =>
      (m, see v t ℓ c.read ⊔ o.receive msg.view, k msg.value)
  | .store ℓ x o r =>
    if v.1 ℓ < c.write ∧ (m.msgs ℓ c.write).isNone then
      let v' := see v t ℓ c.write
      some (m.add ℓ c.write ⟨x, o.send v'⟩, v', r)
    else none
  | .rmw ℓ o f k =>
    (m.read v ℓ c.read).bind fun msg =>
      (exchange m v t ℓ c.read o msg (f msg.value)).map fun q => (q.1, q.2, k msg.value)
  | .cas ℓ expected desired success failure r k =>
    (m.read v ℓ c.read).bind fun msg =>
      if msg.value = expected ∧ c.fails = false then
        (exchange m v t ℓ c.read success msg desired).map fun q => (q.1, q.2, r)
      else some (m, see v t ℓ c.read ⊔ failure.receive msg.view, k msg.value)
  | .plain n writes f k =>
    some (m.access n ⟨t, v.2 t + 1, writes⟩ (f (m.plain n)), tick v t, k (m.plain n))
  | .pause r => some (m, tick v t, r)

/-! ## The same accesses to one memory that all threads see -/

/-- One value to each location. -/
structure Store {L N : Type} (V : L → Type) (W : N → Type) where
  value : ∀ ℓ, V ℓ
  plain : ∀ n, W n

namespace Store

variable (s : Store V W)

def set (ℓ : L) (x : V ℓ) : Store V W := { s with value := Function.update s.value ℓ x }

def setPlain (n : N) (x : W n) : Store V W := { s with plain := Function.update s.plain n x }

end Store

/-- **The access, sequentially consistent.** -/
def Instr.run [∀ ℓ, DecidableEq (V ℓ)] (fails : Bool) (s : Store V W) :
    Instr V W R → Store V W × R
  | .load ℓ _ k => (s, k (s.value ℓ))
  | .store ℓ x _ r => (s.set ℓ x, r)
  | .rmw ℓ _ f k => (s.set ℓ (f (s.value ℓ)), k (s.value ℓ))
  | .cas ℓ expected desired _ _ r k =>
    if s.value ℓ = expected ∧ fails = false then (s.set ℓ desired, r) else (s, k (s.value ℓ))
  | .plain n _ f k => (s.setPlain n (f (s.plain n)), k (s.plain n))
  | .pause r => (s, r)

end

/-- **An access of one location**, as one of many: of the atomic location
`ℓ` or the plain location `n`. -/
def Instr.embed {R' : Type} (ℓ : L) (n : N) (f : R → R') :
    Instr (fun _ : Unit => V ℓ) (fun _ : Unit => W n) R → Instr V W R'
  | .load _ o k => .load ℓ o fun x => f (k x)
  | .store _ x o r => .store ℓ x o (f r)
  | .rmw _ o g k => .rmw ℓ o g fun x => f (k x)
  | .cas _ expected desired success failure r k =>
    .cas ℓ expected desired success failure (f r) fun x => f (k x)
  | .plain _ writes g k => .plain n writes g fun y => f (k y)
  | .pause r => .pause (f r)

/-! ## What a thread has seen -/

section

variable {v : View ι L} {o : Order}

/-- No more is taken from a message than it carries, -/
theorem receive_le : o.receive v ≤ v := by
  rw [Order.receive]
  split
  · exact le_rfl
  · exact bot_le

/-- and no more is sent along than was seen. -/
theorem send_le : o.send v ≤ v := by
  rw [Order.send]
  split
  · exact le_rfl
  · exact bot_le

/-- With acquire all of it is taken, -/
theorem receive_of_acquires (h : o.acquires = true) : o.receive v = v := if_pos h

/-- and with release all of it sent. -/
theorem send_of_releases (h : o.releases = true) : o.send v = v := if_pos h

variable [DecidableEq ι] {t : ι}

theorem tick_step : (tick v t).2 t = v.2 t + 1 := Function.update_self ..

/-- A step forgets nothing. -/
theorem le_tick : v ≤ tick v t := by
  refine ⟨le_rfl, fun u => ?_⟩
  rcases eq_or_ne u t with rfl | hne
  · rw [tick_step]
    exact Nat.le_succ _
  · exact (Function.update_of_ne hne ..).ge

variable [DecidableEq L] {ℓ ℓ' : L} {τ : ℕ}

/-- Of the location accessed the thread has seen all up to the message, -/
theorem see_front_self : (see v t ℓ τ).1 ℓ = τ := Function.update_self ..

/-- and of the others what it had. -/
theorem see_front_of_ne (h : ℓ' ≠ ℓ) : (see v t ℓ τ).1 ℓ' = v.1 ℓ' := Function.update_of_ne h ..

/-- Who reads or writes no older message than it has seen forgets nothing. -/
theorem le_see (h : v.1 ℓ ≤ τ) : v ≤ see v t ℓ τ := by
  refine ⟨fun ℓ' => ?_, (le_tick (v := v)).2⟩
  rcases eq_or_ne ℓ' ℓ with rfl | hne
  · rw [see_front_self]
    exact h
  · exact (see_front_of_ne hne).ge

/-- What is seen of the locations stays within bounds. -/
theorem see_front_le {last : L → ℕ} (h : v.1 ≤ last) (hτ : τ ≤ last ℓ) :
    (see v t ℓ τ).1 ≤ last := fun ℓ' => by
  rcases eq_or_ne ℓ' ℓ with rfl | hne
  · rw [see_front_self]
    exact hτ
  · rw [see_front_of_ne hne]
    exact h ℓ'

end

/-! ## The accesses, spelled out -/

section

variable {s : Store V W} {ℓ : L} {n : N}

theorem Store.set_eq_self [DecidableEq L] : s.set ℓ (s.value ℓ) = s := by
  rw [Store.set, Function.update_eq_self]

theorem Store.set_value_self [DecidableEq L] {x : V ℓ} : (s.set ℓ x).value ℓ = x :=
  Function.update_self ..

theorem Store.setPlain_plain_self [DecidableEq N] {y : W n} : (s.setPlain n y).plain n = y :=
  Function.update_self ..

theorem Store.setPlain_eq_self [DecidableEq N] : s.setPlain n (s.plain n) = s := by
  rw [Store.setPlain, Function.update_eq_self]

variable [DecidableEq L] [DecidableEq N]

/-- The other locations do not see the access of one. -/
theorem Instr.embed_run [∀ ℓ, DecidableEq (V ℓ)] {R' : Type} (f : R → R') (fails : Bool)
    (i : Instr (fun _ : Unit => V ℓ) (fun _ : Unit => W n) R) :
    (i.embed ℓ n f).run fails s =
      (((s.set ℓ ((i.run fails ⟨fun _ => s.value ℓ, fun _ => s.plain n⟩).1.value ())).setPlain n
          ((i.run fails ⟨fun _ => s.value ℓ, fun _ => s.plain n⟩).1.plain ())),
        f (i.run fails ⟨fun _ => s.value ℓ, fun _ => s.plain n⟩).2) := by
  have hplain : ∀ x, (s.set ℓ x).setPlain n (s.plain n) = s.set ℓ x := fun x =>
    Store.setPlain_eq_self (s := s.set ℓ x)
  cases i with
  | cas _ expected desired success failure r k =>
    simp only [Instr.embed, Instr.run]
    split
    · simp [Store.set, Store.setPlain]
    · rw [hplain, Store.set_eq_self]
  | plain _ writes g k =>
    simp [Instr.embed, Instr.run, Store.set, Store.setPlain]
  | load | store | rmw | pause => simp [Instr.embed, Instr.run, Store.set, Store.setPlain]

end

section

variable {m m' : Memory ι V W} {v v' : View ι L} {t : ι} {c : Choice}
variable {ℓ ℓ' : L} {τ : ℕ} {o success failure : Order} {x expected desired : V ℓ} {r r' : R}
variable {k : V ℓ → R} {msg : Message ι L (V ℓ)}

/-- A message may be read if it is not older than what was seen. -/
theorem Memory.read_eq_some : m.read v ℓ τ = some msg ↔ v.1 ℓ ≤ τ ∧ m.msgs ℓ τ = some msg := by
  rw [Memory.read, Option.ite_none_right_eq_some]

variable [DecidableEq ι] [DecidableEq L]

/-- The new message is next after the one read, and sends along what that one
did. -/
theorem exchange_eq (h : exchange m v t ℓ τ o msg x = some (m', v')) :
    m.msgs ℓ (τ + 1) = none ∧ v' = see v t ℓ (τ + 1) ⊔ o.receive msg.view ∧
      m' = m.add ℓ (τ + 1) ⟨x, msg.view ⊔ o.send v'⟩ := by
  obtain ⟨hfree, heq⟩ := Option.ite_none_right_eq_some.mp h
  cases heq
  exact ⟨Option.isNone_iff_eq_none.mp hfree, rfl, rfl⟩

variable [DecidableEq N] [∀ ℓ, DecidableEq (V ℓ)]

/-- **A load** takes a message that is not too old, and changes no memory. -/
theorem Instr.exec_load (h : (Instr.load (W := W) ℓ o k).exec c t m v = some (m', v', r)) :
    ∃ msg, m.msgs ℓ c.read = some msg ∧ v.1 ℓ ≤ c.read ∧ m' = m ∧
      v' = see v t ℓ c.read ⊔ o.receive msg.view ∧ r = k msg.value := by
  obtain ⟨msg, hmsg, heq⟩ := Option.map_eq_some_iff.mp h
  obtain ⟨hle, hmsg⟩ := Memory.read_eq_some.mp hmsg
  cases heq
  exact ⟨msg, hmsg, hle, rfl, rfl, rfl⟩

/-- **A store** finds a free place after all its thread has seen of the
location. -/
theorem Instr.exec_store (h : (Instr.store (W := W) ℓ x o r').exec c t m v = some (m', v', r)) :
    v.1 ℓ < c.write ∧ m.msgs ℓ c.write = none ∧ v' = see v t ℓ c.write ∧
      m' = m.add ℓ c.write ⟨x, o.send v'⟩ ∧ r = r' := by
  obtain ⟨⟨hlt, hfree⟩, heq⟩ := Option.ite_none_right_eq_some.mp h
  cases heq
  exact ⟨hlt, Option.isNone_iff_eq_none.mp hfree, rfl, rfl, rfl⟩

/-- **A read-modify-write** is a load, and a store next after the message. -/
theorem Instr.exec_rmw {f : V ℓ → V ℓ}
    (h : (Instr.rmw (W := W) ℓ o f k).exec c t m v = some (m', v', r)) :
    ∃ msg, m.msgs ℓ c.read = some msg ∧ v.1 ℓ ≤ c.read ∧ m.msgs ℓ (c.read + 1) = none ∧
      v' = see v t ℓ (c.read + 1) ⊔ o.receive msg.view ∧
      m' = m.add ℓ (c.read + 1) ⟨f msg.value, msg.view ⊔ o.send v'⟩ ∧ r = k msg.value := by
  obtain ⟨msg, hmsg, hrest⟩ := Option.bind_eq_some_iff.mp h
  obtain ⟨hle, hmsg⟩ := Memory.read_eq_some.mp hmsg
  obtain ⟨q, hq, heq⟩ := Option.map_eq_some_iff.mp hrest
  cases heq
  obtain ⟨hfree, hv, hm⟩ := exchange_eq hq
  exact ⟨msg, hmsg, hle, hfree, hv, hm, rfl⟩

/-- A compare-exchange is a read-modify-write of the value expected, or a
load. -/
theorem Instr.exec_cas
    (h : (Instr.cas (W := W) ℓ expected desired success failure r' k).exec c t m v =
      some (m', v', r)) :
    ∃ msg, m.msgs ℓ c.read = some msg ∧ v.1 ℓ ≤ c.read ∧
      (msg.value = expected ∧ c.fails = false ∧ m.msgs ℓ (c.read + 1) = none ∧
          v' = see v t ℓ (c.read + 1) ⊔ success.receive msg.view ∧
          m' = m.add ℓ (c.read + 1) ⟨desired, msg.view ⊔ success.send v'⟩ ∧ r = r' ∨
        m' = m ∧ v' = see v t ℓ c.read ⊔ failure.receive msg.view ∧ r = k msg.value) := by
  obtain ⟨msg, hmsg, hrest⟩ := Option.bind_eq_some_iff.mp h
  obtain ⟨hle, hmsg⟩ := Memory.read_eq_some.mp hmsg
  refine ⟨msg, hmsg, hle, ?_⟩
  split at hrest
  · obtain ⟨q, hq, heq⟩ := Option.map_eq_some_iff.mp hrest
    cases heq
    obtain ⟨hfree, hv, hm⟩ := exchange_eq hq
    exact Or.inl ⟨And.left ‹_›, And.right ‹_›, hfree, hv, hm, rfl⟩
  · cases hrest
    exact Or.inr ⟨rfl, rfl, rfl⟩

/-- **An access to a plain location** is logged, with the step of its
thread. -/
theorem Instr.exec_plain {n : N} {writes : Bool} {f : W n → W n} {k : W n → R}
    (h : (Instr.plain (V := V) n writes f k).exec c t m v = some (m', v', r)) :
    m' = m.access n ⟨t, v.2 t + 1, writes⟩ (f (m.plain n)) ∧ v' = tick v t ∧
      r = k (m.plain n) := by
  cases h
  exact ⟨rfl, rfl, rfl⟩

/-- **Nothing seen is forgotten.** -/
theorem Instr.le_exec {i : Instr V W R} (h : i.exec c t m v = some (m', v', r)) : v ≤ v' := by
  cases i with
  | load ℓ o k =>
    obtain ⟨msg, -, hle, -, rfl, -⟩ := Instr.exec_load h
    exact (le_see hle).trans le_sup_left
  | store ℓ x o r' =>
    obtain ⟨hlt, -, rfl, -⟩ := Instr.exec_store h
    exact le_see hlt.le
  | rmw ℓ o f k =>
    obtain ⟨msg, -, hle, -, rfl, -⟩ := Instr.exec_rmw h
    exact (le_see (Nat.le_succ_of_le hle)).trans le_sup_left
  | cas ℓ expected desired success failure r' k =>
    obtain ⟨msg, -, hle, ⟨-, -, -, rfl, -⟩ | ⟨-, rfl, -⟩⟩ := Instr.exec_cas h
    · exact (le_see (Nat.le_succ_of_le hle)).trans le_sup_left
    · exact (le_see hle).trans le_sup_left
  | plain n writes f k =>
    obtain ⟨-, rfl, -⟩ := Instr.exec_plain h
    exact le_tick
  | pause r' =>
    cases h
    exact le_tick

end

end Views
