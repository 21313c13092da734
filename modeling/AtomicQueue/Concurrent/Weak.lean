import AtomicQueue.Slot.Orders
import AtomicQueue.Concurrent.Drift
/-!
# The queue on a memory with orders

The latest messages of a run are a queue whose memory all threads see
(`Weak.world`), and each step is a step of that queue or one on values out
of date. For a counter is claimed, and a slot won, by an access to the
latest message; and who wins a slot has received what its last owner sent.
-/

namespace AtomicQueue

open Views

variable {T ι : Type} [DecidableEq T] [DecidableEq ι] {D : Derived T}

namespace Weak

variable {s s' : Weak D ι} {t u : ι} {i j : Fin D.ring.slots} {x : T}
variable {m' : Memory ι D.Value D.Plain} {v' : View ι (Loc D.ring.slots)} {pc' : Pc D}
variable {e : Event T D.ring.slots}

/-- The latest message of each location. -/
abbrev Tops (D : Derived T) (ι : Type) := ∀ ℓ, Message ι (Loc D.ring.slots) (D.Value ℓ)

variable {last last' : Loc D.ring.slots → ℕ} {top top' : Tops D ι}

/-- The memory that the latest messages make. -/
def latest (m : Memory ι D.Value D.Plain) (top : Tops D ι) : Mem D where
  head_ := (top .head).value
  tail_ := (top .tail).value
  cell i := D.accesses.cell (top (.slot i)).value (m.plain i)

/-- **The queue as its latest messages have it.** -/
def world (s : Weak D ι) (top : Tops D ι) : World D ι :=
  ⟨⟨latest s.mem top, s.pc⟩, s.hist⟩

/-- Seen as one memory a step leaves the latest values. -/
theorem world_next : (s.next t m' v' pc' e).world top =
    (s.world top).next t (latest m' top) pc' e := rfl

omit [DecidableEq ι] in
/-- A message on `head_` is the value of `head_`, -/
theorem latest_setHead {τ : ℕ} {msg : Message ι (Loc D.ring.slots) (D.Value .head)} :
    latest (s.mem.add .head τ msg) (Function.update top .head msg) =
      (latest s.mem top).setHead msg.value := rfl

omit [DecidableEq ι] in
/-- and one on `tail_` that of `tail_`. -/
theorem latest_setTail {τ : ℕ} {msg : Message ι (Loc D.ring.slots) (D.Value .tail)} :
    latest (s.mem.add .tail τ msg) (Function.update top .tail msg) =
      (latest s.mem top).setTail msg.value := rfl

omit [DecidableEq ι] in
/-- A slot changed is one slot of the memory changed. -/
theorem latest_set (htop : ∀ ℓ, ℓ ≠ .slot i → top' ℓ = top ℓ)
    (hplain : ∀ j, j ≠ i → m'.plain j = s.mem.plain j) :
    latest m' top' = (latest s.mem top).set i
      (D.accesses.cell (top' (.slot i)).value (m'.plain i)) := by
  rw [latest, Mem.mk.injEq]
  refine ⟨by rw [htop .head (by simp)]; rfl, by rw [htop .tail (by simp)]; rfl, funext fun j => ?_⟩
  rcases eq_or_ne j i with rfl | hne
  · exact (Mem.set_cell_self (m := latest s.mem top)).symm
  · rw [htop (.slot j) (by simp [hne]), hplain j hne]
    exact (Mem.set_cell_of_ne (m := latest s.mem top) hne).symm

/-! ## Who may read what -/

/-- The values that a read-modify-write may replace. -/
def Live (D : Derived T) : ∀ ℓ, D.Value ℓ → Prop
  | .head, _ | .tail, _ => True
  | .slot _, a => D.shaped.awaitsPush a = true ∨ D.shaped.awaitsPop a = true

/-- **Nobody acts upon a value out of date**: among many threads because the
place after it is taken, with one producer and one consumer because they
have seen a later one. -/
inductive Disciplined (m : Memory ι D.Value D.Plain) (view : ι → View ι (Loc D.ring.slots))
    (last : Loc D.ring.slots → ℕ) : Option (ι × ι) → Prop
  | crowd (h : ∀ ℓ, Gapless m last ℓ (Live D ℓ)) : Disciplined m view last none
  | pair {P C} (hhead : (view P).1 .head = last .head) (htail : (view C).1 .tail = last .tail)
      (hpush : ∀ i, Current m last (view P) (.slot i) fun a => D.shaped.awaitsPush a = true)
      (hpop : ∀ i, Current m last (view C) (.slot i) fun a => D.shaped.awaitsPop a = true) :
      Disciplined m view last (some (P, C))

omit [DecidableEq ι] in
/-- A value that nobody awaits is not live. -/
theorem not_live {a : D.accesses.Atom} (hpush : D.shaped.awaitsPush a = false)
    (hpop : D.shaped.awaitsPop a = false) : ¬ Live D (.slot i) a := by
  rintro (h | h)
  · exact absurd (h.symm.trans hpush) (by decide)
  · exact absurd (h.symm.trans hpop) (by decide)

/-- **What is passed on through a slot**: all accesses to the element, and
what the thread of the push whose number it holds has seen. -/
structure Guarded (s : Weak D ι) (last : Loc D.ring.slots → ℕ) (top : Tops D ι)
    (i : Fin D.ring.slots) : Prop where
  free : (∀ t, (s.pc t).owns ≠ some i) → s.mem.Settled i (top (.slot i)).view ∧
    ∀ k, s.hist.chan.cell i = some k → s.sent k ≤ (top (.slot i)).view
  owned : ∀ t, (s.pc t).owns = some i → s.mem.Settled i (s.view t) ∧
    (s.view t).1 (.slot i) = last (.slot i)

/-- **What a push has seen, its pop has seen.** -/
structure Passed (s : Weak D ι) : Prop where
  view : ∀ t i p k, s.pc t = .doPop i p → (s.hist.popNo t, k) ∈ s.hist.chan.takes →
    s.sent k ≤ s.view t
  got : ∀ r ∈ s.hist.received, ∀ k, (r.no, k) ∈ s.hist.chan.takes → s.sent k ≤ s.got r.no

/-- **What every run keeps.** -/
structure Good (roles : Option (ι × ι)) (s : Weak D ι) (last : Loc D.ring.slots → ℕ)
    (top : Tops D ι) : Prop where
  latest : Latest s.mem last top
  front_le : ∀ t, (s.view t).1 ≤ last
  sound : Sound (s.world top)
  homed : Homed (s.world top) roles
  disciplined : Disciplined s.mem s.view last roles
  guarded : ∀ i, Guarded s last top i
  passed : Passed s

variable {roles : Option (ι × ι)}

/-! ## The views -/

theorem next_view_self : (s.next t m' v' pc' e).view t = v' := Function.update_self ..

theorem next_view_of_ne (h : u ≠ t) : (s.next t m' v' pc' e).view u = s.view u :=
  Function.update_of_ne h ..

theorem next_pc_self : (s.next t m' v' pc' e).pc t = pc' := Function.update_self ..

theorem next_pc_of_ne (h : u ≠ t) : (s.next t m' v' pc' e).pc u = s.pc u :=
  Function.update_of_ne h ..

omit [DecidableEq T] in
/-- Nobody forgets what it has seen. -/
theorem le_update_view {view : ι → View ι (Loc D.ring.slots)} (hv : view t ≤ v') (u : ι) :
    view u ≤ Function.update view t v' u := by
  rcases eq_or_ne u t with rfl | hne
  · rwa [Function.update_self]
  · rw [Function.update_of_ne hne]

/-- Nobody has seen what is not there yet. -/
theorem Good.front_next (h : Good roles s last top) (hle : last ≤ last') (hv' : v'.1 ≤ last')
    (u : ι) : ((s.next t m' v' pc' e).view u).1 ≤ last' := by
  rcases eq_or_ne u t with rfl | hne
  · rwa [next_view_self]
  · rw [next_view_of_ne hne]
    exact (h.front_le u).trans hle

omit [DecidableEq T] in
/-- A thread that has seen the latest message of a location still has, if
none was added. -/
theorem front_eq_update {view : ι → View ι (Loc D.ring.slots)} {ℓ : Loc D.ring.slots}
    (h : (view u).1 ℓ = last ℓ) (hlast : last' ℓ = last ℓ) (hv : view t ≤ v')
    (hv' : v'.1 ℓ ≤ last' ℓ) : (Function.update view t v' u).1 ℓ = last' ℓ := by
  rcases eq_or_ne u t with rfl | hne
  · rw [Function.update_self]
    exact le_antisymm hv' ((hlast.trans h.symm).le.trans (hv.1 ℓ))
  · rw [Function.update_of_ne hne, h, hlast]

/-- A thread that only looks leaves the discipline. -/
theorem Disciplined.still {m : Memory ι D.Value D.Plain} {view : ι → View ι (Loc D.ring.slots)}
    (h : Disciplined m view last roles) (hv : view t ≤ v') (hv' : v'.1 ≤ last) :
    Disciplined m (Function.update view t v') last roles := by
  cases h with
  | crowd hgap => exact .crowd hgap
  | pair hhead htail hpush hpop =>
    exact .pair (front_eq_update hhead rfl hv (hv' .head))
      (front_eq_update htail rfl hv (hv' .tail))
      (fun i => (hpush i).mono (le_update_view hv _)) fun i => (hpop i).mono (le_update_view hv _)

/-! ## Steps elsewhere -/

/-- **A step of a thread that has not won the slot**, and does not win it,
leaves what it passes on. -/
theorem Guarded.frame (h : Guarded s last top i) (hold : (s.pc t).owns ≠ some i)
    (hnew : pc'.owns ≠ some i) (hlog : m'.log i = s.mem.log i)
    (hlast : last' (.slot i) = last (.slot i)) (htop : top' (.slot i) = top (.slot i))
    (hcell : (s.hist.record t e).chan.cell i = s.hist.chan.cell i)
    (hsent : ∀ k, s.hist.chan.cell i = some k → (s.next t m' v' pc' e).sent k = s.sent k) :
    Guarded (s.next t m' v' pc' e) last' top' i where
  free hfree := by
    obtain ⟨hset, hk⟩ := h.free fun u hu => by
      rcases eq_or_ne u t with rfl | hne
      · exact hold hu
      · exact hfree u (by rw [next_pc_of_ne hne]; exact hu)
    rw [htop]
    refine ⟨fun a ha => hset a (hlog ▸ ha), fun k hcell' => ?_⟩
    have hcell'' : s.hist.chan.cell i = some k := hcell ▸ hcell'
    rw [hsent k hcell'']
    exact hk k hcell''
  owned u hu := by
    rcases eq_or_ne u t with rfl | hne
    · rw [next_pc_self] at hu
      exact absurd hu hnew
    · rw [next_pc_of_ne hne] at hu
      obtain ⟨hset, hfront⟩ := h.owned u hu
      rw [next_view_of_ne hne, hlast]
      exact ⟨fun a ha => hset a (hlog ▸ ha), hfront⟩

/-- **A step of a thread that pops nothing** passes nothing on to a pop. -/
theorem Passed.frame (h : Passed s) (hv : s.view t ≤ v')
    (htakes : (s.hist.record t e).chan.takes = s.hist.chan.takes)
    (hreceived : (s.hist.record t e).received = s.hist.received)
    (hsent : ∀ m k, (m, k) ∈ s.hist.chan.takes → (s.next t m' v' pc' e).sent k = s.sent k)
    (hgot : (s.next t m' v' pc' e).got = s.got)
    (hself : ∀ i p k, pc' = .doPop i p → ((s.hist.record t e).popNo t, k) ∈ s.hist.chan.takes →
      s.sent k ≤ v') : Passed (s.next t m' v' pc' e) where
  view u i p k hpc hk := by
    replace hk : ((s.hist.record t e).popNo u, k) ∈ s.hist.chan.takes := htakes ▸ hk
    rw [hsent _ k hk]
    rcases eq_or_ne u t with rfl | hne
    · rw [next_pc_self] at hpc
      rw [next_view_self]
      exact hself i p k hpc hk
    · rw [next_pc_of_ne hne] at hpc
      rw [History.record_popNo_of_ne e hne] at hk
      rw [next_view_of_ne hne]
      exact h.view u i p k hpc hk
  got r hr k hk := by
    replace hr : r ∈ s.hist.received := hreceived ▸ hr
    replace hk : (r.no, k) ∈ s.hist.chan.takes := htakes ▸ hk
    rw [hsent _ k hk, hgot]
    exact h.got r hr k hk

/-- **A step outside the slots**, or one that waits for one, keeps all. -/
theorem Good.outside (h : Good roles s last top) (hL : Latest m' last' top') (hle : last ≤ last')
    (hv : s.view t ≤ v') (hv' : v'.1 ≤ last')
    (hsound : Sound ((s.next t m' v' pc' e).world top'))
    (hhomed : Homed ((s.next t m' v' pc' e).world top') roles)
    (hdisc : Disciplined m' (Function.update s.view t v') last' roles)
    (hlog : m'.log = s.mem.log) (hlast : ∀ i, last' (.slot i) = last (.slot i))
    (htop : ∀ i, top' (.slot i) = top (.slot i)) (hold : (s.pc t).owns = none)
    (hnew : pc'.owns = none) (hcell : (s.hist.record t e).chan.cell = s.hist.chan.cell)
    (htakes : (s.hist.record t e).chan.takes = s.hist.chan.takes)
    (hreceived : (s.hist.record t e).received = s.hist.received)
    (hsent : (s.next t m' v' pc' e).sent = s.sent) (hgot : (s.next t m' v' pc' e).got = s.got) :
    Good roles (s.next t m' v' pc' e) last' top' where
  latest := hL
  front_le := h.front_next hle hv'
  sound := hsound
  homed := hhomed
  disciplined := hdisc
  guarded i := (h.guarded i).frame (by simp [hold]) (by simp [hnew]) (by rw [hlog]) (hlast i)
    (htop i) (by rw [hcell]) fun k _ => by rw [hsent]
  passed := by
    refine h.passed.frame hv htakes hreceived (fun _ k _ => by rw [hsent]) hgot ?_
    rintro i p k rfl hk
    -- a pop that waits has taken nothing
    have hp : D.layout.popOwns p = false := by
      by_contra hp
      rw [Pc.owns_doPop, if_pos (by simpa using hp)] at hnew
      cases hnew
    have hpc : ((s.next t m' v' (.doPop i p) e).world top').pc t = .doPop i p :=
      Function.update_self ..
    have hclaim := (pop_claim hsound.popTickets hpc).2.1.mp
      (List.mem_map.mpr ⟨_, htakes.symm ▸ hk, rfl⟩)
    rw [hp] at hclaim
    cases hclaim

/-- All is kept by a step of thread `t`, which is one of the queue that the
latest messages make. -/
def Leads (roles : Option (ι × ι)) (w : World D ι) (t : ι) (s' : Weak D ι) : Prop :=
  ∃ last' top', Good roles s' last' top' ∧ Stepped w t (s'.world top')

/-- **A step that reads counters out of date keeps all.** -/
theorem Good.drift (h : Good roles s last top) (hv : s.view t ≤ v') (hv' : v'.1 ≤ last)
    (hd : Drift (s.world top) t ((s.next t s.mem v' pc' e).world top))
    (hold : (s.pc t).owns = none) (hnew : pc'.owns = none)
    (hsent : (s.next t s.mem v' pc' e).sent = s.sent)
    (hgot : (s.next t s.mem v' pc' e).got = s.got) :
    Leads roles (s.world top) t (s.next t s.mem v' pc' e) := by
  have hhomed := h.homed.drift hd
  have hhist : s.hist.record t e = { s.hist with clock := s.hist.clock + 1 } := hd.hist
  exact ⟨last, top, h.outside h.latest le_rfl hv hv' (h.sound.drift hhomed.sole hd) hhomed
    (h.disciplined.still hv hv') rfl (fun _ => rfl) (fun _ => rfl) hold hnew
    (by rw [hhist]) (by rw [hhist]) (by rw [hhist]) hsent hgot, .drift hd⟩

/-- **A call** keeps what is good. -/
theorem Good.call (h : Good roles s last top) {op : Op T} (hidle : s.pc t = .idle)
    (hentry : D.entry op = some pc') (hok : OneEach.Of roles (.call t op)) :
    Good roles (s.next t s.mem (s.view t) pc' (.call op)) last top := by
  have hc : Change (s.world top) (.call t op)
      ((s.next t s.mem (s.view t) pc' (.call op)).world top) := .call hidle hentry
  have hhomed := h.homed.change hc hok
  exact h.outside h.latest le_rfl le_rfl (h.front_le t) (h.sound.change hhomed.sole hc) hhomed
    (h.disciplined.still le_rfl (h.front_le t)) rfl (fun _ => rfl) (fun _ => rfl)
    (by rw [hidle]; rfl) (entry_owns hentry) rfl rfl rfl rfl rfl

/-- The owner of a counter moves it on. -/
theorem Disciplined.counter {ℓ : Loc D.ring.slots} {o : Order} {τ : ℕ}
    {msg : Message ι (Loc D.ring.slots) (D.Value ℓ)} (h : Disciplined s.mem s.view last roles)
    (hL : Latest s.mem last top) (hv : s.view t ≤ v') (hw : Writes s.mem last top ℓ o τ msg m' v')
    (hslot : ∀ i, Loc.slot i ≠ ℓ) (hcrowd : roles = none → τ = last ℓ + 1)
    (hpush : ∀ P C, roles = some (P, C) → ℓ = .head → t = P)
    (hpop : ∀ P C, roles = some (P, C) → ℓ = .tail → t = C) :
    Disciplined m' (Function.update s.view t v') (Function.update last ℓ τ) roles := by
  have hfront : ∀ {u ℓ'}, (s.view u).1 ℓ' = last ℓ' → (ℓ = ℓ' → t = u) →
      (Function.update s.view t v' u).1 ℓ' = Function.update last ℓ τ ℓ' := by
    intro u ℓ' hu ht
    rcases eq_or_ne ℓ' ℓ with rfl | hne
    · rw [← ht rfl, Function.update_self, Function.update_self, hw.front]
    · exact front_eq_update hu (Function.update_of_ne hne ..) hv (hw.front_le ℓ')
  cases h with
  | crowd hgap => exact .crowd (Gapless.writes hgap hL hw fun _ => hcrowd rfl)
  | pair hhead htail hpushes hpops =>
    refine .pair (hfront hhead (hpush _ _ rfl)) (hfront htail (hpop _ _ rfl)) (fun i => ?_)
      fun i => ?_ <;> rw [hw.memory]
    · exact ((hpushes i).add_of_ne (hslot i)).mono (le_update_view hv _)
    · exact ((hpops i).add_of_ne (hslot i)).mono (le_update_view hv _)

/-- **A position is claimed**, by a store after the latest message. -/
theorem Good.claimPush (h : Good roles s last top) (hv : s.view t ≤ v') {head : Word} {o : Order}
    {τ : ℕ} {msg : Message ι (Loc D.ring.slots) (D.Value .head)}
    (hw : Writes s.mem last top .head o τ msg m' v') (hval : msg.value = head + 1)
    (hc : ClaimsPush (s.world top).mem (s.pc t) x head)
    (hnext : D.spsc_ = false → τ = last .head + 1) :
    Leads roles (s.world top) t
      (s.next t m' v' (D.claimedPush x head).1 (D.claimedPush x head).2) := by
  have hlatest : Weak.latest m' (Function.update top .head msg) =
      (s.world top).mem.setHead (head + 1) := by
    rw [hw.memory, latest_setHead, hval]
    rfl
  have hchange : Change (s.world top) (.step t false) ((s.next t m' v' (D.claimedPush x head).1
      (D.claimedPush x head).2).world (Function.update top .head msg)) := by
    rw [world_next, hlatest]
    exact .claimPush hc
  have hhomed := h.homed.change hchange OneEach.of_step
  refine ⟨_, _, h.outside hw.latest (le_update_last hw.after.le) hv hw.front_le
    (h.sound.change hhomed.sole hchange) hhomed ?_ (by rw [hw.memory]; rfl)
    (fun i => Function.update_of_ne (by simp) ..) (fun i => Function.update_of_ne (by simp) ..)
    hc.owns (by simp [Derived.claimedPush, Pc.owns, D.spec.pushEntry_owns]) rfl rfl rfl rfl rfl,
    .change hchange⟩
  refine h.disciplined.counter h.latest hv hw (by simp) ?_ ?_ fun _ _ _ h => by cases h
  · rintro rfl
    cases h.homed with
    | crowd hspsc => exact hnext hspsc
  · rintro P C rfl -
    cases h.homed with
    | pair hspsc hsides =>
      exact hsides.push_eq t (by change (s.pc t).offers ≠ none; rw [hc.offers]; simp)

/-- **A claim on `tail_`** does as well. -/
theorem Good.claimPop (h : Good roles s last top) (hv : s.view t ≤ v') {tail : Word} {o : Order}
    {τ : ℕ} {msg : Message ι (Loc D.ring.slots) (D.Value .tail)}
    (hw : Writes s.mem last top .tail o τ msg m' v') (hval : msg.value = tail + 1)
    (hc : ClaimsPop (s.world top).mem (s.pc t) tail)
    (hnext : D.spsc_ = false → τ = last .tail + 1) :
    Leads roles (s.world top) t (s.next t m' v' (D.claimedPop tail).1 (D.claimedPop tail).2) := by
  have hlatest : Weak.latest m' (Function.update top .tail msg) =
      (s.world top).mem.setTail (tail + 1) := by
    rw [hw.memory, latest_setTail, hval]
    rfl
  have hchange : Change (s.world top) (.step t false) ((s.next t m' v' (D.claimedPop tail).1
      (D.claimedPop tail).2).world (Function.update top .tail msg)) := by
    rw [world_next, hlatest]
    exact .claimPop hc
  have hhomed := h.homed.change hchange OneEach.of_step
  refine ⟨_, _, h.outside hw.latest (le_update_last hw.after.le) hv hw.front_le
    (h.sound.change hhomed.sole hchange) hhomed ?_ (by rw [hw.memory]; rfl)
    (fun i => Function.update_of_ne (by simp) ..) (fun i => Function.update_of_ne (by simp) ..)
    hc.owns (by simp [Derived.claimedPop, Pc.owns, D.spec.popEntry_owns]) rfl rfl rfl rfl rfl,
    .change hchange⟩
  refine h.disciplined.counter h.latest hv hw (by simp) ?_ (fun _ _ _ h => by cases h) ?_
  · rintro rfl
    cases h.homed with
    | crowd hspsc => exact hnext hspsc
  · rintro P C rfl -
    cases h.homed with
    | pair hspsc hsides => exact hsides.pop_eq t hc.popping

/-! ## Steps on a slot -/

section

variable {P R : Type} {owns : P → Bool} {point : R → Option P} {p : P} {r : R}
variable {store : Store (fun _ : Unit => D.accesses.Atom) (fun _ : Unit => D.accesses.Plain)}

/-- An access of thread `t` to slot `i` that does not wait. -/
abbrev At (s : Weak D ι) (last : Loc D.ring.slots → ℕ) (top : Tops D ι) (t : ι)
    (i : Fin D.ring.slots) (owns : P → Bool) (point : R → Option P) (p : P)
    (store : Store (fun _ : Unit => D.accesses.Atom) (fun _ : Unit => D.accesses.Plain)) (r : R)
    (m' : Memory ι D.Value D.Plain) (v' : View ι (Loc D.ring.slots))
    (last' : Loc D.ring.slots → ℕ) (top' : Tops D ι) : Prop :=
  Exact (V := D.Value) (W := D.Plain) s.mem last top (s.view t) (.slot i) i D.spsc_ owns point
    (Live D (.slot i)) p store r m' v' last' top'

/-- **What a slot passes on**, after such an access. -/
theorem Guarded.exact (h : Guarded s last top i)
    (hX : At s last top t i owns point p store r m' v' last' top') (hv : s.view t ≤ v')
    (hbefore : (s.pc t).owns = some i ↔ owns p = true)
    (hafter : pc'.owns = some i ↔ ∃ p', point r = some p' ∧ owns p' = true)
    (hkeeps : owns p = true → ∀ p', point r = some p' → owns p' = true)
    (hnobody : ∀ u, u ≠ t → (s.pc u).owns ≠ some i)
    (hcell : (∀ p', point r = some p' → owns p' = false) →
      ∀ k, (s.hist.record t e).chan.cell i = some k →
        (s.next t m' v' pc' e).sent k ≤ (top' (.slot i)).view) :
    Guarded (s.next t m' v' pc' e) last' top' i := by
  -- what the accesses had happened before, the thread has seen by now
  have hsettled : ∃ w, s.mem.Settled i w ∧ w ≤ v' ∧
      (owns p = false → w = (top (.slot i)).view) := by
    cases hp : owns p with
    | true =>
      exact ⟨s.view t, (h.owned t (hbefore.mpr hp)).1, hv, fun hp' => by cases hp'⟩
    | false =>
      refine ⟨(top (.slot i)).view, (h.free fun u hu => ?_).1, hX.received hp, fun _ => rfl⟩
      rcases eq_or_ne u t with rfl | hne
      · rw [hbefore.mp hu] at hp
        cases hp
      · exact hnobody u hne hu
  obtain ⟨w, hw, hle, hfree⟩ := hsettled
  refine ⟨fun hnone => ?_, fun u hu => ?_⟩
  · have hnot : ∀ p', point r = some p' → owns p' = false := by
      intro p' hr
      by_contra hp'
      refine hnone t ?_
      rw [next_pc_self]
      exact hafter.mpr ⟨p', hr, by simpa using hp'⟩
    refine ⟨?_, hcell hnot⟩
    obtain ⟨hlog, hview⟩ := hX.passed hnot
    intro a ha
    replace ha : a ∈ s.mem.log i := hlog ▸ ha
    cases hp : owns p with
    | false => exact (hw.mono ((hfree hp).le.trans (hview hp))) a ha
    | true =>
      have hnone : point r = none := by
        by_contra hsome
        obtain ⟨p', hr⟩ := Option.ne_none_iff_exists'.mp hsome
        exact absurd ((hnot p' hr).symm.trans (hkeeps hp p' hr)) (by decide)
      exact (hw.mono (hle.trans (hX.sent hnone))) a ha
  · rcases eq_or_ne u t with rfl | hne
    · rw [next_pc_self] at hu
      obtain ⟨p', hr, hp'⟩ := hafter.mp hu
      obtain ⟨hfront, hset⟩ := hX.owned p' hr hp'
      rw [next_view_self]
      exact ⟨hset w hw hle, hfront⟩
    · rw [next_pc_of_ne hne] at hu
      exact absurd hu (hnobody u hne)

/-- **The discipline is kept**, if a slot is given back by no value that a
thread may read too late. -/
theorem Disciplined.exact (h : Disciplined s.mem s.view last roles)
    (hX : At s last top t i owns point p store r m' v' last' top') (hv : s.view t ≤ v')
    (hhomed : Homed (s.world top) roles)
    (hcrowd : D.spsc_ = false → owns p = true → ¬ Live D (.slot i) (top (.slot i)).value)
    (hpush : ∀ P C, roles = some (P, C) →
      P = t ∨ (owns p = true → D.shaped.awaitsPush (top (.slot i)).value = false))
    (hpop : ∀ P C, roles = some (P, C) →
      C = t ∨ (owns p = true → D.shaped.awaitsPop (top (.slot i)).value = false)) :
    Disciplined m' (Function.update s.view t v') last' roles := by
  have hcurrent : ∀ {u : ι} {awaits : D.accesses.Atom → Bool} {j : Fin D.ring.slots},
      D.spsc_ = true → Current s.mem last (s.view u) (.slot j) (fun a => awaits a = true) →
      (u = t ∨ (owns p = true → awaits (top (.slot i)).value = false)) →
      Current m' last' (Function.update s.view t v' u) (.slot j) fun a => awaits a = true := by
    intro u awaits j hspsc hcur hor
    rcases eq_or_ne j i with rfl | hne
    · rcases hor with rfl | hnot
      · cases hr : point r with
        | none =>
          refine Current.of_front_eq ?_
          rw [Function.update_self]
          exact hX.released hspsc hr
        | some p' =>
          exact (hX.current hspsc _ _ hcur fun _ hnone => by rw [hr] at hnone; cases hnone).mono
            (le_update_view hv _)
      · exact (hX.current hspsc _ _ hcur fun hp _ => by rw [hnot hp]; simp).mono
          (le_update_view hv _)
    · exact (hX.current_of_ne _ (by simp [hne]) _ _ hcur).mono (le_update_view hv _)
  cases h with
  | crowd hgap =>
    cases hhomed with
    | crowd hspsc => exact .crowd (hX.gapless (Live D) hgap fun hp _ => hcrowd hspsc hp)
  | pair hhead htail hpushes hpops =>
    cases hhomed with
    | pair hspsc hsides =>
      exact .pair (front_eq_update hhead (hX.last_of_ne _ (by simp)) hv (hX.front_le _))
        (front_eq_update htail (hX.last_of_ne _ (by simp)) hv (hX.front_le _))
        (fun j => hcurrent hspsc (hpushes j) (hpush _ _ rfl))
        fun j => hcurrent hspsc (hpops j) (hpop _ _ rfl)

/-- **A step on slot `i` keeps all**, if it keeps what the slot passes on. -/
theorem Good.at (h : Good roles s last top)
    (hX : At s last top t i owns point p store r m' v' last' top')
    (hsound : Sound ((s.next t m' v' pc' e).world top'))
    (hhomed : Homed ((s.next t m' v' pc' e).world top') roles)
    (hdisc : Disciplined m' (Function.update s.view t v') last' roles)
    (hguard : Guarded (s.next t m' v' pc' e) last' top' i)
    (hpassed : Passed (s.next t m' v' pc' e)) (hold : ∀ j, j ≠ i → (s.pc t).owns ≠ some j)
    (hnew : ∀ j, j ≠ i → pc'.owns ≠ some j)
    (hcell : ∀ j, j ≠ i → (s.hist.record t e).chan.cell j = s.hist.chan.cell j)
    (hsent : ∀ j, j ≠ i → ∀ k, s.hist.chan.cell j = some k →
      (s.next t m' v' pc' e).sent k = s.sent k) :
    Good roles (s.next t m' v' pc' e) last' top' where
  latest := hX.latest
  front_le := h.front_next hX.le_last hX.front_le
  sound := hsound
  homed := hhomed
  disciplined := hdisc
  guarded j := by
    rcases eq_or_ne j i with rfl | hne
    · exact hguard
    · exact (h.guarded j).frame (hold j hne) (hnew j hne) (hX.log_of_ne j hne)
        (hX.last_of_ne _ (by simp [hne])) (hX.top_of_ne _ (by simp [hne])) (hcell j hne)
        (hsent j hne)
  passed := hpassed

end

end Weak

end AtomicQueue
