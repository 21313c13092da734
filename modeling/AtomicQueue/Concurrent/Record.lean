import AtomicQueue.Concurrent.Step
/-!
# What the history records of a step

Each part of the history changes with few of the events: a claim adds a
number, a slot won moves one into a channel or out of it, a return adds to
the calls returned. The elements of the numbers taken, and the numbers
taken from the channels, never change.
-/

namespace AtomicQueue

namespace History

section

variable {ι T : Type} {n : ℕ} {h : History n ι T} {i : Fin n} {x : T} {k : ℕ} {t t' : ι}

/-- To take a number out of a slot claims nothing, -/
theorem take_pushes : (h.take t i).pushes = h.chan.pushes := by
  unfold take
  split <;> rfl

theorem take_pops : (h.take t i).pops = h.chan.pops := by
  unfold take
  split <;> rfl

/-- and puts nothing into a slot. -/
theorem take_puts : (h.take t i).puts = h.chan.puts := by
  unfold take
  split <;> rfl

/-- What is taken is the number that the slot holds. -/
theorem take_eq (hcell : h.chan.cell i = some k) : h.take t i = h.chan.take i (h.popNo t) k := by
  rw [take, hcell]

end

variable {ι T : Type} [DecidableEq ι] {n : ℕ} {h : History n ι T} {i : Fin n} {x : T} {k : ℕ}
variable {wins ends : Bool} {result : Option T} {t t' : ι} {e : Event T n}

/-- At a step of `do_push` on a slot the claims stay as they are, -/
@[simp] theorem record_pushAt_pushes :
    (h.record t (.pushAt x i wins ends)).chan.pushes = h.chan.pushes := by
  cases wins <;> rfl

@[simp] theorem record_pushAt_pops :
    (h.record t (.pushAt x i wins ends)).chan.pops = h.chan.pops := by
  cases wins <;> rfl

/-- and nothing is taken from a channel. -/
@[simp] theorem record_pushAt_takes :
    (h.record t (.pushAt x i wins ends)).chan.takes = h.chan.takes := by
  cases wins <;> rfl

/-- So do the claims at a step of `do_pop`, -/
@[simp] theorem record_popAt_pushes :
    (h.record t (.popAt i wins result)).chan.pushes = h.chan.pushes := by
  cases wins
  · rfl
  · exact take_pushes

@[simp] theorem record_popAt_pops :
    (h.record t (.popAt i wins result)).chan.pops = h.chan.pops := by
  cases wins
  · rfl
  · exact take_pops

/-- and nothing is put into a channel. -/
@[simp] theorem record_popAt_puts :
    (h.record t (.popAt i wins result)).chan.puts = h.chan.puts := by
  cases wins
  · rfl
  · exact take_puts

/-- A slot won by a pop gives up the number it holds. -/
theorem record_popAt_chan (hcell : h.chan.cell i = some k) :
    (h.record t (.popAt i true result)).chan = h.chan.take i (h.popNo t) k :=
  take_eq hcell

/-- A push changes no other slot than its own, -/
theorem record_pushAt_cell_of_ne {j : Fin n} (hne : j ≠ i) :
    (h.record t (.pushAt x i wins ends)).chan.cell j = h.chan.cell j := by
  cases wins
  · rfl
  · exact Function.update_of_ne hne ..

/-- and neither does a pop. -/
theorem record_popAt_cell_of_ne {j : Fin n} (hne : j ≠ i) :
    (h.record t (.popAt i wins result)).chan.cell j = h.chan.cell j := by
  cases wins
  · rfl
  · change (h.take t i).cell j = h.chan.cell j
    unfold take
    split
    · exact Function.update_of_ne hne ..
    · rfl

/-- A claim on `head_` is one more. -/
@[simp] theorem record_claimPush_pushes : (h.record t (.claimPush x)).pushes = h.pushes + 1 :=
  List.length_append

@[simp] theorem record_claimPop_pops : (h.record t .claimPop).pops = h.pops + 1 :=
  List.length_append

/-- The number of a thread's push stands while others step, -/
theorem record_pushNo_of_ne (e : Event T n) (hne : t' ≠ t) :
    (h.record t e).pushNo t' = h.pushNo t' := by
  cases e <;> first | rfl | exact Function.update_of_ne hne ..

/-- and so does that of its pop. -/
theorem record_popNo_of_ne (e : Event T n) (hne : t' ≠ t) :
    (h.record t e).popNo t' = h.popNo t' := by
  cases e <;> first | rfl | exact Function.update_of_ne hne ..

/-- A quiet step is recorded by the clock alone. -/
theorem record_quiet [DecidableEq T] {D : Derived T} {m : Mem D} {pc pc' : Pc D}
    {e : Event T D.ring.slots} {h : History D.ring.slots ι T} (hq : Quiet m pc pc' e) :
    h.record t e = { h with clock := h.clock + 1 } := by
  cases hq <;> rfl

/-! ## What never changes -/

/-- The claims on `head_` made so far stay as they are. -/
theorem record_pushes_extends (e : Event T n) :
    h.chan.pushes <+: (h.record t e).chan.pushes := by
  cases e with
  | claimPush x => exact List.prefix_append ..
  | pushAt x i wins ends => exact ⟨[], by rw [List.append_nil, record_pushAt_pushes]⟩
  | popAt i wins result => exact ⟨[], by rw [List.append_nil, record_popAt_pushes]⟩
  | _ => exact List.prefix_rfl

/-- The count of claims on `head_` never falls, -/
theorem record_pushes_le (e : Event T n) : h.pushes ≤ (h.record t e).pushes :=
  (record_pushes_extends e).length_le

/-- nor that on `tail_`. -/
theorem record_pops_le (e : Event T n) : h.pops ≤ (h.record t e).pops := by
  cases e with
  | claimPop => rw [record_claimPop_pops]; omega
  | pushAt x i wins ends => exact (congrArg List.length record_pushAt_pops).ge
  | popAt i wins result => exact (congrArg List.length record_popAt_pops).ge
  | _ => exact le_rfl

/-- A step of another thread does not change when a call began. -/
theorem record_entry_of_ne (e : Event T n) (hne : t' ≠ t) :
    (h.record t e).entry t' = h.entry t' := by
  cases e <;> first | rfl | exact Function.update_of_ne hne ..

/-- Which element was pushed under a number is settled by the claim. -/
theorem record_element (e : Event T n) (hx : h.element k = some x) :
    (h.record t e).element k = some x := by
  obtain ⟨c, hc, rfl⟩ := Option.map_eq_some_iff.mp hx
  obtain ⟨rest, hrest⟩ := record_pushes_extends (h := h) (t := t) e
  have hlt : k < h.chan.pushes.length := (List.getElem?_eq_some_iff.mp hc).1
  rw [element, ← hrest, List.getElem?_append_left hlt, hc, Option.map_some]

/-- What was taken from a channel stays taken. -/
theorem record_takes_subset (e : Event T n) : h.chan.takes ⊆ (h.record t e).chan.takes := by
  cases e with
  | pushAt x i wins ends => rw [record_pushAt_takes]; exact List.Subset.refl _
  | popAt i wins result =>
    cases wins
    · exact List.Subset.refl _
    · change h.chan.takes ⊆ (h.take t i).takes
      unfold take
      split
      · exact List.subset_append_left ..
      · exact List.Subset.refl _
  | _ => exact List.Subset.refl _

end History

end AtomicQueue
