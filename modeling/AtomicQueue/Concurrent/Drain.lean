import AtomicQueue.Common.Channels.Drain
import AtomicQueue.Concurrent.Drift
import AtomicQueue.Concurrent.Linearizable
/-!
# What each thread has pushed and popped

The claims and the returns of the queue, thread by thread, and what a step
of a call adds to them. The elements popped are among those claimed, so
where all claimed of one kind have been popped their numbers have been
taken.
-/

namespace AtomicQueue

open Object (Visible)

variable {T ι : Type} [DecidableEq T] [DecidableEq ι] {D : Derived T}
variable {w w' : World D ι} {a : Act ι T} {t u : ι} {x : T}

namespace World

/-- The elements thread `t` has claimed positions for, -/
def claimed (w : World D ι) (t : ι) : List T :=
  (w.hist.chan.pushes.filter (·.holder = t)).map Ticket.datum

/-- and the elements its pops have returned. -/
def popped (w : World D ι) (t : ι) : List T :=
  (w.hist.received.filter (·.thread = t)).map Return.element

variable [Fintype ι]

/-- What the threads claimed is all that was pushed, -/
theorem sum_claimed :
    ∑ t, (w.claimed t : Multiset T) = (w.hist.chan.pushes.map Ticket.datum : List T) :=
  List.sum_coe_filter ..

/-- and what they popped all that was received. -/
theorem sum_popped :
    ∑ t, (w.popped t : Multiset T) = (w.hist.received.map Return.element : List T) :=
  List.sum_coe_filter ..

end World

/-! ## What a step of a call does -/

/-- A call of the queue is under way, of a push or a pop. -/
def Pc.Calling (pc : Pc D) : Prop := pc.offers ≠ none ∨ pc.popping = true

/-- A position is claimed for the push under way. -/
def Pc.pushing : Pc D → Bool
  | .doPush _ _ _ => true
  | _ => false

/-- **What a step of thread `t` does for its call**, and what the call
returns with it. -/
inductive Does (w w' : World D ι) (t : ι) : Option (Answer T) → Prop
  | goes (hcalls : (w'.pc t).Calling) (hoffers : (w'.pc t).offers = (w.pc t).offers)
      (hpopping : (w'.pc t).popping = (w.pc t).popping)
      (hpushing : (w'.pc t).pushing = (w.pc t).pushing)
      (hclaimed : w'.claimed = w.claimed) (hpopped : w'.popped = w.popped) : Does w w' t none
  | claims {x : T} (hoffers : (w.pc t).offers = some x) (hoffers' : (w'.pc t).offers = some x)
      (hpopping : (w.pc t).popping = false) (hpopping' : (w'.pc t).popping = false)
      (hpushing : (w.pc t).pushing = false) (hpushing' : (w'.pc t).pushing = true)
      (hclaimed : w'.claimed = Function.update w.claimed t (w.claimed t ++ [x]))
      (hpopped : w'.popped = w.popped) : Does w w' t none
  | refused (hidle : w'.pc t = .idle) (hpushing : (w.pc t).pushing = false)
      (hclaimed : w'.claimed = w.claimed) (hpopped : w'.popped = w.popped) :
      Does w w' t (some .refused)
  | pushed (hidle : w'.pc t = .idle) (hpushing : (w.pc t).pushing = true)
      (hclaimed : w'.claimed = w.claimed) (hpopped : w'.popped = w.popped) :
      Does w w' t (some .done)
  | popped {x : T} (hidle : w'.pc t = .idle) (hpopping : (w.pc t).popping = true)
      (hclaimed : w'.claimed = w.claimed)
      (hpopped : w'.popped = Function.update w.popped t (w.popped t ++ [x])) :
      Does w w' t (some (.element x))

variable {m : Mem D} {pc : Pc D} {e : Event T D.ring.slots}

theorem claimed_next (h : (w.hist.record t e).chan.pushes = w.hist.chan.pushes) :
    (w.next t m pc e).claimed = w.claimed := by
  funext u
  rw [World.claimed, World.next_hist, h, World.claimed]

theorem popped_next (h : (w.hist.record t e).received = w.hist.received) :
    (w.next t m pc e).popped = w.popped := by
  funext u
  rw [World.popped, World.next_hist, h, World.popped]

/-- A claim adds its element to those of the thread, -/
theorem claimed_claimPush :
    (w.next t m pc (.claimPush x)).claimed = Function.update w.claimed t (w.claimed t ++ [x]) := by
  funext u
  have hpushes :
      (w.hist.record t (.claimPush x)).chan.pushes = w.hist.chan.pushes ++ [⟨t, x⟩] := rfl
  rw [World.claimed, World.next_hist, hpushes, List.filter_append, List.map_append]
  rcases eq_or_ne u t with rfl | hne
  · rw [Function.update_self, List.filter_cons_of_pos (by simp)]
    rfl
  · rw [Function.update_of_ne hne, List.filter_cons_of_neg (by simp [hne.symm])]
    exact List.append_nil _

/-- and a return its own. -/
theorem popped_popAt {i : Fin D.ring.slots} {wins : Bool} :
    (w.next t m pc (.popAt i wins (some x))).popped =
      Function.update w.popped t (w.popped t ++ [x]) := by
  funext u
  have hreceived : (w.hist.record t (.popAt i wins (some x))).received =
      w.hist.received ++ [w.hist.returns t (w.hist.popNo t) x] := rfl
  rw [World.popped, World.next_hist, hreceived, List.filter_append, List.map_append]
  rcases eq_or_ne u t with rfl | hne
  · rw [Function.update_self, List.filter_cons_of_pos (by simp [History.returns])]
    rfl
  · rw [Function.update_of_ne hne,
      List.filter_cons_of_neg (by simp [History.returns, hne.symm])]
    exact List.append_nil _

/-- A quiet step of a push or a pop goes on with it or is refused. -/
theorem Quiet.does {weak : Bool} (hq : Quiet w.mem (w.pc t) pc e) (hcalls : (w.pc t).Calling) :
    ∃ r, Does w (w.next t w.mem pc e) t r ∧
      w.visible (.step t weak) = (r.map (Visible.reply t)).toList := by
  obtain ⟨v, hv, hvis⟩ := hq.exists_advance weak t
  rw [World.visible_of_advance hv, hvis]
  have hrec := History.record_quiet (h := w.hist) (t := t) hq
  have hclaimed : (w.next t w.mem pc e).claimed = w.claimed := claimed_next (by rw [hrec])
  have hpopped : (w.next t w.mem pc e).popped = w.popped := popped_next (by rw [hrec])
  have hgoes : pc.offers = (w.pc t).offers → pc.popping = (w.pc t).popping →
      pc.pushing = (w.pc t).pushing → Does w (w.next t w.mem pc e) t none := by
    intro hoffers hpopping hpushing
    refine .goes ?_ ?_ ?_ ?_ hclaimed hpopped <;> rw [World.next_pc_self]
    · rwa [Pc.Calling, hoffers, hpopping]
    · exact hoffers
    · exact hpopping
    · exact hpushing
  have hrefused : pc = .idle → (w.pc t).pushing = false →
      Does w (w.next t w.mem pc e) t (some .refused) := fun hidle hpushing =>
    .refused (World.next_pc_self.trans hidle) hpushing hclaimed hpopped
  generalize w.pc t = pc₀ at hq hcalls hgoes hrefused
  cases hq with
  | pushFull | popEmpty => exact ⟨some .refused, hrefused rfl rfl, rfl⟩
  | sizeHead | sizeTail | sizedHead | sizedTail =>
    simp [Pc.Calling, Pc.offers, Pc.popping] at hcalls
  | _ => exact ⟨none, hgoes rfl rfl rfl, rfl⟩

/-- A claim on `head_` is not in a slot nor a pop's, -/
theorem ClaimsPush.outside {m : Mem D} {pc : Pc D} {head : Word} (h : ClaimsPush m pc x head) :
    pc.popping = false ∧ pc.pushing = false := by
  cases h <;> exact ⟨rfl, rfl⟩

/-- and one on `tail_` is not a push's. -/
theorem ClaimsPop.outside {m : Mem D} {pc : Pc D} {tail : Word} (h : ClaimsPop m pc tail) :
    pc.offers = none ∧ pc.pushing = false := by
  cases h <;> exact ⟨rfl, rfl⟩

/-- **So does every step of a push or a pop**, and the caller sees what it
returns. -/
theorem Change.does {weak : Bool} (h : Change w (.step t weak) w') (hcalls : (w.pc t).Calling) :
    ∃ r, Does w w' t r ∧ w.visible (.step t weak) = (r.map (Visible.reply t)).toList := by
  cases h with
  | quiet hq => exact hq.does hcalls
  | claimPush hc =>
    refine ⟨none, .claims hc.offers ?_ hc.outside.1 ?_ hc.outside.2 ?_ claimed_claimPush
      (popped_next rfl), hc.visible weak⟩ <;> rw [World.next_pc_self] <;> rfl
  | claimPop hc =>
    refine ⟨none, .goes (Or.inr ?_) ?_ ?_ ?_ (claimed_next rfl) (popped_next rfl),
      hc.visible weak⟩ <;> rw [World.next_pc_self]
    · rfl
    · exact hc.outside.1.symm
    · exact hc.popping.symm
    · exact hc.outside.2.symm
  | pushNext hpc ho =>
    refine ⟨none, .goes (Or.inl ?_) ?_ ?_ ?_ (claimed_next History.record_pushAt_pushes)
      (popped_next rfl), by rw [visible_push hpc, ho]; rfl⟩ <;> rw [World.next_pc_self]
    · exact Option.some_ne_none _
    all_goals rw [hpc]; rfl
  | pushDone hpc ho =>
    exact ⟨some .done, .pushed World.next_pc_self (by rw [hpc]; rfl)
      (claimed_next History.record_pushAt_pushes) (popped_next rfl),
      by rw [visible_push hpc, ho]; rfl⟩
  | popNext hpc ho =>
    refine ⟨none, .goes (Or.inr ?_) ?_ ?_ ?_ (claimed_next History.record_popAt_pushes)
      (popped_next (List.append_nil _)), by rw [visible_pop hpc, ho]; rfl⟩ <;>
      rw [World.next_pc_self]
    · rfl
    all_goals rw [hpc]; rfl
  | popDone hpc ho =>
    exact ⟨some (.element _), .popped World.next_pc_self (by rw [hpc]; rfl)
      (claimed_next History.record_popAt_pushes) popped_popAt,
      by rw [visible_pop hpc, ho]; rfl⟩

/-- A call claims and returns nothing. -/
theorem Change.call_claimed {op : Op T} (h : Change w (.call t op) w') :
    w'.claimed = w.claimed ∧ w'.popped = w.popped := by
  cases h
  exact ⟨claimed_next rfl, popped_next rfl⟩

/-! ## What is popped was pushed -/

omit [DecidableEq ι] in
/-- **The elements popped are those of numbers taken**, each once. -/
theorem Sound.popped_le (hS : Sound w) :
    ((w.hist.received.map fun r => some r.element : List (Option T)) : Multiset (Option T)) ≤
      ((w.hist.chan.takes.map Prod.snd).map w.hist.element : List (Option T)) := by
  choose! src hsrc using hS.returned.received
  have hnodup : (w.hist.received.map src).Nodup := by
    refine List.Nodup.map_on (fun r hr r' hr' heq => ?_)
      (List.Nodup.of_map Return.no hS.popTickets.done_nodup)
    exact hS.received_unique hr hr' (hsrc r hr).1 (heq ▸ (hsrc r' hr').1)
  have hsub : w.hist.received.map src ⊆ w.hist.chan.takes.map Prod.snd := by
    intro k hk
    obtain ⟨r, hr, rfl⟩ := List.mem_map.mp hk
    exact List.mem_map.mpr ⟨_, (hsrc r hr).1, rfl⟩
  have heq : w.hist.received.map (fun r => some r.element) =
      (w.hist.received.map src).map w.hist.element := by
    rw [List.map_map]
    exact List.map_congr_left fun r hr => (hsrc r hr).2.symm
  rw [heq, ← Multiset.map_coe, ← Multiset.map_coe]
  exact Multiset.map_le_map (Multiset.coe_le.mpr (List.subperm_of_subset hnodup hsub))

omit [DecidableEq ι] in
/-- Numbers taken by pushes, each once, have no more elements than all. -/
theorem elements_le {l : List ℕ} (hnodup : l.Nodup) (hlt : ∀ k ∈ l, k < w.hist.pushes) :
    ((l.map w.hist.element : List (Option T)) : Multiset (Option T)) ≤
      (w.hist.chan.pushes.map fun c => some c.datum : List (Option T)) := by
  have heq : w.hist.chan.pushes.map (fun c => some c.datum) =
      (List.range w.hist.pushes).map w.hist.element := by
    refine List.ext_getElem (by simp) fun k hk hk' => ?_
    rw [List.length_map] at hk
    simp [History.element, List.getElem?_eq_getElem hk]
  rw [heq, ← Multiset.map_coe, ← Multiset.map_coe]
  exact Multiset.map_le_map (Multiset.coe_le.mpr
    (List.subperm_of_subset hnodup fun k hk => List.mem_range.mpr (hlt k hk)))

omit [DecidableEq ι] in
/-- **Where all pushed of one kind have been popped**, the number of each has
been taken. -/
theorem Sound.taken_of_count (hS : Sound w)
    (hcount : (w.hist.chan.pushes.map Ticket.datum).count x ≤
      (w.hist.received.map Return.element).count x) {k : ℕ} (hk : w.hist.element k = some x) :
    k ∈ w.hist.chan.takes.map Prod.snd := by
  by_contra hnot
  have hlt : k < w.hist.pushes := by
    obtain ⟨c, hc, -⟩ := Option.map_eq_some_iff.mp hk
    exact (List.getElem?_eq_some_iff.mp hc).1
  have hpopped := Multiset.count_le_of_le (some x) hS.popped_le
  have hall := Multiset.count_le_of_le (some x) (elements_le (w := w)
    (List.nodup_cons.mpr ⟨hnot, hS.chan.sources_nodup⟩) (by
      intro j hj
      rcases List.mem_cons.mp hj with rfl | hj
      · exact hlt
      · obtain ⟨⟨m, j⟩, hmem, rfl⟩ := List.mem_map.mp hj
        exact hS.chan.puts_lt j (hS.chan.source_mem m j hmem)))
  have hsome : ∀ {α : Type} (f : α → T) (l : List α),
      ((l.map fun a => some (f a) : List (Option T)) : Multiset (Option T)).count (some x) =
        (l.map f).count x := fun f l => by
    rw [← Multiset.coe_count, ← Multiset.count_map_eq_count' some _ (Option.some_injective T),
      Multiset.map_coe, List.map_map]
    rfl
  rw [hsome] at hpopped hall
  rw [List.map_cons, hk, ← Multiset.cons_coe, Multiset.count_cons_self] at hall
  omega

omit [DecidableEq ι] in
/-- **The elements popped are among those pushed.** -/
theorem Sound.received_le (hS : Sound w) :
    ((w.hist.received.map Return.element : List T) : Multiset T) ≤
      (w.hist.chan.pushes.map Ticket.datum : List T) := by
  have hsub : ∀ k ∈ w.hist.chan.takes.map Prod.snd, k < w.hist.pushes := by
    intro k hk
    obtain ⟨⟨m, k⟩, hmem, rfl⟩ := List.mem_map.mp hk
    exact hS.chan.puts_lt k (hS.chan.source_mem m k hmem)
  have hle := hS.popped_le.trans (elements_le hS.chan.sources_nodup hsub)
  rw [← Multiset.map_le_map_iff (Option.some_injective T), Multiset.map_coe, Multiset.map_coe,
    List.map_map, List.map_map]
  exact hle

omit [DecidableEq ι] in
/-- **Where as many pops as pushes were claimed and none is under way**, the
elements popped are those pushed. -/
theorem Sound.popped_eq (hS : Sound w) (hout : ∀ t, (w.pc t).popStatus = .out)
    (hlen : w.hist.pops = w.hist.pushes) :
    ((w.hist.received.map Return.element : List T) : Multiset T) =
      (w.hist.chan.pushes.map Ticket.datum : List T) := by
  have hdone := hS.popTickets.length_done hout
  rw [World.popTickets, List.length_map] at hdone
  refine Multiset.eq_of_le_of_card_le hS.received_le ?_
  rw [Multiset.coe_card, Multiset.coe_card, List.length_map, List.length_map, hdone]
  exact hlen.ge

end AtomicQueue
