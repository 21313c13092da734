import AtomicQueue.Concurrent.Step
import AtomicQueue.Concurrent.Record
import AtomicQueue.Common.Linearizable
/-!
# The queue as a bounded queue shared by threads

What the operations are for, with the threads: a list of at most `n`
elements, on which a `push` waits for room and a `pop` for an element. The
history says what the queue holds. A claim is not the moment of a call: a
`push` may claim a position a lap ahead of the pops, a `pop` one ahead of
the pushes. The first `entered` claims on `head_` and the first `left`
claims on `tail_` have taken effect, and the queue holds what has entered
and not left.
-/

namespace AtomicQueue

open Object (Visible Stage Shared Linearizable)

variable {T ι : Type}

/-! ## The bounded queue -/

deriving instance DecidableEq for Op

/-- What a call returns: `false`, no value or `true`, an element, a size. -/
inductive Answer (T : Type)
  | refused
  | done
  | element (x : T)
  | size (k : ℕ)
  deriving DecidableEq

/-- **A queue of at most `n` elements**, whose `push` waits for room and
whose `pop` for an element. `was_size` promises nothing. -/
def boundedQueue (T : Type) (n : ℕ) : Object (List T) (Op T) (Answer T) where
  init := []
  call l op r l' :=
    match op with
    | .tryPush x =>
      (l.length < n ∧ r = .done ∧ l' = l ++ [x]) ∨ (n ≤ l.length ∧ r = .refused ∧ l' = l)
    | .tryPop => (∃ x, l = x :: l' ∧ r = .element x) ∨ (l = [] ∧ r = .refused ∧ l' = l)
    | .push x => l.length < n ∧ r = .done ∧ l' = l ++ [x]
    | .pop => ∃ x, l = x :: l' ∧ r = .element x
    | .wasSize _ => (∃ k, r = .size k) ∧ l' = l

/-- What the caller sees of a step. -/
def Event.visible {n : ℕ} (t : ι) : Event T n → List (Visible ι (Op T) (Answer T))
  | .call op => [.call t op]
  | .refuse => [.reply t .refused]
  | .sized k => [.reply t (.size k)]
  | .pushAt _ _ _ true => [.reply t .done]
  | .popAt _ _ (some x) => [.reply t (.element x)]
  | _ => []

variable [DecidableEq T] {D : Derived T}

/-- What is seen of the threads of a queue. -/
def World.visible (w : World D ι) : Act ι T → List (Visible ι (Op T) (Answer T))
  | .call t op => [.call t op]
  | .step t weak =>
    match D.advance weak w.mem (w.pc t) with
    | some r => r.2.2.visible t
    | none => []

/-! ## What has taken effect -/

namespace History

section

variable {n : ℕ} (h : History n ι T)

/-- The number of pushes that have taken effect: there is room for them. -/
def entered : ℕ := min h.pushes (h.pops + n)

/-- The number of pops that have taken effect: there are elements for them. -/
def left : ℕ := min h.pushes h.pops

/-- What is in the queue: what has entered and not left. -/
def contents : List T := ((h.chan.pushes.map Ticket.datum).take h.entered).drop h.left

/-- The element of the pop with number `k`, once it has taken effect. -/
def given (k : ℕ) : Option T := if k < h.left then h.element k else none

end

/-- Where a thread is with its call. -/
def stage (h : History D.ring.slots ι T) (t : ι) : Pc D → Stage (Op T) (Answer T)
  | .idle => .out
  | .tryPushLoad x | .tryPushCheck x _ | .tryPushClaim x _ => .waits (.tryPush x)
  | .tryPopLoad | .tryPopCheck _ | .tryPopClaim _ => .waits .tryPop
  | .pushClaim x | .pushStore x _ => .waits (.push x)
  | .popClaim | .popStore _ => .waits .pop
  | .wasSizeLoad headFirst => .waits (.wasSize headFirst)
  | .wasSizeHead _ => .waits (.wasSize true)
  | .wasSizeTail _ => .waits (.wasSize false)
  | .doPush x _ _ => if h.pushNo t < h.entered then .served .done else .waits (.push x)
  | .doPop _ _ =>
    match h.given (h.popNo t) with
    | some x => .served (.element x)
    | none => .waits .pop

end History

/-- **The bounded queue with its threads**, as the queue shows it. -/
def World.shared (w : World D ι) : Shared (List T) ι (Op T) (Answer T) where
  value := w.hist.contents
  stage t := w.hist.stage t (w.pc t)

namespace History

variable {n : ℕ} {h h' : History n ι T} {k : ℕ} {x y : T}

omit [DecidableEq T] in
/-- The contents are as many as the pushes that went in less the pops that
left. -/
theorem length_contents : h.contents.length = h.entered - h.left := by
  have hle : h.entered ≤ h.pushes := min_le_left _ _
  rw [contents, List.length_drop, List.length_take, List.length_map, min_eq_left hle]

section

variable (hpushes : h'.chan.pushes = h.chan.pushes) (hpops : h'.chan.pops = h.chan.pops)
include hpushes hpops

omit [DecidableEq T] in
theorem entered_congr : h'.entered = h.entered := by
  rw [entered, entered, pushes, pushes, pops, pops, hpushes, hpops]

omit [DecidableEq T] in
theorem left_congr : h'.left = h.left := by
  rw [left, left, pushes, pushes, pops, pops, hpushes, hpops]

omit [DecidableEq T] in
/-- They depend on the claims alone, -/
theorem contents_congr : h'.contents = h.contents := by
  rw [contents, contents, entered_congr hpushes hpops, left_congr hpushes hpops, hpushes]

omit [DecidableEq T] in
/-- and so does what a pop is given. -/
theorem given_congr : h'.given k = h.given k := by
  rw [given, given, left_congr hpushes hpops, element, element, hpushes]

end

omit [DecidableEq T] in
/-- While the pops are not behind, the queue is empty. -/
theorem contents_eq_nil (hle : h.pushes ≤ h.pops) : h.contents = [] := by
  rw [← List.length_eq_zero_iff, length_contents, left, min_eq_left hle]
  exact Nat.sub_eq_zero_of_le (min_le_left _ _)

omit [DecidableEq T] in
/-- Where the pops are behind, the queue has the first element not popped in
front. -/
theorem contents_eq_cons (hn : 0 < n) (hlt : h.pops < h.pushes) :
    ∃ x, h.element h.pops = some x ∧
      h.contents = x :: ((h.chan.pushes.map Ticket.datum).take h.entered).drop (h.pops + 1) := by
  have hleft : h.left = h.pops := min_eq_right hlt.le
  have hentered : h.pops < h.entered := lt_min hlt (Nat.lt_add_of_pos_right hn)
  have hlen : h.pops < ((h.chan.pushes.map Ticket.datum).take h.entered).length := by
    rw [List.length_take, List.length_map]
    exact lt_min hentered hlt
  refine ⟨_, ?_, by rw [contents, hleft]; exact List.drop_eq_getElem_cons hlen⟩
  rw [element, ← List.getElem?_map, List.getElem_take]
  exact List.getElem?_eq_getElem (by rw [List.length_map]; exact hlt)

omit [DecidableEq T] in
/-- The contents with one push more. -/
theorem drop_take_concat {P : List T} {l e : ℕ} (hle : l ≤ e) (hy : P[e]? = some y) :
    (P.take (e + 1)).drop l = (P.take e).drop l ++ [y] := by
  have hlt : e < P.length := (List.getElem?_eq_some_iff.mp hy).1
  rw [List.take_add_one, hy, Option.toList_some, List.drop_append_of_le_length]
  rw [List.length_take, min_eq_left hlt.le]
  exact hle

/-! ## Claims -/

section

variable [DecidableEq ι] {t : ι}

omit [DecidableEq T] in
/-- A claim changes no element pushed before, -/
theorem record_claimPush_element (hk : k < h.pushes) :
    (h.record t (.claimPush x)).element k = h.element k := by
  change (h.chan.pushes ++ [_])[k]?.map _ = _
  rw [List.getElem?_append_left hk, element]

omit [DecidableEq T] in
/-- and has its own under its number. -/
theorem record_claimPush_element_self :
    (h.record t (.claimPush x)).element h.pushes = some x := by
  change (h.chan.pushes ++ [_])[h.chan.pushes.length]?.map _ = _
  rw [List.getElem?_concat_length, Option.map_some]

omit [DecidableEq T] in
theorem record_claimPush_pops : (h.record t (.claimPush x)).pops = h.pops := rfl

omit [DecidableEq T] in
theorem record_claimPop_pushes : (h.record t .claimPop).pushes = h.pushes := rfl

omit [DecidableEq T] in
/-- **A push onto a queue with room.** -/
theorem contents_claimPush (hle : h.pops ≤ h.pushes) (hroom : h.pushes < h.pops + n) :
    (h.record t (.claimPush x)).contents = h.contents ++ [x] := by
  have hentered : (h.record t (.claimPush x)).entered = h.pushes + 1 := by
    rw [entered, record_claimPush_pushes, record_claimPush_pops]
    omega
  have hleft : (h.record t (.claimPush x)).left = h.pops := by
    rw [left, record_claimPush_pushes, record_claimPush_pops]
    omega
  have hP : (h.chan.pushes.map Ticket.datum).length = h.pushes := List.length_map ..
  rw [contents, contents, hentered, hleft, entered, min_eq_left hroom.le, left, min_eq_right hle]
  change ((List.map _ (h.chan.pushes ++ [_])).take _).drop _ = _
  rw [List.map_append, List.map_singleton]
  rw [drop_take_concat hle (y := x) (by rw [← hP]; exact List.getElem?_concat_length),
    List.take_append_of_le_length hP.ge]

omit [DecidableEq T] in
/-- A push claimed a lap ahead waits outside. -/
theorem contents_claimPush_full (hfull : h.pops + n ≤ h.pushes) :
    (h.record t (.claimPush x)).contents = h.contents := by
  have hentered : (h.record t (.claimPush x)).entered = h.pops + n := by
    rw [entered, record_claimPush_pushes, record_claimPush_pops]
    omega
  have hleft : (h.record t (.claimPush x)).left = h.pops := by
    rw [left, record_claimPush_pushes, record_claimPush_pops]
    omega
  rw [contents, contents, hentered, hleft, entered, min_eq_right hfull, left,
    min_eq_right ((Nat.le_add_right ..).trans hfull)]
  change ((List.map _ (h.chan.pushes ++ [_])).take _).drop _ = _
  rw [List.map_append, List.take_append_of_le_length (by rw [List.length_map]; exact hfull)]

omit [DecidableEq T] in
/-- **A pop from a queue without a push waiting.** -/
theorem contents_claimPop (hlt : h.pops < h.pushes) (hle : h.pushes ≤ h.pops + n) :
    (h.record t .claimPop).contents =
      ((h.chan.pushes.map Ticket.datum).take h.entered).drop (h.pops + 1) := by
  have hentered : (h.record t .claimPop).entered = h.entered := by
    rw [entered, entered, record_claimPop_pushes, record_claimPop_pops]
    omega
  have hleft : (h.record t .claimPop).left = h.pops + 1 := by
    rw [left, record_claimPop_pushes, record_claimPop_pops]
    omega
  rw [contents, hentered, hleft]
  rfl

omit [DecidableEq T] in
/-- **A pop that makes room** for the first push that waits. -/
theorem contents_claimPop_full (hn : 0 < n) (hlt : h.pops + n < h.pushes)
    (hx : h.element (h.pops + n) = some x) :
    (h.record t .claimPop).contents =
      ((h.chan.pushes.map Ticket.datum).take h.entered).drop (h.pops + 1) ++ [x] := by
  have hentered : (h.record t .claimPop).entered = h.pops + n + 1 := by
    rw [entered, record_claimPop_pushes, record_claimPop_pops]
    omega
  have hleft : (h.record t .claimPop).left = h.pops + 1 := by
    rw [left, record_claimPop_pushes, record_claimPop_pops]
    omega
  rw [contents, hentered, hleft, entered, min_eq_right hlt.le]
  refine drop_take_concat (by omega) ?_
  rw [List.getElem?_map]
  exact hx

end

/-! ## Stages -/

section

variable {h h' : History D.ring.slots ι T} {t : ι} {pc : Pc D}

/-- A thread stays at its stage while what has taken effect of its claim
does. -/
theorem stage_congr
    (hpush : ∀ x i p, pc = .doPush x i p →
      (h'.pushNo t < h'.entered ↔ h.pushNo t < h.entered))
    (hpop : ∀ i p, pc = .doPop i p → h'.given (h'.popNo t) = h.given (h.popNo t)) :
    h'.stage t pc = h.stage t pc := by
  cases pc with
  | doPush x i p => simp only [stage, hpush x i p rfl]
  | doPop i p => simp only [stage, hpop i p rfl]
  | _ => rfl

/-- A step that claims nothing. -/
theorem stage_eq_of_claims_eq (hpushes : h'.chan.pushes = h.chan.pushes)
    (hpops : h'.chan.pops = h.chan.pops) (hpushNo : h'.pushNo = h.pushNo)
    (hpopNo : h'.popNo = h.popNo) : h'.stage t pc = h.stage t pc := by
  refine stage_congr (fun x i p _ => ?_) (fun i p _ => ?_)
  · rw [hpushNo, entered_congr hpushes hpops]
  · rw [hpopNo, given_congr hpushes hpops]

end

end History

variable [DecidableEq ι] {w w' : World D ι} {a : Act ι T} {t t' : ι} {x : T}
variable {ok : World D ι → Act ι T → World D ι → Prop}

namespace World

omit [DecidableEq ι] in
@[simp] theorem shared_value : w.shared.value = w.hist.contents := rfl

omit [DecidableEq ι] in
theorem shared_stage : w.shared.stage t = w.hist.stage t (w.pc t) := rfl

variable {m : Mem D} {pc : Pc D} {e : Event T D.ring.slots} {v v' : List T}
variable {g g' : Stage (Op T) (Answer T)}

/-- A step at which one call may take effect. -/
theorem shared_next (hv : (w.hist.record t e).contents = v)
    (hg : (w.hist.record t e).stage t pc = g)
    (hu : ∀ u, u ≠ t → (w.hist.record t e).stage u (w.pc u) = w.hist.stage u (w.pc u)) :
    (w.next t m pc e).shared = w.shared.set v t g := by
  rw [shared, Shared.set, Shared.mk.injEq]
  refine ⟨hv, funext fun u => ?_⟩
  rcases eq_or_ne u t with rfl | hne
  · rw [next_pc_self, Function.update_self]
    exact hg
  · rw [next_pc_of_ne hne, Function.update_of_ne hne]
    exact hu u hne

/-- A step at which a call of a second thread takes effect after it. -/
theorem shared_next_helped (v' : List T) (hne' : t' ≠ t) (hv : (w.hist.record t e).contents = v)
    (hg : (w.hist.record t e).stage t pc = g)
    (hg' : (w.hist.record t e).stage t' (w.pc t') = g')
    (hu : ∀ u, u ≠ t → u ≠ t' →
      (w.hist.record t e).stage u (w.pc u) = w.hist.stage u (w.pc u)) :
    (w.next t m pc e).shared = (w.shared.set v' t g).set v t' g' := by
  rw [shared, Shared.set, Shared.mk.injEq]
  refine ⟨hv, funext fun u => ?_⟩
  rcases eq_or_ne u t' with rfl | hne
  · rw [next_pc_of_ne hne', Function.update_self]
    exact hg'
  · rw [Function.update_of_ne hne]
    rcases eq_or_ne u t with rfl | hut
    · rw [next_pc_self, Shared.set_stage_self]
      exact hg
    · rw [next_pc_of_ne hut, Shared.set_stage_of_ne _ hut]
      exact hu u hut hne

/-- A step that claims nothing moves its own thread only. -/
theorem shared_next_of_claims_eq
    (hpushes : (w.hist.record t e).chan.pushes = w.hist.chan.pushes)
    (hpops : (w.hist.record t e).chan.pops = w.hist.chan.pops)
    (hpushNo : (w.hist.record t e).pushNo = w.hist.pushNo)
    (hpopNo : (w.hist.record t e).popNo = w.hist.popNo) :
    (w.next t m pc e).shared = w.shared.set w.shared.value t (w.hist.stage t pc) :=
  shared_next (History.contents_congr hpushes hpops)
    (History.stage_eq_of_claims_eq hpushes hpops hpushNo hpopNo)
    fun _ _ => History.stage_eq_of_claims_eq hpushes hpops hpushNo hpopNo

end World

end AtomicQueue
