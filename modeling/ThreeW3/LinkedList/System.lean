/-
# The clients keep the list in order

The pins of a node are the clients parked on it. With this every step that a client
makes is one that the list allows, so no step faults, and the list of the running
system refines a pinned sequence throughout.
-/

import ThreeW3.Lib.Occupancy
import ThreeW3.LinkedList.Clients
import ThreeW3.LinkedList.Walk

namespace ThreeW3.LinkedList

open ThreeW3.Lib

universe u v w
variable {D : Type u} {F : Type v} {ι : Type w}

/-! ## Steps on the sequence -/

namespace Op

/-- What the step gives. -/
def answer (a : Pinned D F) : Op D F → Reply D
  | insert _ _ => ⟨none, none⟩
  | walk d c => ⟨a.following d c, (a.following d c).bind (a.inserted[·]?)⟩
  | read x => ⟨some x, a.inserted[x]?⟩
  | remove _ _ => ⟨none, none⟩
  | leave _ => ⟨none, none⟩

/-- The sequence after the step. -/
def apply (a : Pinned D F) : Op D F → Pinned D F
  | insert d p => a.insert d p
  | walk d c => (a.walk d c).2
  | read _ => a
  | remove x fr => a.remove x fr
  | leave x => a.unpin (some x)

/-- Walks and departures are made by iterators, and the node is there. -/
def Safe (a : Pinned D F) : Op D F → Prop
  | insert _ _ => True
  | walk _ c => ∀ x ∈ c, 0 < a.pins x
  | read x => x ∈ a.order
  | remove x _ => x ∈ a.order
  | leave x => 0 < a.pins x

/-- The step is that of an iterator at this place, or of none. -/
def From (c : Ptr) : Op D F → Prop
  | walk _ c' => c = c'
  | leave x => c = some x
  | _ => True

/-- Where the iterator that makes the step stands afterwards. -/
def lands (r : Reply D) (c : Ptr) : Op D F → Ptr
  | walk _ _ => r.node
  | leave _ => none
  | _ => c

variable {m : State D F} {a : Pinned D F} {op : Op D F} {c : Ptr}

/-- A step moves the pin of the iterator that makes it. -/
theorem pins_apply (safe : op.Safe a) (hfrom : op.From c) (x : ℕ) :
    ((op.apply a).pins x + if c = some x then 1 else 0) =
      a.pins x + if op.lands (op.answer a) c = some x then 1 else 0 := by
  cases op with
  | insert d p => rfl
  | walk d c' =>
      obtain rfl : c = c' := hfrom
      exact Pinned.pins_move safe
  | read y => rfl
  | remove y fr =>
      have hpins : ((remove y fr).apply a).pins = a.pins := Pinned.pins_collect
      rw [hpins]
      rfl
  | leave y =>
      obtain rfl : c = some y := hfrom
      have hpos : ∀ z ∈ some y, 0 < a.pins z := by
        rintro z ⟨⟩
        exact safe
      simpa [lands, apply] using Pinned.pins_unpin hpos

theorem apply_ok (ok : a.Ok) (safe : op.Safe a) : (op.apply a).Ok := by
  cases op with
  | insert d p => exact ok.insert d p
  | walk d c => exact ok.walk safe d
  | read x => exact ok
  | remove x fr => exact ok.remove safe fr
  | leave x =>
      have hpos : ∀ y ∈ some x, 0 < a.pins y := by
        rintro y ⟨⟩
        exact safe
      exact ok.unpin hpos

/-- The list makes the step of the sequence. -/
theorem run_refines (h : Refines m a) (ok : a.Ok) (safe : op.Safe a) :
    ∃ m', op.run m = some (op.answer a, m') ∧ Refines m' (op.apply a) := by
  cases op with
  | insert d p =>
      obtain ⟨m', hrun, h'⟩ := h.insert ok d p
      exact ⟨m', by simp [run, hrun, answer], h'⟩
  | walk d c => exact h.walk ok safe d
  | read x =>
      obtain ⟨p, hp⟩ := ok.exists_data safe
      have hdata : nodeData x m = some p := by
        have hx : ∀ y ∈ some x, y ∈ a.order := by
          rintro y ⟨⟩
          exact safe
        rw [nodeData, h.dataAt_eq ok hx]
        exact hp
      exact ⟨m, by simp [run, hdata, answer, hp], h⟩
  | remove x fr =>
      obtain ⟨m', hrun, h'⟩ := h.remove ok safe fr
      exact ⟨m', by simp [run, hrun, answer], h'⟩
  | leave x =>
      obtain ⟨m', hrun, h'⟩ := h.unlockDeref ok safe
      exact ⟨m', by simp [run, hrun, answer], h'⟩

end Op

/-! ## Parked clients -/

/-- Starting a call does not move an iterator. -/
theorem Call.pinned_start {c : Call D} {t t' : Task D} (h : c.start t = some t') :
    t'.pinned = t.pinned := by
  cases c <;> cases t <;> simp only [Call.start, reduceCtorEq] at h
  case walk.walking =>
    cases h
    rfl
  case leave.walking c | take.walking c | deleteData.walking c =>
    cases c <;> cases h
    rfl

namespace Task

variable {a : Pinned D F} {i : ι} {t t' : Task D} {es : List (Event ι D)} {op : Op D F}

/-- A client steps with its own iterator. -/
theorem op_from (hop : t.op = some op) : op.From t.pinned := by
  cases t <;> cases hop <;> first | rfl | trivial

/-- It steps within what this iterator allows. -/
theorem op_safe (ok : a.Ok) (hpinned : ∀ x ∈ t.pinned, 0 < a.pins x) (hop : t.op = some op) :
    op.Safe a := by
  cases t <;> cases hop
  case stepping | deleting => exact hpinned
  case finding => exact fun x hx => absurd hx (by simp)
  case leaving | taken => exact hpinned _ rfl
  all_goals exact ok.mem_of_pinned (hpinned _ rfl)

/-- Clients in a call insert nothing. -/
theorem inserted_apply (hop : t.op = some op) : (op.apply a).inserted = a.inserted := by
  cases t <;> cases hop
  case stepping | finding | deleting => simp [Op.apply, Pinned.walk]
  case leaving | taken => exact Pinned.inserted_unpin
  case holding | removing => exact Pinned.inserted_collect
  all_goals rfl

variable [DecidableEq D]

/-- A call always goes on. -/
theorem exists_reply (ok : a.Ok) (safe : op.Safe a) (hop : t.op = some op) (i : ι) :
    ∃ t' es, t.reply i (op.answer a) = some (t', es) := by
  cases t <;> cases hop
  case taking x | matching x _ =>
    obtain ⟨q, hq⟩ := ok.exists_data safe
    simp [reply, Op.answer, hq]
  all_goals
    simp only [reply]
    first
      | exact ⟨_, _, rfl⟩
      | split <;> exact ⟨_, _, rfl⟩

/-- The client is parked where its step has taken it. -/
theorem pinned_reply {r : Reply D} (hop : t.op = some op)
    (hreply : t.reply i r = some (t', es)) : t'.pinned = op.lands r t.pinned := by
  cases t <;> cases hop
  case finding | deleting =>
    cases hnode : r.node <;> simp only [reply, hnode] at hreply <;> cases hreply <;>
      exact hnode.symm
  case taking =>
    obtain ⟨q, -, heq⟩ := Option.map_eq_some_iff.mp hreply
    cases heq
    rfl
  case matching =>
    obtain ⟨q, -, heq⟩ := Option.map_eq_some_iff.mp hreply
    cases heq
    split_ifs <;> rfl
  all_goals
    cases hreply
    rfl

end Task

/-! ## The running system -/

/-- The node on which each client is parked. -/
def Sys.parked (s : Sys ι D F) (i : ι) : Ptr := (s.task i).pinned

namespace Sys

section Moves

variable [DecidableEq ι] [DecidableEq D] {s t : Sys ι D F} {a b : Pinned D F} {act : Action ι D F}

/-- What a step can do: an insertion, a removal by somebody, or a step of a client in
a call. -/
inductive Move (s : Sys ι D F) (a : Pinned D F) : Action ι D F → Sys ι D F → Pinned D F → Prop
  | insert (d : Dir) (p : D) (m : State D F) :
      Move s a (.insert d p) { s with mem := m } (a.insert d p)
  | remove (x : ℕ) (fr : Option F) (m : State D F) (hx : x ∈ a.order) :
      Move s a (.remove x fr) { s with mem := m, trace := s.trace ++ [.removed x] } (a.remove x fr)
  | advance {act : Action ι D F} {i : ι} {task task' : Task D} {op : Op D F}
      {es : List (Event ι D)} (m : State D F) (hruns : act.runs s = some (i, task))
      (hstart : task.pinned = s.parked i) (hop : task.op = some op) (safe : op.Safe a)
      (hreply : task.reply i (op.answer a) = some (task', es)) :
      Move s a act ⟨m, Function.update s.task i task', s.trace ++ es⟩ (op.apply a)

/-- The data that the actions insert. -/
def inserted (as : List (Action ι D F)) : List D :=
  as.filterMap fun
    | .insert _ p => some p
    | _ => none

theorem Move.inserted_eq (h : s.Move a act t b) :
    b.inserted = a.inserted ++ inserted [act] := by
  cases h with
  | insert d p m => rfl
  | remove x fr m hx => simp [inserted, Pinned.remove]
  | @advance _ i task task' op es m hruns hstart hop safe hreply =>
      rw [Task.inserted_apply hop]
      cases act <;> simp [inserted, Action.runs] at hruns ⊢

end Moves

/-- The list of the system is this pinned sequence, and the pins are the clients. -/
structure Inv [Fintype ι] (s : Sys ι D F) (a : Pinned D F) : Prop where
  refines : Refines s.mem a
  ok : a.Ok
  pins_eq : ∀ x, a.pins x = countAt s.parked (some x)

variable [Fintype ι] {s t : Sys ι D F} {a : Pinned D F} {act : Action ι D F} {i : ι}

theorem Inv.new : Inv (.new : Sys ι D F) Pinned.new := by
  refine ⟨.new, .new, fun x => ?_⟩
  have hnone : ∀ i, (Sys.new : Sys ι D F).parked i ≠ some x := by
    intro i hparked
    cases hparked
  rw [countAt_eq_zero.mpr hnone]
  rfl

/-- A node on which a client is parked has a pin. -/
theorem Inv.pinned (h : s.Inv a) {x : ℕ} (hx : s.parked i = some x) : 0 < a.pins x := by
  rw [h.pins_eq, countAt_pos]
  exact ⟨i, hx⟩

theorem Inv.mem_iff_allocated (h : s.Inv a) (x : ℕ) :
    x ∈ a.order ↔ (s.mem.node.load x).isSome = true := by
  rw [h.refines.mem_iff, ← h.refines.core_eq, State.core, Option.isSome_map]

theorem Inv.marked_iff (h : s.Inv a) {x : ℕ} : a.marked x = true ↔ s.mem.Removed x := by
  have hremoved : s.mem.removed = a.removed := congrArg Ledger.removed h.refines.ledger_eq
  rw [State.Removed, hremoved, Pinned.marked, decide_eq_true_eq]

theorem Inv.present_iff (h : s.Inv a) {x : ℕ} :
    s.mem.Present x ↔ x ∈ a.order ∧ a.marked x = false := by
  rw [State.Present, h.refines.contents_eq h.ok, Dir.mem_along]
  apply and_congr_right
  intro hx
  obtain ⟨p, hp⟩ := h.ok.exists_data hx
  rw [Shape.isDeleted_eq h.refines (Pinned.core_eq hx hp)]
  rfl

variable [DecidableEq ι] [DecidableEq D]

omit [Fintype ι] in
/-- Other clients stay where they are. -/
theorem advance_others {task : Task D} (hadvance : s.advance i task = some t) {j : ι}
    (hj : j ≠ i) : t.task j = s.task j := by
  obtain ⟨op, -, hrun⟩ := Option.bind_eq_some_iff.mp hadvance
  obtain ⟨⟨r, m⟩, -, hreply⟩ := Option.bind_eq_some_iff.mp hrun
  obtain ⟨⟨task', es⟩, -, rfl⟩ := Option.map_eq_some_iff.mp hreply
  exact Function.update_of_ne hj _ _

/-- A client makes a step of its call. The list makes the step of the sequence, and a pin
goes where the client goes. -/
theorem advance_refines (hrefines : Refines s.mem a) (ok : a.Ok) {task : Task D} {op : Op D F}
    (hpinned : ∀ x ∈ s.parked i, 0 < a.pins x) (hstart : task.pinned = s.parked i)
    (hop : task.op = some op) :
    ∃ m task' es, op.Safe a ∧ task.reply i (op.answer a) = some (task', es) ∧
      s.advance i task = some ⟨m, Function.update s.task i task', s.trace ++ es⟩ ∧
      Refines m (op.apply a) ∧ (op.apply a).Ok ∧
      ∀ x, (op.apply a).pins x + countAt s.parked (some x) = a.pins x +
        countAt (Sys.parked ⟨m, Function.update s.task i task', s.trace ++ es⟩) (some x) := by
  have safe : op.Safe a := Task.op_safe ok (hstart ▸ hpinned) hop
  obtain ⟨m, hrun, hm⟩ := Op.run_refines hrefines ok safe
  obtain ⟨task', es, hreply⟩ := Task.exists_reply ok safe hop i
  refine ⟨m, task', es, safe, hreply, ?_, hm, Op.apply_ok ok safe, fun x => ?_⟩
  · simp only [Sys.advance, hop, hrun, hreply, Option.bind_some, Option.map_some]
  · have hparked : Sys.parked ⟨m, Function.update s.task i task', s.trace ++ es⟩ =
        Function.update s.parked i task'.pinned := by
      funext j
      exact Function.apply_update (fun _ t => Task.pinned t) s.task i task' j
    have hcount := countAt_update s.parked i task'.pinned (some x)
    have hpins := Op.pins_apply safe (Task.op_from hop) x
    rw [← Task.pinned_reply hop hreply, hstart] at hpins
    rw [hparked]
    omega

theorem Inv.advance (h : s.Inv a) {task : Task D} {op : Op D F}
    (hstart : task.pinned = s.parked i) (hop : task.op = some op) :
    ∃ m task' es, op.Safe a ∧ task.reply i (op.answer a) = some (task', es) ∧
      s.advance i task = some ⟨m, Function.update s.task i task', s.trace ++ es⟩ ∧
      Inv ⟨m, Function.update s.task i task', s.trace ++ es⟩ (op.apply a) := by
  obtain ⟨m, task', es, safe, hreply, hadvance, hm, ok, hpins⟩ :=
    s.advance_refines h.refines h.ok (fun x hx => h.pinned hx) hstart hop
  refine ⟨m, task', es, safe, hreply, hadvance, hm, ok, fun x => ?_⟩
  have hpins := hpins x
  rw [h.pins_eq] at hpins
  omega

/-- A step of a client in a call. -/
theorem Inv.step_call (h : s.Inv a) {task : Task D} (hruns : act.runs s = some (i, task))
    (hstart : task.pinned = s.parked i) (hop : (task.op (F := F)).isSome = true)
    (hstep : s.step act = s.advance i task) :
    ∃ t a', s.step act = some t ∧ s.Move a act t a' ∧ t.Inv a' := by
  obtain ⟨op, hop⟩ := Option.isSome_iff_exists.mp hop
  obtain ⟨m, task', es, safe, hreply, hadvance, h'⟩ := h.advance hstart hop
  exact ⟨_, _, hstep.trans hadvance, .advance m hruns hstart hop safe hreply, h'⟩

/-- Every enabled step succeeds. -/
theorem Inv.step (h : s.Inv a) (henabled : act.enabled s) :
    ∃ t a', s.step act = some t ∧ s.Move a act t a' ∧ t.Inv a' := by
  cases act with
  | insert d p =>
      have safe : (Op.insert d p : Op D F).Safe a := trivial
      obtain ⟨m, hrun, h'⟩ := Op.run_refines h.refines h.ok safe
      refine ⟨_, _, ?_, .insert d p m, h', h.ok.insert d p, h.pins_eq⟩
      rw [Sys.step, hrun, Option.map_some]
  | remove x fr =>
      have safe : (Op.remove x fr).Safe a := (h.mem_iff_allocated x).mpr henabled
      obtain ⟨m, hrun, h'⟩ := Op.run_refines h.refines h.ok safe
      refine ⟨_, _, ?_, .remove x fr m safe, h', h.ok.remove safe fr, fun y => ?_⟩
      · rw [Sys.step, hrun, Option.map_some]
      · have hpins : (a.remove x fr).pins = a.pins := Pinned.pins_collect
        rw [hpins]
        exact h.pins_eq y
  | call i c =>
      cases hstart : c.start (s.task i) with
      | none => simp [Action.enabled, Action.op, Action.runs, hstart] at henabled
      | some task =>
          have hruns : Action.runs s (.call i c) = some (i, task) := by
            simp [Action.runs, hstart]
          apply h.step_call hruns
          · exact Call.pinned_start hstart
          · simpa [Action.enabled, Action.op, Action.runs, hstart] using henabled
          · simp [Sys.step, Action.runs, hstart]
  | resume i => exact h.step_call rfl rfl henabled rfl

/-- A valid run never faults, and its list is a pinned sequence throughout. -/
theorem Inv.run {as : List (Action ι D F)} (h : s.Inv a) (hvalid : (clients ι D F).Valid s as) :
    ∃ t b, (clients ι D F).exec s as = some t ∧ t.Inv b ∧
      b.inserted = a.inserted ++ inserted as := by
  induction as generalizing s a with
  | nil => exact ⟨s, a, rfl, h, by simp [inserted]⟩
  | cons act as ih =>
      obtain ⟨t, b, hstep, hmove, ht⟩ := h.step hvalid.1
      obtain ⟨u, c, hexec, hu, hinserted⟩ := ih ht (hvalid.2 t hstep)
      refine ⟨u, c, (Machine.exec_cons_of_step hstep as).trans hexec, hu, ?_⟩
      rw [hinserted, hmove.inserted_eq, List.append_assoc, inserted, inserted, inserted,
        ← List.filterMap_append, List.singleton_append]

end Sys

end ThreeW3.LinkedList
