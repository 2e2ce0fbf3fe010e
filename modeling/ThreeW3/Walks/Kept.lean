/-
# Lists with references left behind

Where walks have returned from the middle, a node may have more pins than there are
iterators on it. It is never freed for want of one, so the steps of the list go through as
before.
-/

import ThreeW3.LinkedList.Deque
import ThreeW3.LinkedList.System
import ThreeW3.Walks.Model

namespace ThreeW3.Walks

open ThreeW3.Lib ThreeW3.LinkedList

universe u v w
variable {ι : Type w} {D : Type u} {K : Type v}

namespace Walkers

/-- The list refines a pinned sequence with a pin, at least, for each iterator. -/
structure Kept [Fintype ι] (s : Walkers ι D K) (a : Pinned D Empty) : Prop where
  refines : Refines s.list.mem a
  ok : a.Ok
  le_pins : ∀ x, countAt s.list.parked (some x) ≤ a.pins x

variable [Fintype ι] {s : Walkers ι D K} {a : Pinned D Empty} {i : ι}

theorem Kept.new : Kept (.new : Walkers ι D K) Pinned.new :=
  ⟨.new, .new, fun x => le_of_eq (Sys.Inv.new.pins_eq x).symm⟩

theorem Kept.pinned (h : s.Kept a) {x : ℕ} (hx : s.list.parked i = some x) : 0 < a.pins x :=
  Nat.lt_of_lt_of_le (countAt_pos.mpr ⟨i, hx⟩) (h.le_pins x)

theorem Kept.nodeData (h : s.Kept a) {x : ℕ} (hx : s.list.parked i = some x) :
    ∃ p, LinkedList.nodeData x s.list.mem = some p ∧ a.inserted[x]? = some p := by
  have hmem := h.ok.mem_of_pinned (h.pinned hx)
  obtain ⟨p, hp⟩ := h.ok.exists_data hmem
  exact ⟨p, by rw [Refines.nodeData h.refines h.ok hmem, hp], hp⟩

variable [DecidableEq ι]

theorem Kept.enter (h : s.Kept a) (l : Loop K) : (s.enter i l).Kept a :=
  ⟨h.refines, h.ok, h.le_pins⟩

omit [Fintype ι] in
theorem parked_returnFound :
    (s.returnFound i).list.parked = Function.update s.list.parked i none := by
  funext j
  exact Function.apply_update (fun _ t => LinkedList.Task.pinned t) s.list.task i (.walking none) j

/-- An iterator that is dropped leaves its pin. -/
theorem Kept.returnFound (h : s.Kept a) : (s.returnFound i).Kept a := by
  refine ⟨h.refines, h.ok, fun x => ?_⟩
  have hcount := countAt_update s.list.parked i none (some x)
  have hle := h.le_pins x
  have hnone : (none : Ptr) ≠ some x := by simp
  rw [if_neg hnone] at hcount
  rw [parked_returnFound]
  omega

variable [DecidableEq D]

/-- A step of a call. -/
theorem Kept.onList (h : s.Kept a) {l : Loop K} {act : Action ι D Empty}
    {task : LinkedList.Task D} {op : Op D Empty} (hstart : task.pinned = s.list.parked i)
    (hop : task.op = some op) (hstep : s.list.step act = s.list.advance i task) :
    ∃ t task' es, task.reply i (op.answer a) = some (task', es) ∧ s.onList i act l = some t ∧
      t.Kept (op.apply a) ∧ t.list.task = Function.update s.list.task i task' ∧
      t.loop = Function.update s.loop i l ∧
      ∀ x, (op.apply a).pins x + countAt s.list.parked (some x) =
        a.pins x + countAt t.list.parked (some x) := by
  obtain ⟨m, task', es, -, hreply, hadvance, hm, ok, hpins⟩ :=
    s.list.advance_refines h.refines h.ok (fun x hx => h.pinned hx) hstart hop
  refine ⟨_, task', es, hreply, by rw [Walkers.onList, hstep, hadvance, Option.map_some],
    ⟨hm, ok, fun x => ?_⟩, rfl, rfl, hpins⟩
  have hle := h.le_pins x
  have hpins := hpins x
  change countAt (Sys.parked ⟨m, Function.update s.list.task i task', s.list.trace ++ es⟩)
    (some x) ≤ _
  omega

variable [DecidableEq K]

theorem Kept.insert (h : s.Kept a) (ip : D → K) (d : Dir) (p : D) :
    ∃ t, s.step ip (.insert d p) = some t ∧ t.Kept (a.insert d p) ∧
      t.list.task = s.list.task ∧ t.loop = s.loop := by
  obtain ⟨m, hrun, hm⟩ :=
    Op.run_refines h.refines h.ok (show (Op.insert d p : Op D Empty).Safe a from trivial)
  refine ⟨{ s with list := { s.list with mem := m } }, ?_, ⟨hm, h.ok.insert d p, h.le_pins⟩,
    rfl, rfl⟩
  rw [Walkers.step, Sys.step, hrun]
  rfl

/-! ## Other threads -/

omit [Fintype ι] [DecidableEq K] in
/-- Nothing of another thread changes. -/
theorem onList_others {t : Walkers ι D K} {act : Action ι D Empty} {l : Loop K}
    (hstep : s.onList i act l = some t) (hact : act = .resume i ∨ ∃ c, act = .call i c) {j : ι}
    (hj : j ≠ i) : t.loop j = s.loop j ∧ t.list.task j = s.list.task j := by
  obtain ⟨list, hlist, rfl⟩ := Option.map_eq_some_iff.mp hstep
  refine ⟨Function.update_of_ne hj _ _, ?_⟩
  rcases hact with rfl | ⟨c, rfl⟩
  · exact Sys.advance_others hlist hj
  · obtain ⟨⟨i', task⟩, hruns, hadvance⟩ := Option.bind_eq_some_iff.mp hlist
    obtain ⟨task', -, hpair⟩ := Option.map_eq_some_iff.mp hruns
    obtain ⟨rfl, rfl⟩ := Prod.mk.inj hpair
    exact Sys.advance_others hadvance hj

omit [Fintype ι] in
theorem resume_others {t : Walkers ι D K} {ip : D → K} (hstep : s.resume ip i = some t) {j : ι}
    (hj : j ≠ i) : t.loop j = s.loop j ∧ t.list.task j = s.list.task j := by
  have henter : ∀ l, (s.enter i l).loop j = s.loop j := fun l => Function.update_of_ne hj _ _
  unfold resume at hstep
  split at hstep
  · exact onList_others hstep (.inl rfl) hj
  · exact onList_others hstep (.inr ⟨_, rfl⟩) hj
  · split at hstep
    · obtain rfl := Option.some.inj hstep
      exact ⟨henter _, rfl⟩
    · obtain ⟨p, -, rfl⟩ := Option.map_eq_some_iff.mp hstep
      split_ifs
      · exact ⟨Function.update_of_ne hj _ _, Function.update_of_ne hj _ _⟩
      · exact ⟨henter _, rfl⟩
    · cases hstep
  · obtain rfl := Option.some.inj hstep
    exact ⟨henter _, rfl⟩

end Walkers

end ThreeW3.Walks
