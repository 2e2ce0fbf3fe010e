/-
# The lifetime of a node

A node is unlinked, released and freed once, at the first moment at which it has
been removed and no client is parked on it. The record of removals that the list carries is that
of the calls of `list_remove` in the run.
-/

import ThreeW3.LinkedList.System

namespace ThreeW3.LinkedList

open ThreeW3.Lib

universe u v w
variable {D : Type u} {F : Type v} {ι : Type w}

namespace State

/-- The release function that the last such call has set. -/
def releaseFn (m : State D F) (x : ℕ) : Option F := (m.removed.lookup x).join

end State

/-- Nodes are freed once, as soon as they have been removed and no client is parked on
them; until then they are linked, and the flag says whether they have been removed.
With a node that has a release function this is called, once and with the data of
the node. -/
structure Lifetime (data : List D) (s : Sys ι D F) : Prop where
  freed_nodup : s.mem.freed.Nodup
  mem_freed : ∀ x, x ∈ s.mem.freed ↔ s.mem.Removed x ∧ ∀ i, s.parked i ≠ some x
  allocated : ∀ x, (s.mem.node.load x).isSome = true ↔ x < data.length ∧ x ∉ s.mem.freed
  linked : ∀ d x, x ∈ contents d s.mem ↔ x < data.length ∧ x ∉ s.mem.freed
  deleted : ∀ n x, s.mem.node.load x = some n → (n.deleted = true ↔ s.mem.Removed x)
  released : s.mem.released = s.mem.freed.filterMap fun x =>
    (s.mem.releaseFn x).bind fun f => data[x]?.map fun p => (x, f, p)

/-! ## Removals -/

/-- The step is this call of `list_remove`. -/
def Op.removal : Op D F → Option (ℕ × Option F)
  | remove x fr => some (x, fr)
  | _ => none

theorem Op.removed_apply (a : Pinned D F) (op : Op D F) :
    (op.apply a).removed = op.removal.toList ++ a.removed := by
  cases op with
  | insert d p => rfl
  | walk d c => simp [apply, removal, Pinned.walk]
  | read x => rfl
  | remove x fr => simp [apply, removal, Pinned.remove]
  | leave x => simp [apply, removal]

/-- The call of `list_remove` that the action makes, on its own or for a client that is in
`list_pop`, `list_shift` or `list_delete_data`. -/
def Action.removal (s : Sys ι D F) (act : Action ι D F) : Option (ℕ × Option F) :=
  (act.op s).bind Op.removal

section Removals

variable [DecidableEq ι] [DecidableEq D] {s t : Sys ι D F} {a b : Pinned D F}
  {act : Action ι D F}

theorem Sys.Move.removed_eq (h : s.Move a act t b) :
    b.removed = (act.removal s).toList ++ a.removed := by
  cases h with
  | insert d p m => rfl
  | remove x fr m hx => exact Op.removed_apply a (.remove x fr)
  | @advance _ i task task' op es m hruns hstart hop safe hreply =>
      have hact : act.op s = some op := by
        cases act with
        | insert | remove => cases hruns
        | call | resume => simp only [Action.op, hruns, Option.bind_some, hop]
      rw [Action.removal, hact]
      exact Op.removed_apply a op

/-- The calls of `list_remove` in a run, the first one first. -/
def Sys.removals (s : Sys ι D F) : List (Action ι D F) → List (ℕ × Option F)
  | [] => []
  | act :: as => (act.removal s).toList ++ (s.step act).elim [] fun t => removals t as

variable [Fintype ι]

/-- The list has these removals on record, and no others. -/
theorem Sys.Inv.removed_eq {as : List (Action ι D F)} (h : s.Inv a)
    (hvalid : (clients ι D F).Valid s as) (hexec : (clients ι D F).exec s as = some t) :
    t.mem.removed = (s.removals as).reverse ++ s.mem.removed := by
  induction as generalizing s a with
  | nil =>
      obtain rfl : s = t := Option.some.inj hexec
      rfl
  | cons act as ih =>
      obtain ⟨u, c, hstep, hmove, hu⟩ := h.step hvalid.1
      have hrest : (clients ι D F).exec u as = some t :=
        (Machine.exec_cons_of_step (M := clients ι D F) hstep as).symm.trans hexec
      have hs : s.mem.removed = a.removed := congrArg Ledger.removed h.refines.ledger_eq
      have hfirst : u.mem.removed = c.removed := congrArg Ledger.removed hu.refines.ledger_eq
      have hself : (act.removal s).toList.reverse = (act.removal s).toList := by
        cases act.removal s <;> rfl
      rw [ih hu (hvalid.2 u hstep) hrest, hfirst, hmove.removed_eq, ← hs, removals, hstep,
        Option.elim_some, List.reverse_append, hself, List.append_assoc]

end Removals

/-- In a run of the clients of a new list, the nodes that have been removed are those that an
action of the run has given to `list_remove`. -/
theorem removed_iff [Fintype ι] [DecidableEq ι] [DecidableEq D] {as : List (Action ι D F)}
    {t : Sys ι D F} (hvalid : (clients ι D F).Valid (clients ι D F).init as)
    (hexec : (clients ι D F).exec (clients ι D F).init as = some t) (x : ℕ) :
    t.mem.Removed x ↔ ∃ fr, (x, fr) ∈ Sys.removals (clients ι D F).init as := by
  have hremoved := Sys.Inv.new.removed_eq hvalid hexec
  rw [State.Removed, hremoved, show (Sys.new : Sys ι D F).mem.removed = [] from rfl,
    List.append_nil, List.mem_map]
  constructor
  · rintro ⟨⟨y, fr⟩, hmem, rfl⟩
    exact ⟨fr, List.mem_reverse.mp hmem⟩
  · rintro ⟨fr, hmem⟩
    exact ⟨(x, fr), List.mem_reverse.mpr hmem, rfl⟩

/-! ## Nodes -/

namespace Sys.Inv

variable [Fintype ι] {s : Sys ι D F} {a : Pinned D F}

theorem pins_eq_zero (h : s.Inv a) {x : ℕ} : a.pins x = 0 ↔ ∀ i, s.parked i ≠ some x := by
  rw [h.pins_eq, countAt_eq_zero]

theorem lifetime (h : s.Inv a) : Lifetime a.inserted s := by
  have hfreed : s.mem.freed = a.freed := congrArg Ledger.freed h.refines.ledger_eq
  have hremoved : s.mem.removed = a.removed := congrArg Ledger.removed h.refines.ledger_eq
  refine ⟨hfreed ▸ h.ok.freed_nodup, fun x => ?_, fun x => ?_, fun d x => ?_, fun n x hn => ?_, ?_⟩
  · rw [hfreed, h.ok.mem_freed, h.marked_iff, h.pins_eq_zero]
  · rw [← h.mem_iff_allocated, h.ok.mem_order, hfreed]
  · rw [h.refines.contents_eq h.ok, Dir.mem_along, h.ok.mem_order, hfreed]
  · have hx : x ∈ a.order := (h.mem_iff_allocated x).mpr (by rw [hn]; rfl)
    obtain ⟨p, hp⟩ := h.ok.exists_data hx
    obtain ⟨n', hn', hcore⟩ := Shape.load_of_core h.refines (Pinned.core_eq hx hp)
    obtain rfl : n = n' := Option.some.inj (hn.symm.trans hn')
    rw [← h.marked_iff, hcore]
    rfl
  · have hreleased : s.mem.released = a.released :=
      congrArg Ledger.released h.refines.ledger_eq
    have hrelease : ∀ x, s.mem.releaseFn x = a.release x := fun x => by
      rw [State.releaseFn, hremoved, Pinned.release]
    simp only [hreleased, Pinned.released, hfreed, hrelease]

end Sys.Inv

variable [Fintype ι] [DecidableEq ι] [DecidableEq D]

/-- Every run of any clients goes through, and in the state after it, and so in every
state on the way, nodes have lived as they should. -/
theorem node_lifetime (as : List (Action ι D F))
    (hvalid : (clients ι D F).Valid (clients ι D F).init as) :
    ∃ t, (clients ι D F).exec (clients ι D F).init as = some t ∧
      Lifetime (Sys.inserted as) t := by
  obtain ⟨t, a, hexec, h, hinserted⟩ := Sys.Inv.new.run hvalid
  refine ⟨t, hexec, ?_⟩
  have hdata : a.inserted = Sys.inserted as := by simpa [Pinned.new] using hinserted
  exact hdata ▸ h.lifetime

/-- Two clients are parked on a node when it is removed; it goes with the second. -/
def lastLeaves : List (Action Bool ℕ ℕ) :=
  [.insert .fwd 7, .insert .fwd 8, .call false (.walk .fwd), .call true (.walk .fwd), .remove 0 (some 5),
    .call false (.walk .fwd), .call true .leave]

theorem lastLeaves_lifetime :
    ∃ t, (clients Bool ℕ ℕ).exec (clients Bool ℕ ℕ).init lastLeaves = some t ∧
      Lifetime (Sys.inserted lastLeaves) t ∧ t.mem.freed = [0] ∧ t.mem.released = [(0, 5, 7)] := by
  obtain ⟨t, hexec, hlifetime⟩ := node_lifetime lastLeaves (by decide)
  have hends : ∀ t ∈ (clients Bool ℕ ℕ).exec (clients Bool ℕ ℕ).init lastLeaves,
      t.mem.freed = [0] ∧ t.mem.released = [(0, 5, 7)] := by decide
  exact ⟨t, hexec, hlifetime, hends t hexec⟩

end ThreeW3.LinkedList
