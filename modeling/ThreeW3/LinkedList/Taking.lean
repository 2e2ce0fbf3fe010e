/-
# Taking elements

`list_pop`, `list_shift` and `list_delete_data` find a node in one locked section and
remove it in a later one. Each removal is one taking of the node, in progress or
reported. As long as no node is removed twice, each is taken once and `list_items` is
the number of nodes left; but nothing keeps two takers from finding the same node.
-/

import ThreeW3.LinkedList.System

namespace ThreeW3.LinkedList

open ThreeW3.Lib

universe u v w
variable {D : Type u} {F : Type v} {ι : Type w}

/-- The nodes that have been returned by `list_pop` or `list_shift`, counted by
`list_delete_data`, or given to `list_remove`. -/
def gone (tr : List (Event ι D)) : List ℕ :=
  tr.filterMap fun
    | .took _ x _ => some x
    | .counted _ x => some x
    | .removed x => some x
    | _ => none

theorem gone_append (tr es : List (Event ι D)) : gone (tr ++ es) = gone tr ++ gone es :=
  List.filterMap_append

namespace Task

/-- The node that the call has removed and not yet returned. -/
def claimed : Task D → Ptr
  | taken x _ => some x
  | _ => none

/-- Between calls. -/
def isIdle : Task D → Bool
  | walking _ => true
  | _ => false

end Task

/-- Each node is taken once, and between calls `list_items` is the number of nodes
not taken. -/
def TakenOnce (s : Sys ι D F) : Prop :=
  (gone s.trace).Nodup ∧ ((∀ i, (s.task i).isIdle = true) →
    listItems s.mem = BitVec.ofNat 64 ((List.range s.mem.fresh).filter (· ∉ gone s.trace)).length)

instance [Fintype ι] (s : Sys ι D F) : Decidable (TakenOnce s) :=
  inferInstanceAs (Decidable (_ ∧ (_ → _)))

/-- `list_remove` is not given a node that is deleted already. -/
def Action.MarksOnce (s : Sys ι D F) (act : Action ι D F) : Prop :=
  match act.op s with
  | some (.remove x _) => s.mem.isDeleted (some x) = false
  | _ => True

instance (s : Sys ι D F) (act : Action ι D F) : Decidable (act.MarksOnce s) := by
  unfold Action.MarksOnce
  split <;> infer_instance

namespace Pinned

variable {a : Pinned D F} {x y : ℕ} {c : Ptr} {fr : Option F} {d : Dir}

@[simp] theorem removals_collect : (a.collect x).removals y = a.removals y := by
  unfold collect
  split_ifs <;> rfl

@[simp] theorem removals_unpin : (a.unpin c).removals y = a.removals y := by
  cases c with
  | none => rfl
  | some x => exact removals_collect

theorem removals_remove :
    (a.remove x fr).removals y = a.removals y + if some x = some y then 1 else 0 := by
  rw [remove, removals_collect]
  simp [removals, List.count_cons]

/-- The nodes that came stand in the sequence or have left. -/
theorem Ok.length_eq (h : a.Ok) : a.order.length + a.freed.length = a.inserted.length := by
  have hnodup : (a.order ++ a.freed).Nodup := by
    rw [List.nodup_append]
    refine ⟨h.nodup, h.freed_nodup, ?_⟩
    rintro x hx y hy rfl
    exact h.notMem_freed hx hy
  have hperm : (a.order ++ a.freed).Perm (List.range a.inserted.length) := by
    rw [List.perm_ext_iff_of_nodup hnodup List.nodup_range]
    intro x
    rw [List.mem_append, List.mem_range, h.mem_order]
    constructor
    · rintro (⟨hlt, -⟩ | hx)
      · exact hlt
      · exact h.marked_lt x ((h.mem_freed x).mp hx).1
    · intro hlt
      by_cases hx : x ∈ a.freed
      · exact .inr hx
      · exact .inl ⟨hlt, hx⟩
  simpa using hperm.length_eq

end Pinned

/-! ## Accounts -/

theorem Call.claimed_start {c : Call D} {t t' : Task D} (h : c.start t = some t') :
    t'.claimed = t.claimed := by
  cases c <;> cases t <;> simp only [Call.start, reduceCtorEq] at h
  case walk.walking =>
    cases h
    rfl
  case leave.walking c | take.walking c | deleteData.walking c =>
    cases c <;> cases h
    rfl

/-- A removal is claimed by the call or reported, and a claim is reported. -/
theorem Task.removals_reply [DecidableEq D] {a : Pinned D F} {i : ι} {t t' : Task D}
    {es : List (Event ι D)} {op : Op D F} (hop : t.op = some op)
    (hreply : t.reply i (op.answer a) = some (t', es)) (x : ℕ) :
    ((op.apply a).removals x + if t.claimed = some x then 1 else 0) =
      a.removals x + (gone es).count x + if t'.claimed = some x then 1 else 0 := by
  cases t <;> cases hop
  case finding | deleting =>
    simp only [reply] at hreply
    split at hreply <;> cases hreply <;> simp [Op.apply, Pinned.walk, gone, claimed]
  case taking =>
    obtain ⟨q, -, heq⟩ := Option.map_eq_some_iff.mp hreply
    cases heq
    rfl
  case matching p y n =>
    obtain ⟨q, -, heq⟩ := Option.map_eq_some_iff.mp hreply
    cases heq
    by_cases hpq : p = q <;> simp [hpq, Op.apply, gone, claimed]
  case holding =>
    cases hreply
    simp only [Op.apply, Pinned.removals_remove, claimed]
    rfl
  case removing =>
    cases hreply
    simp only [Op.apply, Pinned.removals_remove, claimed]
    simp [gone, List.count_cons]
  all_goals
    cases hreply
    simp [Op.apply, Pinned.walk, gone, claimed, List.count_cons]

namespace Sys

/-- Each removal of a node is one taking of it, reported or claimed. -/
def Accounts [Fintype ι] (s : Sys ι D F) (a : Pinned D F) : Prop :=
  ∀ x, a.removals x = (gone s.trace).count x + countAt (fun i => (s.task i).claimed) (some x)

variable {s t : Sys ι D F} {a b : Pinned D F} {act : Action ι D F} {i : ι}

/-- The step takes up the call where the client was. -/
theorem claimed_of_runs {task : Task D} (h : act.runs s = some (i, task)) :
    task.claimed = (s.task i).claimed := by
  cases act with
  | insert | remove => cases h
  | call k c =>
      obtain ⟨_, hstart, heq⟩ := Option.map_eq_some_iff.mp h
      cases heq
      exact Call.claimed_start hstart
  | resume k =>
      cases h
      rfl

theorem op_of_runs {task : Task D} (h : act.runs s = some (i, task)) :
    act.op s = task.op := by
  cases act with
  | insert | remove => cases h
  | call | resume => simp only [Action.op, h, Option.bind_some]

section Start

variable [Fintype ι]

theorem Accounts.new : Accounts (.new : Sys ι D F) Pinned.new := by
  intro x
  have hnone : ∀ i, ((Sys.new : Sys ι D F).task i).claimed ≠ some x := by
    intro i h
    cases h
  rw [countAt_eq_zero.mpr hnone]
  rfl

/-- With no node removed twice and all clients between calls, each node is taken once
and `list_items` is right. -/
theorem Accounts.takenOnce (h : s.Accounts a) (hs : s.Inv a)
    (honce : (a.removed.map Prod.fst).Nodup) : TakenOnce s := by
  have hle : ∀ x, (gone s.trace).count x ≤ a.removals x := fun x => by
    rw [h x]
    omega
  have hnodup : (gone s.trace).Nodup := by
    rw [List.nodup_iff_count_le_one] at honce ⊢
    exact fun x => (hle x).trans (honce x)
  refine ⟨hnodup, fun hidle => ?_⟩
  have hlt : ∀ x ∈ gone s.trace, x < a.inserted.length := by
    intro x hx
    apply hs.ok.marked_lt
    rw [← Pinned.removals_pos]
    exact (List.count_pos_iff.mpr hx).trans_le (hle x)
  have hperm : (gone s.trace).Perm (a.removed.map Prod.fst) := by
    rw [List.perm_iff_count]
    intro x
    have hnone : ∀ i, (s.task i).claimed ≠ some x := by
      intro i hclaimed
      have := hidle i
      cases htask : s.task i <;> simp [htask, Task.isIdle, Task.claimed] at this hclaimed
    have hx := h x
    rw [countAt_eq_zero.mpr hnone, Nat.add_zero] at hx
    exact hx.symm
  have hremoved : (gone s.trace).length = a.removed.length := by simpa using hperm.length_eq
  have hleft := length_filter_notMem hnodup hlt
  have hplaces := hs.ok.length_eq
  have hledger : s.mem.toLedger = a.ledger := hs.refines.ledger_eq
  have hfresh : s.mem.fresh = a.inserted.length := congrArg Ledger.fresh hledger
  have hitems : listItems s.mem = BitVec.ofNat 64 a.order.length -
      (BitVec.ofNat 64 a.removed.length - BitVec.ofNat 64 a.freed.length) := by
    rw [listItems, congrArg Ledger.items hledger, congrArg Ledger.deleted hledger]
    rfl
  have hsum : BitVec.ofNat 64 a.order.length + BitVec.ofNat 64 a.freed.length =
      BitVec.ofNat 64 a.removed.length + BitVec.ofNat 64
        ((List.range a.inserted.length).filter (· ∉ gone s.trace)).length := by
    rw [← BitVec.ofNat_add, ← BitVec.ofNat_add]
    congr 1
    omega
  rw [hitems, hfresh]
  generalize BitVec.ofNat 64 ((List.range a.inserted.length).filter (· ∉ gone s.trace)).length = n
    at hsum ⊢
  bv_omega

end Start

variable [DecidableEq ι] [DecidableEq D] [Fintype ι]

theorem Accounts.move (h : s.Accounts a) (hmove : s.Move a act t b) : t.Accounts b := by
  intro y
  have hy := h y
  cases hmove with
  | insert d p m => exact hy
  | remove x fr m hx =>
      have hcount : (gone [(.removed x : Event ι D)]).count y = if some x = some y then 1 else 0 := by
        simp [gone, List.count_cons]
      rw [Pinned.removals_remove, hy, gone_append, List.count_append, hcount]
      exact Nat.add_right_comm _ _ _
  | @advance _ i task task' op es m hruns hstart hop safe hreply =>
      have hreply' := Task.removals_reply hop hreply y
      rw [claimed_of_runs hruns, hy] at hreply'
      have hcount := countAt_update (fun i => (s.task i).claimed) i task'.claimed (some y)
      have hclaimed : (fun j => (Function.update s.task i task' j).claimed) =
          Function.update (fun j => (s.task j).claimed) i task'.claimed := by
        funext j
        exact Function.apply_update (fun _ t => Task.claimed t) s.task i task' j
      simp only [hclaimed]
      rw [gone_append, List.count_append]
      omega

/-- A step that marks a node for the first time keeps the removals apart. -/
theorem Inv.removed_nodup (h : s.Inv a) (hmove : s.Move a act t b) (hguard : act.MarksOnce s)
    (honce : (a.removed.map Prod.fst).Nodup) : (b.removed.map Prod.fst).Nodup := by
  have hremove : ∀ x fr, x ∈ a.order → act.op s = some (.remove x fr) →
      ((a.remove x fr).removed.map Prod.fst).Nodup := by
    intro x fr hx hop
    simp only [Action.MarksOnce, hop] at hguard
    obtain ⟨p, hp⟩ := h.ok.exists_data hx
    rw [Shape.isDeleted_eq h.refines (Pinned.core_eq hx hp)] at hguard
    have hmarked : a.marked x = false := hguard
    rw [Pinned.remove, Pinned.removed_collect, List.map_cons, List.nodup_cons]
    exact ⟨of_decide_eq_false hmarked, honce⟩
  cases hmove with
  | insert d p m => exact honce
  | remove x fr m hx => exact hremove x fr hx rfl
  | @advance _ i task task' op es m hruns hstart hop safe hreply =>
      have hact := (op_of_runs hruns).trans hop
      cases op with
      | insert | read => exact honce
      | walk d c => simpa [Op.apply, Pinned.walk] using honce
      | leave x => simpa [Op.apply] using honce
      | remove x fr => exact hremove x fr safe hact

end Sys

variable [DecidableEq ι] [DecidableEq D] [Fintype ι]

/-- In a run in which no node is removed twice, each node is taken once in every state. -/
theorem taken_once (as : List (Action ι D F))
    (hvalid : (clients ι D F).Valid (clients ι D F).init as)
    (hguard : (clients ι D F).AllSteps (fun s act => act.MarksOnce s) (clients ι D F).init as) :
    (∃ t, (clients ι D F).exec (clients ι D F).init as = some t) ∧
      (clients ι D F).AllStates TakenOnce (clients ι D F).init as := by
  have hkeep : ∀ s act, (∃ a, Sys.Inv s a ∧ s.Accounts a ∧ (a.removed.map Prod.fst).Nodup) →
      (clients ι D F).enabled s act → act.MarksOnce s → ∃ t, (clients ι D F).step s act = some t ∧
        ∃ a, Sys.Inv t a ∧ t.Accounts a ∧ (a.removed.map Prod.fst).Nodup := by
    rintro s act ⟨a, hs, haccounts, honce⟩ henabled hmarks
    obtain ⟨t, b, hstep, hmove, ht⟩ := hs.step henabled
    exact ⟨t, hstep, b, ht, haccounts.move hmove, hs.removed_nodup hmove hmarks honce⟩
  have hinit : ∃ a, Sys.Inv (Sys.new : Sys ι D F) a ∧ (Sys.new : Sys ι D F).Accounts a ∧
      (a.removed.map Prod.fst).Nodup := ⟨Pinned.new, .new, .new, List.nodup_nil⟩
  obtain ⟨⟨t, hexec, -⟩, hall⟩ := Machine.run_invariant hkeep hinit hvalid hguard
  exact ⟨⟨t, hexec⟩, hall.mono fun s ⟨a, hs, haccounts, honce⟩ => haccounts.takenOnce hs honce⟩

/-- A `list_pop` and a `list_shift` at the same time, then a `list_delete_data`. -/
def inTurn : List (Action Bool ℕ ℕ) :=
  [.insert .fwd 7, .insert .fwd 9, .insert .fwd 8, .call false (.take .bwd),
    .call true (.take .fwd), .resume false, .resume true, .resume false, .resume true,
    .resume false, .resume true, .call false (.deleteData 9), .resume false, .resume false,
    .resume false]

theorem inTurn_takenOnce :
    (∃ t, (clients Bool ℕ ℕ).exec (clients Bool ℕ ℕ).init inTurn = some t) ∧
      (clients Bool ℕ ℕ).AllStates TakenOnce (clients Bool ℕ ℕ).init inTurn :=
  taken_once inTurn (by decide) (by decide)

/-- Two calls of `list_pop` that find the same node before one of them removes it. -/
def twoPops : List (Action Bool ℕ ℕ) :=
  [.insert .fwd 7, .call false (.take .bwd), .call true (.take .bwd), .resume false,
    .resume false, .resume false, .resume true, .resume true, .resume true]

/-- Both return the node, and afterwards the empty list has 2 ^ 64 - 1 items. -/
theorem twoPops_not_takenOnce :
    (clients Bool ℕ ℕ).Valid (clients Bool ℕ ℕ).init twoPops ∧
      ¬ (clients Bool ℕ ℕ).AllStates TakenOnce (clients Bool ℕ ℕ).init twoPops ∧
      ((clients Bool ℕ ℕ).exec (clients Bool ℕ ℕ).init twoPops).map
        (fun t => (t.trace, contents .fwd t.mem, listItems t.mem)) =
          some ([.took false 0 7, .took true 0 7], [], BitVec.allOnes 64) := by
  decide

end ThreeW3.LinkedList
