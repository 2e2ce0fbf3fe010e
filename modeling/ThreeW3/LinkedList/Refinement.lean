/-
# The list refines the pinned sequence

In a linked list `ic` counts the pins of a node, and `rc` is one more than the
pins, less one for each removal. With this the two tests of `list_deref` say
together that a node is marked and has no pins, and each locked section of the
list is one step of the pinned sequence.
-/

import Mathlib.Tactic.SplitIfs
import ThreeW3.LinkedList.Pinned
import ThreeW3.LinkedList.Sections

namespace ThreeW3.LinkedList

open ThreeW3.Lib

universe u v
variable {D : Type u} {F : Type v}

namespace Pinned

/-- The fields of a node of the sequence. -/
def fields (a : Pinned D F) (x : ℕ) (p : D) : Core D F where
  data := p
  free := a.release x
  rc := 1 + a.pins x - a.removals x
  ic := a.pins x
  deleted := a.marked x

/-- The fields of all nodes of the sequence. -/
def core (a : Pinned D F) (x : ℕ) : Option (Core D F) :=
  if x ∈ a.order then a.inserted[x]?.map (a.fields x) else none

/-- The ledger. The counter `deleted` counts the removals, less the nodes that have
left. -/
def ledger (a : Pinned D F) : Ledger D F where
  items := BitVec.ofNat 64 a.order.length
  deleted := BitVec.ofNat 64 a.removed.length - BitVec.ofNat 64 a.freed.length
  fresh := a.inserted.length
  removed := a.removed
  freed := a.freed
  released := a.released

end Pinned

/-- The memory is that of the pinned sequence. -/
def Refines (m : State D F) (a : Pinned D F) : Prop := Shape m a.order a.core a.ledger

namespace Pinned

variable {a b : Pinned D F} {x y : ℕ} {c w : Ptr} {d : Dir} {p : D}

theorem core_of_notMem (hx : x ∉ a.order) : a.core x = none := if_neg hx

theorem core_of_mem (hx : x ∈ a.order) : a.core x = a.inserted[x]?.map (a.fields x) := if_pos hx

theorem Ok.exists_data (h : a.Ok) (hx : x ∈ a.order) : ∃ p, a.inserted[x]? = some p :=
  ⟨_, List.getElem?_eq_getElem (h.lt hx)⟩

theorem core_eq (hx : x ∈ a.order) (hp : a.inserted[x]? = some p) :
    a.core x = some (a.fields x p) := by
  rw [core_of_mem hx, hp, Option.map_some]

theorem mem_iff_core (h : a.Ok) (x : ℕ) : x ∈ a.order ↔ (a.core x).isSome = true := by
  constructor
  · intro hx
    obtain ⟨p, hp⟩ := h.exists_data hx
    rw [core_eq hx hp]
    rfl
  · intro hx
    by_contra hnot
    rw [core_of_notMem hnot] at hx
    cases hx

/-- The same fields where the order, the pins and the removals are the same. -/
theorem core_congr (horder : x ∈ a.order ↔ x ∈ b.order) (hdata : a.inserted[x]? = b.inserted[x]?)
    (hpins : a.pins x = b.pins x) (hremovals : a.removals x = b.removals x)
    (hrelease : a.release x = b.release x) : a.core x = b.core x := by
  have hmarked : a.marked x = b.marked x := by
    rw [Bool.eq_iff_iff, ← removals_pos, ← removals_pos, hremovals]
  have hfields : a.fields x = b.fields x := by
    funext p
    rw [fields, fields, hpins, hremovals, hrelease, hmarked]
  unfold core
  simp only [horder, hdata, hfields]

/-- Only the collected node changes. -/
theorem core_collect (hyx : y ≠ x) : (a.collect x).core y = a.core y := by
  unfold collect
  split_ifs
  · exact core_congr (by simp [hyx]) rfl rfl rfl rfl
  · rfl

/-- The fields of a node that loses a pin, one reference too many still counted. -/
theorem core_lower (hpins : 0 < a.pins x) (hx : x ∈ a.order) (hp : a.inserted[x]? = some p)
    (hb : b = { a with pins := Function.update a.pins x (a.pins x - 1) }) :
    (a.core x).map (fun c => { c with ic := c.ic - 1 }) =
      some { b.fields x p with rc := (b.fields x p).rc + 1 } := by
  subst hb
  rw [core_eq hx hp, Option.map_some]
  simp only [fields, removals, marked, release, Function.update_self, Option.some.injEq,
    Core.mk.injEq, true_and, and_true]
  omega

theorem length_filter_ne {l : List ℕ} (hnodup : l.Nodup) (hx : x ∈ l) :
    (l.filter (· ≠ x)).length + 1 = l.length := by
  have herase : l.filter (· ≠ x) = l.erase x := by
    rw [hnodup.erase_eq_filter]
    simp only [ne_eq, decide_not]
    rfl
  rw [herase, List.length_erase_of_mem hx]
  have := List.length_pos_of_mem hx
  omega

/-- The ledger after a marked node without pins has left. -/
theorem ledger_unlink (hnodup : a.order.Nodup) (hx : x ∈ a.order) (hp : a.inserted[x]? = some p)
    (hleave : a.marked x = true ∧ a.pins x = 0) (rc : ℤ) :
    a.ledger.unlink x { a.fields x p with rc := rc } = (a.collect x).ledger := by
  have hitems : BitVec.ofNat 64 a.order.length - 1 =
      BitVec.ofNat 64 (a.order.filter (· ≠ x)).length := by
    rw [← length_filter_ne hnodup hx, BitVec.ofNat_add]
    bv_omega
  have hdeleted : BitVec.ofNat 64 a.removed.length - BitVec.ofNat 64 a.freed.length - 1 =
      BitVec.ofNat 64 a.removed.length - BitVec.ofNat 64 (a.freed ++ [x]).length := by
    rw [List.length_append, List.length_singleton, BitVec.ofNat_add]
    bv_omega
  have hcollect : a.collect x =
      { a with order := a.order.filter (· ≠ x), freed := a.freed ++ [x] } := if_pos hleave
  have hreleased : (a.collect x).released =
      (a.ledger.unlink x { a.fields x p with rc := rc }).released := by
    have hfreed : (a.collect x).released = (a.freed ++ [x]).filterMap fun y =>
        (a.release y).bind fun f => a.inserted[y]?.map fun p => (y, f, p) := by
      rw [hcollect]
      rfl
    rw [hfreed, List.filterMap_append]
    cases hrelease : a.release x <;> simp [released, Ledger.unlink, ledger, fields, hrelease, hp]
  have horder : (a.collect x).order = a.order.filter (· ≠ x) := by rw [hcollect]
  have hgone : (a.collect x).freed = a.freed ++ [x] := by rw [hcollect]
  have hremoved : (a.collect x).removed = a.removed := by rw [hcollect]
  have hinserted : (a.collect x).inserted = a.inserted := by rw [hcollect]
  simp only [Ledger.unlink, ledger, fields, hleave.1, if_true, hitems, hdeleted, hreleased, horder,
    hgone, hremoved, hinserted]

/-- The calls of release functions depend on the nodes that have left only. -/
theorem released_congr (hfreed : a.freed = b.freed)
    (hrelease : ∀ y ∈ b.freed, a.release y = b.release y)
    (hdata : ∀ y ∈ b.freed, a.inserted[y]? = b.inserted[y]?) : a.released = b.released := by
  rw [released, released, hfreed]
  apply List.filterMap_congr
  intro y hy
  rw [hrelease y hy, hdata y hy]

/-- A node that was not removed has no release function. -/
theorem release_of_not_marked (hx : a.marked x = false) : a.release x = none := by
  have hlookup : a.removed.lookup x = none := by
    rw [List.lookup_eq_none_iff]
    intro q hq
    have hx : x ∉ a.removed.map Prod.fst := of_decide_eq_false hx
    simpa using fun heq : x = q.1 => hx (heq ▸ List.mem_map_of_mem hq)
  rw [release, hlookup]
  rfl

/-- A node that has not come is neither marked nor pinned. -/
theorem Ok.fresh (h : a.Ok) : a.marked a.inserted.length = false ∧ a.pins a.inserted.length = 0 := by
  constructor
  · rw [← Bool.not_eq_true]
    exact fun hmarked => Nat.lt_irrefl _ (h.marked_lt _ hmarked)
  · by_contra hpins
    exact Nat.lt_irrefl _ (h.pinned_lt _ (Nat.pos_of_ne_zero hpins))

/-- A node that stays leaves the ledger alone. -/
theorem collect_of_not (hstay : ¬ (a.marked x = true ∧ a.pins x = 0)) : a.collect x = a :=
  if_neg hstay

end Pinned

/-! ## Locked sections -/

namespace Refines

variable {m : State D F} {a b : Pinned D F} {κ : ℕ → Option (Core D F)} {x y : ℕ} {c : Ptr}
  {d : Dir} {p : D}

theorem new : Refines (listNew : State D F) Pinned.new :=
  ⟨Shape.new.linked, fun x => (Shape.new.core_eq x).trans rfl, Pinned.mem_iff_core .new, by
    simp [listNew, Pinned.ledger, Pinned.new, Pinned.released]⟩

/-- `list_deref` on a node with one reference too many collects it. Other nodes may
be in the middle of a change. -/
theorem deref (h : Shape m b.order κ b.ledger) (hnodup : b.order.Nodup) (hx : x ∈ b.order)
    (hp : b.inserted[x]? = some p)
    (hκ : κ x = some { b.fields x p with rc := (b.fields x p).rc + 1 }) :
    ∃ m', listDeref x m = some m' ∧
      Shape m' (b.collect x).order (Function.update κ x ((b.collect x).core x))
        (b.collect x).ledger := by
  by_cases hleave : b.marked x = true ∧ b.pins x = 0
  · have hpos : 0 < b.removals x := Pinned.removals_pos.mpr hleave.1
    obtain ⟨m', hderef, h'⟩ := h.deref_leave hκ
      (by simp only [Pinned.fields, hleave.2]; omega) (by simp [Pinned.fields, hleave.2])
    refine ⟨m', hderef, ?_⟩
    rw [Pinned.ledger_unlink hnodup hx hp hleave] at h'
    have hgone : x ∉ (b.collect x).order := by
      simp [Pinned.collect, if_pos hleave]
    rw [Pinned.core_of_notMem hgone]
    simpa only [Pinned.collect, if_pos hleave] using h'
  · have hstay : ¬ ((b.fields x p).rc + 1 - 1 ≤ 0 ∧ (b.fields x p).ic ≤ 0) := by
      rintro ⟨hrc, hic⟩
      simp only [Pinned.fields] at hrc hic
      exact hleave ⟨Pinned.removals_pos.mp (by omega), by omega⟩
    obtain ⟨m', hderef, h'⟩ := h.deref_stay hκ hstay
    refine ⟨m', hderef, ?_⟩
    rw [Pinned.collect_of_not hleave, Pinned.core_eq hx hp]
    simpa using h'

/-- After `list_deref` all other nodes are as they were. -/
theorem of_deref (h : Shape m (b.collect x).order (Function.update κ x ((b.collect x).core x))
    (b.collect x).ledger) (hκ : ∀ y, y ≠ x → κ y = b.core y) : Refines m (b.collect x) := by
  apply h.congr
  intro y
  by_cases hyx : y = x
  · simp [hyx]
  · rw [Function.update_of_ne hyx, hκ y hyx, Pinned.core_collect hyx]

/-- `list_push` and `list_unshift`. -/
theorem insert (h : Refines m a) (ok : a.Ok) (d : Dir) (p : D) :
    ∃ m', insert d p m = some m' ∧ Refines m' (a.insert d p) := by
  have hfresh : a.inserted.length ∉ a.order := fun hmem => Nat.lt_irrefl _ (ok.lt hmem)
  obtain ⟨m', hinsert, h'⟩ := Shape.insert h hfresh d p
  rw [show a.ledger.fresh = a.inserted.length from rfl] at h'
  obtain ⟨hmarked, hpins⟩ := ok.fresh
  have hdata : ∀ y, y < a.inserted.length → (a.insert d p).inserted[y]? = a.inserted[y]? :=
    fun y hy => List.getElem?_append_left hy
  refine ⟨m', hinsert, h'.linked, fun y => ?_, Pinned.mem_iff_core (ok.insert d p), ?_⟩
  · rw [h'.core_eq]
    by_cases hy : y = a.inserted.length
    · subst hy
      have hnew : (a.insert d p).inserted[a.inserted.length]? = some p := by simp [Pinned.insert]
      have hremovals : (a.insert d p).removals a.inserted.length = 0 :=
        Pinned.removals_eq_zero.mpr hmarked
      have hpins : (a.insert d p).pins a.inserted.length = 0 := hpins
      have hfields : (a.insert d p).fields a.inserted.length p = (nodeNew p).toCore := by
        have hrelease := Pinned.release_of_not_marked hmarked
        simp only [Pinned.fields, nodeNew, hremovals, hpins, Core.mk.injEq, true_and]
        exact ⟨hrelease, rfl, rfl, hmarked⟩
      rw [Function.update_self, Pinned.core_eq (by simp [Pinned.insert]) hnew, hfields]
    · rw [Function.update_of_ne hy]
      by_cases hmem : y ∈ a.order
      · apply Pinned.core_congr _ (hdata y (ok.lt hmem)).symm rfl rfl rfl
        simp [Pinned.insert, hmem]
      · rw [Pinned.core_of_notMem hmem, Pinned.core_of_notMem (by simp [Pinned.insert, hmem, hy])]
  · rw [h'.ledger_eq]
    have hreleased : (a.insert d p).released = a.released :=
      Pinned.released_congr rfl (fun _ _ => rfl) fun y hy =>
        hdata y (ok.marked_lt y ((ok.mem_freed y).mp hy).1)
    have hlength : (d.append a.order a.inserted.length).length = a.order.length + 1 := by
      cases d <;> simp [Dir.append]
    simp only [Pinned.ledger, hreleased]
    simp [Pinned.insert, hlength, BitVec.ofNat_add]

/-- `list_remove`. -/
theorem remove (h : Refines m a) (ok : a.Ok) (hx : x ∈ a.order) (fr : Option F) :
    ∃ m', listRemove x fr m = some m' ∧ Refines m' (a.remove x fr) := by
  obtain ⟨p, hp⟩ := ok.exists_data hx
  obtain ⟨m₁, hmod, h₁⟩ := Shape.modify h (p := some x) (by simpa using hx)
    fun c => { c with deleted := true, free := fr }
  let b : Pinned D F := { a with removed := (x, fr) :: a.removed }
  have hother : ∀ y, y ≠ x → b.removals y = a.removals y ∧ b.release y = a.release y := by
    intro y hyx
    constructor
    · simp [b, Pinned.removals, Ne.symm hyx]
    · have hbeq : (y == x) = false := by simpa using hyx
      simp [b, Pinned.release, List.lookup_cons, hbeq]
  have hκ : touch a.core (some x) (fun c => { c with deleted := true, free := fr }) x =
      some { b.fields x p with rc := (b.fields x p).rc + 1 } := by
    have hremovals : b.removals x = a.removals x + 1 := by simp [b, Pinned.removals]
    have hmarked : b.marked x = true := by simp [b, Pinned.marked]
    have hrelease : b.release x = fr := by simp [b, Pinned.release]
    rw [touch, if_pos rfl, Pinned.core_eq hx hp, Option.map_some]
    have hpins : b.pins x = a.pins x := rfl
    simp only [Pinned.fields, hpins, hremovals, hmarked, hrelease, Option.some.injEq,
      Core.mk.injEq, true_and, and_true]
    push_cast
    omega
  let m₂ : State D F :=
    { m₁ with deleted := m₁.deleted + 1, removed := (x, fr) :: m₁.removed }
  have h₂ : Shape m₂ b.order (touch a.core (some x) fun c => { c with deleted := true, free := fr })
      b.ledger := by
    refine ⟨h₁.linked, h₁.core_eq, h₁.mem_iff, ?_⟩
    have hreleased : b.released = a.released := by
      refine Pinned.released_congr (a := b) (b := a) rfl (fun y hy => ?_) fun _ _ => rfl
      exact (hother y fun heq => ok.notMem_freed hx (heq ▸ hy)).2
    have hdeleted : BitVec.ofNat 64 a.removed.length - BitVec.ofNat 64 a.freed.length + 1 =
        BitVec.ofNat 64 b.removed.length - BitVec.ofNat 64 b.freed.length := by
      simp only [b, List.length_cons, BitVec.ofNat_add]
      bv_omega
    calc m₂.toLedger = { m₁.toLedger with
            deleted := m₁.toLedger.deleted + 1, removed := (x, fr) :: m₁.toLedger.removed } := rfl
      _ = b.ledger := by
          rw [h₁.ledger_eq]
          simp only [Pinned.ledger, hreleased, hdeleted]
          rfl
  obtain ⟨m₃, hderef, h₃⟩ := deref h₂ ok.nodup hx hp hκ
  refine ⟨m₃, ?_, of_deref h₃ fun y hyx => ?_⟩
  · simp only [listRemove, hmod, Option.bind_eq_bind, Option.bind_some]
    exact hderef
  · rw [touch, if_neg (by simpa using Ne.symm hyx)]
    exact Pinned.core_congr Iff.rfl rfl rfl (hother y hyx).1.symm (hother y hyx).2.symm

/-- `list_unlock_deref`. -/
theorem unlockDeref (h : Refines m a) (ok : a.Ok) (hx : 0 < a.pins x) :
    ∃ m', listUnlockDeref x m = some m' ∧ Refines m' (a.unpin (some x)) := by
  have hmem := ok.mem_of_pinned hx
  obtain ⟨p, hp⟩ := ok.exists_data hmem
  obtain ⟨m₁, hmod, h₁⟩ := Shape.modify h (p := some x) (by simpa using hmem)
    fun c => { c with ic := c.ic - 1 }
  let b : Pinned D F := { a with pins := Function.update a.pins x (a.pins x - 1) }
  have hκ : touch a.core (some x) (fun c => { c with ic := c.ic - 1 }) x =
      some { b.fields x p with rc := (b.fields x p).rc + 1 } := by
    rw [touch, if_pos rfl]
    exact Pinned.core_lower hx hmem hp rfl
  obtain ⟨m₂, hderef, h₂⟩ := deref (b := b) h₁ ok.nodup hmem hp hκ
  refine ⟨m₂, ?_, of_deref h₂ fun y hyx => ?_⟩
  · simp only [listUnlockDeref, hmod, Option.bind_eq_bind, Option.bind_some, hderef]
  · rw [touch, if_neg (by simpa using Ne.symm hyx)]
    exact Pinned.core_congr Iff.rfl rfl (Function.update_of_ne hyx _ _).symm rfl rfl

end Refines

end ThreeW3.LinkedList
