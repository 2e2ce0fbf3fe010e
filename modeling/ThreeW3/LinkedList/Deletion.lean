/-
# A deletion among others

What a call of `list_delete_data` has before it while other clients change the list.
Their steps take no unmarked node from it, and the call passes no node with its data
without removing it.
-/

import ThreeW3.LinkedList.Live
import ThreeW3.LinkedList.Traversal

namespace ThreeW3.LinkedList

open ThreeW3.Lib

universe u v w
variable {D : Type u} {F : Type v} {ι : Type w} {a : Pinned D F} {x y : ℕ} {c : Ptr} {d : Dir} {p : D}

/-- A node that stays unmarked stays before an iterator, whatever others do. -/
theorem mem_pending_apply {op : Op D F} (ok : a.Ok) (hc : ∀ y ∈ c, y ∈ a.order)
    (hpinned : ∀ y ∈ c, 0 < (op.apply a).pins y) (hx : x ∈ a.pending d c)
    (hlive : x ∈ (op.apply a).live) : x ∈ (op.apply a).pending d c := by
  obtain ⟨hafter, -⟩ := List.mem_filter.mp hx
  have hwatch : Watch (fun y => decide (y = x)) d ((a.after d c).filter (· = x)) c [] a :=
    ⟨rfl, List.nodup_nil, by simp, by simp⟩
  have hnew : decide (a.inserted.length = x) = false := by
    have := ok.lt (Pinned.mem_of_mem_after hafter)
    simp only [decide_eq_false_iff_not]
    omega
  have hkeep : ∀ y, decide (y = x) = true → y ∈ (op.apply a).order := by
    intro y hy
    rw [of_decide_eq_true hy]
    exact (Pinned.mem_live.mp hlive).1
  have hfilter := (hwatch.apply ok hc hpinned hnew hkeep).filter_eq
  have hmem : x ∈ (a.after d c).filter (· = x) := List.mem_filter.mpr ⟨hafter, by simp⟩
  rw [← hfilter] at hmem
  exact List.mem_filter.mpr ⟨List.mem_of_mem_filter hmem, by
    simp [(Pinned.mem_live.mp hlive).2]⟩

namespace Op

variable {op : Op D F}

/-- Data are added at the end only. -/
theorem inserted_apply (op : Op D F) (a : Pinned D F) :
    ∃ l, (op.apply a).inserted = a.inserted ++ l := by
  cases op with
  | insert d p => exact ⟨[p], rfl⟩
  | walk d c => exact ⟨[], by simp [apply, Pinned.walk]⟩
  | read x => exact ⟨[], (List.append_nil _).symm⟩
  | remove x fr => exact ⟨[], Pinned.inserted_collect.trans (List.append_nil _).symm⟩
  | leave x => exact ⟨[], Pinned.inserted_unpin.trans (List.append_nil _).symm⟩

theorem getElem?_apply (hx : a.inserted[x]? = some p) : (op.apply a).inserted[x]? = some p := by
  obtain ⟨l, hl⟩ := inserted_apply op a
  obtain ⟨hlt, -⟩ := List.getElem?_eq_some_iff.mp hx
  rw [hl, List.getElem?_append_left hlt, hx]

/-- Only an insertion adds an unmarked node. -/
theorem mem_live_of_apply (ok : a.Ok) (hx : x ∈ (op.apply a).live) :
    x ∈ a.live ∨ ∃ d p, op = insert d p ∧ x = a.inserted.length := by
  cases op with
  | insert d p =>
      rw [apply, Pinned.live_insert ok, Dir.mem_append] at hx
      exact hx.imp_right fun heq => ⟨d, p, rfl, heq⟩
  | walk d c => exact .inl (Pinned.live_walk (a := a) ▸ hx)
  | read y => exact .inl hx
  | remove y fr =>
      rw [apply, Pinned.live_remove] at hx
      exact .inl (List.mem_of_mem_filter hx)
  | leave y => exact .inl (Pinned.live_unpin (a := a) ▸ hx)

/-- An iterator comes only to unmarked nodes. -/
theorem mem_live_of_lands (hx : op.lands (op.answer a) c = some x) : c = some x ∨ x ∈ a.live := by
  cases op with
  | walk d c' => exact .inr (Pinned.mem_live.mpr (Pinned.mem_of_following hx))
  | leave y => cases hx
  | insert | read | remove => exact .inl hx

end Op

/-- The unmarked nodes that a call of `list_delete_data` has not passed. -/
def ahead (a : Pinned D F) : Task D → List ℕ
  | .deleting _ c _ => a.pending .fwd c
  | .matching _ y _ => y :: a.pending .fwd (some y)
  | .removing _ y _ => y :: a.pending .fwd (some y)
  | _ => []

/-- A call of `list_delete_data`, or its end. -/
inductive Deleting (p : D) : Task D → Prop
  | ended : Deleting p (.walking none)
  | deleting (c : Ptr) (n : ℕ) : Deleting p (.deleting p c n)
  | matching (y n : ℕ) : Deleting p (.matching p y n)
  | removing (y n : ℕ) : Deleting p (.removing p y n)

theorem Deleting.isSome_op {t : Task D} (h : Deleting p t) (hbusy : t ≠ .walking none) :
    (t.op (F := F)).isSome = true := by
  cases h with
  | ended => exact absurd rfl hbusy
  | deleting | matching | removing => rfl

theorem mem_ahead_apply {op : Op D F} {t : Task D} (ok : a.Ok) (hdeleting : Deleting p t)
    (hpins : ∀ y ∈ t.pinned, 0 < a.pins y) (hpinned : ∀ y ∈ t.pinned, 0 < (op.apply a).pins y)
    (hx : x ∈ ahead a t) (hlive : x ∈ (op.apply a).live) : x ∈ ahead (op.apply a) t := by
  have hmem : ∀ y ∈ t.pinned, y ∈ a.order := fun y hy => ok.mem_of_pinned (hpins y hy)
  cases hdeleting with
  | ended => exact hx
  | deleting c n => exact mem_pending_apply ok hmem hpinned hx hlive
  | matching y n | removing y n =>
      rcases List.mem_cons.mp hx with rfl | hx
      · exact List.mem_cons_self
      · exact List.mem_cons_of_mem _ (mem_pending_apply ok hmem hpinned hx hlive)

/-- `list_delete_data` passes no node with its data without removing it. -/
theorem Deleting.reply [DecidableEq D] {op : Op D F} {i : ι} {t t' : Task D}
    {es : List (Event ι D)} (hdeleting : Deleting p t) (ok : a.Ok)
    (hpins : ∀ y ∈ t.pinned, 0 < a.pins y) (hop : t.op = some op)
    (hreply : t.reply i (op.answer a) = some (t', es)) :
    Deleting p t' ∧ ∀ x ∈ ahead a t, x ∈ (op.apply a).live → a.inserted[x]? = some p →
      x ∈ ahead (op.apply a) t' := by
  cases hdeleting with
  | ended => cases hop
  | deleting c n =>
      cases hop
      cases hx : a.following .fwd c with
      | none =>
          simp only [Task.reply, Op.answer, hx] at hreply
          cases hreply
          have hnone : a.pending .fwd c = [] := by
            rwa [Pinned.following_eq, List.head?_eq_none_iff] at hx
          refine ⟨.ended, fun x hx => ?_⟩
          rw [ahead, hnone] at hx
          cases hx
      | some y =>
          simp only [Task.reply, Op.answer, hx] at hreply
          cases hreply
          refine ⟨.matching y n, fun x hmem _ _ => ?_⟩
          have hpending := Pinned.pending_walk ok (c := c) hpins hx
          rw [ahead, hpending] at hmem
          exact hmem
  | matching y n =>
      cases hop
      obtain ⟨q, hq, heq⟩ := Option.map_eq_some_iff.mp hreply
      have hq : a.inserted[y]? = some q := hq
      cases heq
      by_cases hpq : p = q
      · rw [if_pos hpq]
        exact ⟨.removing y n, fun x hx _ _ => hx⟩
      · rw [if_neg hpq]
        refine ⟨.deleting (some y) n, fun x hx _ hxp => ?_⟩
        rcases List.mem_cons.mp hx with rfl | hx
        · exact absurd (Option.some.inj (hxp.symm.trans hq)) hpq
        · exact hx
  | removing y n =>
      cases hop
      cases hreply
      refine ⟨.deleting (some y) (n + 1), fun x hx hlive _ => ?_⟩
      change x ∈ (a.remove y none).pending .fwd (some y)
      rw [Pinned.pending_remove ok (hpins y rfl) none]
      rcases List.mem_cons.mp hx with rfl | hx
      · have hlive : x ∈ (a.remove x none).live := hlive
        simp [Pinned.live_remove] at hlive
      · exact hx

/-- What a step of a client in a call does. -/
theorem Sys.Move.own [DecidableEq ι] [DecidableEq D] {s t : Sys ι D F} {b : Pinned D F}
    {act : Action ι D F} {i : ι} {task : Task D} (h : s.Move a act t b)
    (hruns : act.runs s = some (i, task)) :
    ∃ op task' es, task.op = some op ∧ task.reply i (op.answer a) = some (task', es) ∧
      b = op.apply a ∧ t.task = Function.update s.task i task' := by
  cases h with
  | insert | remove => cases hruns
  | @advance _ j task₁ task' op es m hruns' hstart hop safe hreply =>
      obtain ⟨rfl, rfl⟩ := Prod.mk.inj (Option.some.inj (hruns'.symm.trans hruns))
      exact ⟨op, task', es, hop, hreply, rfl, rfl⟩

end ThreeW3.LinkedList
