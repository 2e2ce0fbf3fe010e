/-
# The unmarked nodes

Walks, departures and collections move pins and drop marked nodes, but the unmarked
nodes of a pinned sequence stay in their order. Only an insertion adds to them and
only a removal takes one away.
-/

import Mathlib.Data.Option.Basic
import ThreeW3.LinkedList.Walk

namespace ThreeW3.LinkedList.Pinned

open ThreeW3.Lib

universe u v
variable {D : Type u} {F : Type v}

/-- The unmarked nodes in order. -/
def live (a : Pinned D F) : List ℕ := a.order.filter fun x => !a.marked x

/-- The unmarked nodes that a walk has before it. -/
def pending (d : Dir) (c : Ptr) (a : Pinned D F) : List ℕ :=
  (a.after d c).filter fun x => !a.marked x

variable {a : Pinned D F} {x y : ℕ} {c w : Ptr} {d : Dir} {p : D} {fr : Option F}

theorem mem_live : x ∈ a.live ↔ x ∈ a.order ∧ a.marked x = false := by
  simp [live]

theorem pending_none : a.pending d none = d.along a.live := Dir.filter_along d _ _

/-- A walk goes to the first node that it has before it. -/
theorem following_eq : a.following d c = (a.pending d c).head? := List.head?_filter.symm

theorem Ok.live_nodup (h : a.Ok) : a.live.Nodup := h.nodup.filter _

theorem Ok.exists_data_live (h : a.Ok) (hx : x ∈ a.live) : ∃ p, a.inserted[x]? = some p :=
  h.exists_data (mem_live.mp hx).1

theorem live_insert (ok : a.Ok) : (a.insert d p).live = d.append a.live a.inserted.length := by
  have hfresh : a.marked a.inserted.length = false := ok.fresh.1
  change (d.append a.order a.inserted.length).filter (fun x => !a.marked x) = _
  cases d <;> simp [Dir.append, live, hfresh]

/-- A marked node that leaves was not among them. -/
theorem live_collect : (a.collect x).live = a.live := by
  unfold collect
  split_ifs with hleave
  · rw [live, live, List.filter_filter]
    apply List.filter_congr
    intro y _
    by_cases hyx : y = x
    · simp [hyx, hleave.1]
    · simp [hyx, marked]
  · rfl

theorem live_pin : (a.pin c).live = a.live := by
  cases c <;> rfl

theorem live_unpin : (a.unpin c).live = a.live := by
  cases c with
  | none => rfl
  | some x => exact live_collect

theorem live_walk : (a.walk d c).2.live = a.live := live_unpin.trans live_pin

theorem live_remove : (a.remove x fr).live = a.live.filter (· ≠ x) := by
  rw [remove, live_collect, live, live, List.filter_filter]
  apply List.filter_congr
  intro y _
  by_cases hyx : y = x
  · simp [hyx, marked]
  · simp [hyx, marked]

/-! ## What a walk has before it -/

theorem pending_following (ok : a.Ok) (hc : ∀ y ∈ c, y ∈ a.order)
    (hx : a.following d c = some x) : a.pending d c = x :: a.pending d (some x) := by
  obtain ⟨m, hafter, hm⟩ := after_following ok hc hx
  have hskip : m.filter (fun y => !a.marked y) = [] := by
    rw [List.filter_eq_nil_iff]
    intro y hy
    simp [hm y hy]
  rw [pending, hafter, List.filter_append, hskip, List.nil_append, List.filter_cons_of_pos]
  · rfl
  · simp [(mem_of_following hx).2]

theorem pending_pin : (a.pin w).pending d c = a.pending d c := by
  simp [pending]

theorem pending_collect (hnodup : a.order.Nodup) (hc : ∀ y ∈ c, y ∈ a.order) (hcx : c ≠ some x) :
    (a.collect x).pending d c = a.pending d c := by
  rw [pending, pending, after_collect hnodup hc hcx]
  split_ifs with hleave
  · rw [List.filter_filter]
    apply List.filter_congr
    intro y _
    by_cases hyx : y = x
    · simp [hyx, hleave.1]
    · simp [hyx]
  · simp

theorem pending_unpin (hnodup : a.order.Nodup) (hc : ∀ y ∈ c, y ∈ a.order)
    (hcw : ∀ x ∈ w, c ≠ some x) : (a.unpin w).pending d c = a.pending d c := by
  cases w with
  | none => rfl
  | some x => exact pending_collect (a := { a with pins := _ }) hnodup hc (hcw x rfl)

theorem following_ne (ok : a.Ok) (hc : ∀ y ∈ c, y ∈ a.order) (hx : a.following d c = some x) :
    c ≠ some x :=
  fun heq => notMem_after ok.nodup hc heq (List.mem_of_find?_eq_some hx)

/-- A walk takes one node from what it has before it. -/
theorem pending_walk (ok : a.Ok) (hc : ∀ y ∈ c, 0 < a.pins y) (hx : a.following d c = some x) :
    a.pending d c = x :: (a.walk d c).2.pending d (some x) := by
  have hcmem : ∀ y ∈ c, y ∈ a.order := fun y hy => ok.mem_of_pinned (hc y hy)
  have hxmem : ∀ y ∈ some x, y ∈ (a.pin (some x)).order := by
    rintro y ⟨⟩
    exact (mem_of_following hx).1
  have hne : ∀ y ∈ c, some x ≠ some y := by
    rintro y hy ⟨⟩
    exact following_ne ok hcmem hx hy
  rw [pending_following ok hcmem hx, walk, hx, pending_unpin _ hxmem hne, pending_pin]
  exact ok.nodup

/-- The node under a walk is removed. -/
theorem pending_remove (ok : a.Ok) (hx : 0 < a.pins x) (fr : Option F) :
    (a.remove x fr).pending d (some x) = a.pending d (some x) := by
  have hxmem : ∀ y ∈ some x, y ∈ a.order := by
    rintro y ⟨⟩
    exact ok.mem_of_pinned hx
  have hremove : a.remove x fr = { a with removed := (x, fr) :: a.removed } :=
    collect_of_not fun hleave => Nat.ne_of_gt hx hleave.2
  have hafter : (a.remove x fr).after d (some x) = a.after d (some x) := by
    rw [hremove]
    rfl
  rw [pending, pending, hafter]
  apply List.filter_congr
  intro y hy
  have hyx : y ≠ x := by
    rintro rfl
    exact notMem_after ok.nodup hxmem rfl hy
  rw [marked_remove]
  simp [hyx]

/-! ## Numbers -/

/-- Where no node is removed twice, the removals are the nodes that have left and the
marked nodes that are still there. -/
theorem Ok.length_removed (h : a.Ok) (honce : (a.removed.map Prod.fst).Nodup) :
    a.live.length + a.removed.length = a.order.length + a.freed.length := by
  have hnodup : (a.freed ++ a.order.filter fun x => a.marked x).Nodup := by
    rw [List.nodup_append]
    refine ⟨h.freed_nodup, h.nodup.filter _, ?_⟩
    rintro x hx y hy rfl
    exact h.notMem_freed (List.mem_of_mem_filter hy) hx
  have hperm : (a.removed.map Prod.fst).Perm (a.freed ++ a.order.filter fun x => a.marked x) := by
    rw [List.perm_ext_iff_of_nodup honce hnodup]
    intro x
    have hmarked : x ∈ a.removed.map Prod.fst ↔ a.marked x = true := by simp [marked]
    rw [hmarked, List.mem_append, List.mem_filter]
    constructor
    · intro hx
      by_cases hfreed : x ∈ a.freed
      · exact .inl hfreed
      · exact .inr ⟨(h.mem_order x).mpr ⟨h.marked_lt x hx, hfreed⟩, hx⟩
    · rintro (hx | hx)
      · exact ((h.mem_freed x).mp hx).1
      · exact hx.2
  have hlength := hperm.length_eq
  rw [List.length_map, List.length_append] at hlength
  have hsplit := List.length_eq_length_filter_add (l := a.order) fun x => a.marked x
  rw [live]
  omega

/-! ## The data of the unmarked nodes -/

/-- The data in order. -/
def data (a : Pinned D F) : List D := a.live.filterMap (a.inserted[·]?)

theorem data_congr {b : Pinned D F} (hlive : b.live = a.live) (hinserted : b.inserted = a.inserted) :
    b.data = a.data := by
  rw [data, hlive, hinserted, data]

/-- Every unmarked node has data, so that a node and its data have the same place. -/
theorem Ok.map_data (h : a.Ok) : a.data.map some = a.live.map (a.inserted[·]?) := by
  have hall : ∀ l : List ℕ, (∀ x ∈ l, ∃ p, a.inserted[x]? = some p) →
      (l.filterMap (a.inserted[·]?)).map some = l.map (a.inserted[·]?) := by
    intro l hl
    induction l with
    | nil => rfl
    | cons x l ih =>
        obtain ⟨p, hp⟩ := hl x List.mem_cons_self
        rw [List.filterMap_cons_some hp, List.map_cons, List.map_cons, hp,
          ih fun y hy => hl y (List.mem_cons_of_mem _ hy)]
  exact hall a.live fun x hx => h.exists_data_live hx

theorem map_some_inj {l l' : List D} (h : l.map some = l'.map some) : l = l' :=
  List.map_injective_iff.mpr (Option.some_injective D) h

theorem data_insert (ok : a.Ok) : (a.insert d p).data = d.append a.data p := by
  have hold : ∀ x ∈ a.live, (a.insert d p).inserted[x]? = a.inserted[x]? :=
    fun x hx => List.getElem?_append_left (ok.lt (mem_live.mp hx).1)
  have hnew : (a.insert d p).inserted[a.inserted.length]? = some p := by simp [insert]
  have hdata : a.live.filterMap ((a.insert d p).inserted[·]?) = a.data :=
    List.filterMap_congr hold
  rw [data, live_insert ok]
  cases d <;> simp only [Dir.append, List.filterMap_append, List.filterMap_cons, hnew, hdata,
    List.filterMap_nil]

variable {b : Pinned D F}

/-- The first unmarked node goes. -/
theorem data_take (ok : a.Ok) (okb : b.Ok) (hx : a.following d none = some x)
    (hp : a.inserted[x]? = some p) (hlive : b.live = a.live.filter (· ≠ x))
    (hinserted : b.inserted = a.inserted) : d.along a.data = p :: d.along b.data := by
  have hmap : ∀ l : List D, (d.along l).map some = d.along (l.map some) := by
    intro l
    cases d <;> simp [Dir.along]
  have hmap' : ∀ l : List ℕ, d.along (l.map (a.inserted[·]?)) =
      (d.along l).map (a.inserted[·]?) := by
    intro l
    cases d <;> simp [Dir.along]
  have hfirst : d.along a.live = x :: d.along b.live := by
    have hpending := pending_none (a := a) (d := d)
    rw [following_eq, hpending] at hx
    obtain ⟨l, hl⟩ := List.head?_eq_some_iff.mp hx
    have hnodup := Dir.nodup_along (d := d).mpr ok.live_nodup
    rw [hl, List.nodup_cons] at hnodup
    rw [hlive, ← Dir.filter_along, hl, List.filter_cons_of_neg (by simp), List.filter_eq_self.mpr]
    intro y hy
    have hyx : y ≠ x := fun heq => hnodup.1 (heq ▸ hy)
    simpa using hyx
  apply map_some_inj
  rw [List.map_cons, hmap, hmap, ok.map_data, okb.map_data, hinserted, hmap', hmap', hfirst,
    List.map_cons, hp]

/-- A node goes from its place. -/
theorem data_remove (ok : a.Ok) (okb : b.Ok) (hlive : b.live = a.live.filter (· ≠ x))
    (hinserted : b.inserted = a.inserted) : b.data = a.data.eraseIdx (a.live.idxOf x) := by
  have herase : b.live = a.live.eraseIdx (a.live.idxOf x) := by
    rw [hlive, List.eraseIdx_idxOf_eq_erase, ok.live_nodup.erase_eq_filter]
    apply List.filter_congr
    intro y _
    by_cases hyx : y = x <;> simp [hyx]
  apply map_some_inj
  rw [okb.map_data, ← List.eraseIdx_map, ok.map_data, herase, hinserted, List.eraseIdx_map]

variable [DecidableEq D]

/-- All nodes with one value go. -/
theorem data_filter (ok : a.Ok) (okb : b.Ok)
    (hlive : b.live = a.live.filter fun x => ¬ a.inserted[x]? = some p)
    (hinserted : b.inserted = a.inserted) : b.data = a.data.filter (· ≠ p) := by
  have hfilter : (a.data.filter (· ≠ p)).map some =
      (a.data.map some).filter fun q => q ≠ some p := by
    rw [List.filter_map]
    congr 1
    apply List.filter_congr
    intro q _
    simp
  apply map_some_inj
  rw [okb.map_data, hfilter, ok.map_data, hlive, hinserted, List.filter_map]
  rfl

theorem count_data (ok : a.Ok) :
    a.data.count p = (a.live.filter fun x => a.inserted[x]? = some p).length := by
  have hcount : a.data.count p = (a.data.map some).countP fun q => q = some p := by
    rw [List.countP_map, List.count]
    apply List.countP_congr
    intro q _
    simp
  rw [hcount, ok.map_data, List.countP_map, List.countP_eq_length_filter]
  rfl

end ThreeW3.LinkedList.Pinned
