/-
# A sequence with pinned nodes

What the list is for, without links and counters. Nodes stand in a sequence and
iterators pin them. Removing a node marks it; a marked node leaves the sequence as
soon as nothing pins it. A walk moves its pin to the next unmarked node.
-/

import Mathlib.Logic.Function.Basic
import ThreeW3.Lib.Heap
import ThreeW3.Lib.Linked

namespace ThreeW3.LinkedList

open ThreeW3.Lib

universe u v
variable {D : Type u} {F : Type v}

/-- The data of all nodes ever inserted, the nodes in the sequence, the number of
pins on each, the removals so far (the last one first) with their release
functions, and the nodes that have left. Nodes are numbered as they come. -/
structure Pinned (D : Type u) (F : Type v) where
  inserted : List D
  order : List ℕ
  pins : ℕ → ℕ
  removed : List (ℕ × Option F)
  freed : List ℕ

namespace Pinned

/-- The empty sequence. -/
def new : Pinned D F := ⟨[], [], fun _ => 0, [], []⟩

/-- The node was removed. -/
def marked (a : Pinned D F) (x : ℕ) : Bool := decide (x ∈ a.removed.map Prod.fst)

/-- How often it was removed. -/
def removals (a : Pinned D F) (x : ℕ) : ℕ := (a.removed.map Prod.fst).count x

/-- The release function of its last removal. -/
def release (a : Pinned D F) (x : ℕ) : Option F := (a.removed.lookup x).join

/-- The calls of release functions: one for each node that has left and has one. -/
def released (a : Pinned D F) : List (ℕ × F × D) :=
  a.freed.filterMap fun x => (a.release x).bind fun f => a.inserted[x]?.map fun p => (x, f, p)

/-- A new node, last in this direction. -/
def insert (d : Dir) (p : D) (a : Pinned D F) : Pinned D F :=
  { a with inserted := a.inserted ++ [p], order := d.append a.order a.inserted.length }

/-- An iterator comes to a node. -/
def pin (c : Ptr) (a : Pinned D F) : Pinned D F :=
  match c with
  | none => a
  | some x => { a with pins := Function.update a.pins x (a.pins x + 1) }

/-- A marked node without pins leaves. -/
def collect (x : ℕ) (a : Pinned D F) : Pinned D F :=
  if a.marked x ∧ a.pins x = 0 then
    { a with order := a.order.filter (· ≠ x), freed := a.freed ++ [x] }
  else a

/-- An iterator goes from a node. -/
def unpin (c : Ptr) (a : Pinned D F) : Pinned D F :=
  match c with
  | none => a
  | some x => collect x { a with pins := Function.update a.pins x (a.pins x - 1) }

/-- A removal. -/
def remove (x : ℕ) (fr : Option F) (a : Pinned D F) : Pinned D F :=
  collect x { a with removed := (x, fr) :: a.removed }

/-- The nodes that a walk in this direction has before it. -/
def after (d : Dir) (c : Ptr) (a : Pinned D F) : List ℕ :=
  match c with
  | none => d.along a.order
  | some x => ((d.along a.order).dropWhile (· ≠ x)).tail

/-- The next unmarked node. -/
def following (d : Dir) (c : Ptr) (a : Pinned D F) : Ptr := (a.after d c).find? fun x => !a.marked x

/-- A walk moves its pin to the next unmarked node. -/
def walk (d : Dir) (c : Ptr) (a : Pinned D F) : Ptr × Pinned D F :=
  (a.following d c, (a.pin (a.following d c)).unpin c)

/-! ## Sequences in order -/

/-- The nodes in the sequence are those that came and have not left; those that
have left are the marked ones without pins. -/
structure Ok (a : Pinned D F) : Prop where
  nodup : a.order.Nodup
  mem_order : ∀ x, x ∈ a.order ↔ x < a.inserted.length ∧ x ∉ a.freed
  mem_freed : ∀ x, x ∈ a.freed ↔ a.marked x = true ∧ a.pins x = 0
  freed_nodup : a.freed.Nodup
  marked_lt : ∀ x, a.marked x = true → x < a.inserted.length
  pinned_lt : ∀ x, 0 < a.pins x → x < a.inserted.length

variable {a : Pinned D F} {x y : ℕ} {c : Ptr} {d : Dir}

@[simp] theorem removals_pos : 0 < a.removals x ↔ a.marked x = true := by
  simp [removals, marked, List.count_pos_iff]

theorem removals_eq_zero : a.removals x = 0 ↔ a.marked x = false := by
  rw [← Bool.not_eq_true, ← removals_pos]
  omega

@[simp] theorem marked_pin : (a.pin c).marked x = a.marked x := by
  cases c <;> rfl

@[simp] theorem marked_collect : (a.collect y).marked x = a.marked x := by
  unfold collect
  split_ifs <;> rfl

@[simp] theorem marked_unpin : (a.unpin c).marked x = a.marked x := by
  cases c with
  | none => rfl
  | some y => exact marked_collect

theorem marked_remove {fr : Option F} :
    (a.remove y fr).marked x = (decide (x = y) || a.marked x) := by
  rw [remove, marked_collect]
  simp only [marked, List.map_cons, List.mem_cons, Bool.decide_or]

namespace Ok

theorem new : Ok (new : Pinned D F) where
  nodup := List.nodup_nil
  mem_order := by simp [Pinned.new]
  mem_freed := by simp [Pinned.new, marked]
  freed_nodup := List.nodup_nil
  marked_lt := by simp [Pinned.new, marked]
  pinned_lt := by simp [Pinned.new]

theorem lt (h : a.Ok) (hx : x ∈ a.order) : x < a.inserted.length := ((h.mem_order x).mp hx).1

theorem notMem_freed (h : a.Ok) (hx : x ∈ a.order) : x ∉ a.freed := ((h.mem_order x).mp hx).2

/-- A node with a pin is in the sequence. -/
theorem mem_of_pinned (h : a.Ok) (hx : 0 < a.pins x) : x ∈ a.order := by
  rw [h.mem_order]
  refine ⟨h.pinned_lt x hx, fun hfreed => ?_⟩
  have := ((h.mem_freed x).mp hfreed).2
  omega

/-- A marked node in the sequence has a pin. -/
theorem pinned_of_marked (h : a.Ok) (hx : x ∈ a.order) (hmarked : a.marked x = true) :
    0 < a.pins x := by
  by_contra hpins
  exact h.notMem_freed hx ((h.mem_freed x).mpr ⟨hmarked, by omega⟩)

theorem insert (h : a.Ok) (d : Dir) (p : D) : (a.insert d p).Ok := by
  have hfresh : a.inserted.length ∉ a.order := fun hmem => Nat.lt_irrefl _ (h.lt hmem)
  have hfreed : a.inserted.length ∉ a.freed := by
    intro hmem
    exact Nat.lt_irrefl _ (h.marked_lt _ ((h.mem_freed _).mp hmem).1)
  refine ⟨Dir.nodup_append h.nodup hfresh, fun x => ?_, h.mem_freed, h.freed_nodup, fun x hx => ?_,
    fun x hx => ?_⟩
  · simp only [Pinned.insert, Dir.mem_append, h.mem_order, List.length_append,
      List.length_singleton]
    constructor
    · rintro (⟨hlt, hnot⟩ | rfl)
      · exact ⟨by omega, hnot⟩
      · exact ⟨by omega, hfreed⟩
    · rintro ⟨hlt, hnot⟩
      by_cases heq : x = a.inserted.length
      · exact .inr heq
      · exact .inl ⟨by omega, hnot⟩
  · have := h.marked_lt x hx
    simp only [Pinned.insert, List.length_append, List.length_singleton]
    omega
  · have := h.pinned_lt x hx
    simp only [Pinned.insert, List.length_append, List.length_singleton]
    omega

theorem pin (h : a.Ok) (hc : ∀ x ∈ c, x ∈ a.order) : (a.pin c).Ok := by
  cases c with
  | none => exact h
  | some x =>
      have hx := hc x rfl
      refine ⟨h.nodup, h.mem_order, fun y => ?_, h.freed_nodup, h.marked_lt, fun y hy => ?_⟩
      · by_cases hyx : y = x
        · subst hyx
          simpa [Pinned.pin] using h.notMem_freed hx
        · rw [marked_pin]
          simpa [Pinned.pin, hyx] using h.mem_freed y
      · by_cases hyx : y = x
        · subst hyx
          exact h.lt hx
        · exact h.pinned_lt y (by simpa [Pinned.pin, hyx] using hy)

/-- Collecting a node restores the order where only this node may be out of it. -/
theorem collect_of (hnodup : a.order.Nodup)
    (horder : ∀ x, x ∈ a.order ↔ x < a.inserted.length ∧ x ∉ a.freed)
    (hfreed : ∀ y, y ∈ a.freed → a.marked y = true ∧ a.pins y = 0)
    (hothers : ∀ y, y ≠ x → a.marked y = true ∧ a.pins y = 0 → y ∈ a.freed)
    (hfreedNodup : a.freed.Nodup) (hmarked : ∀ x, a.marked x = true → x < a.inserted.length)
    (hpinned : ∀ x, 0 < a.pins x → x < a.inserted.length) (hx : x ∈ a.order) :
    (a.collect x).Ok := by
  have hnot := ((horder x).mp hx).2
  unfold collect
  split_ifs with hleave
  · refine ⟨hnodup.filter _, fun y => ?_, fun y => ?_, ?_, hmarked, hpinned⟩
    · simp only [List.mem_filter, horder, List.mem_append, List.mem_singleton, not_or,
        decide_eq_true_eq, and_assoc]
    · simp only [List.mem_append, List.mem_singleton]
      constructor
      · rintro (hy | rfl)
        · exact hfreed y hy
        · exact hleave
      · intro hy
        by_cases hyx : y = x
        · exact .inr hyx
        · exact .inl (hothers y hyx hy)
    · rw [List.nodup_append]
      refine ⟨hfreedNodup, List.nodup_singleton x, ?_⟩
      rintro y hy z hz rfl
      exact hnot (List.mem_singleton.mp hz ▸ hy)
  · refine ⟨hnodup, horder, fun y => ⟨hfreed y, fun hy => ?_⟩, hfreedNodup, hmarked, hpinned⟩
    by_cases hyx : y = x
    · exact absurd (hyx ▸ hy) hleave
    · exact hothers y hyx hy

theorem unpin (h : a.Ok) (hc : ∀ x ∈ c, 0 < a.pins x) : (a.unpin c).Ok := by
  cases c with
  | none => exact h
  | some x =>
      have hx := hc x rfl
      have hmem := h.mem_of_pinned hx
      let b : Pinned D F := { a with pins := Function.update a.pins x (a.pins x - 1) }
      have hb : ∀ y, y ≠ x → b.pins y = a.pins y := fun y hyx => Function.update_of_ne hyx _ _
      refine collect_of (a := b) h.nodup h.mem_order ?_ ?_ h.freed_nodup h.marked_lt ?_ hmem
      · intro y hy
        rw [hb y fun heq => h.notMem_freed hmem (heq ▸ hy)]
        exact (h.mem_freed y).mp hy
      · intro y hyx hy
        rw [hb y hyx] at hy
        exact (h.mem_freed y).mpr hy
      · intro y hy
        by_cases hyx : y = x
        · exact hyx ▸ h.lt hmem
        · exact h.pinned_lt y (hb y hyx ▸ hy)

theorem remove (h : a.Ok) (hx : x ∈ a.order) (fr : Option F) : (a.remove x fr).Ok := by
  let b : Pinned D F := { a with removed := (x, fr) :: a.removed }
  have hb : ∀ y, y ≠ x → b.marked y = a.marked y := by
    intro y hyx
    simp [b, marked, hyx]
  refine collect_of (a := b) h.nodup h.mem_order ?_ ?_ h.freed_nodup ?_ h.pinned_lt hx
  · intro y hy
    rw [hb y fun heq => h.notMem_freed hx (heq ▸ hy)]
    exact (h.mem_freed y).mp hy
  · intro y hyx hy
    rw [hb y hyx] at hy
    exact (h.mem_freed y).mpr hy
  · intro y hy
    by_cases hyx : y = x
    · exact hyx ▸ h.lt hx
    · exact h.marked_lt y (hb y hyx ▸ hy)

end Ok

/-! ## Walks -/

theorem mem_of_mem_after (hy : y ∈ a.after d c) : y ∈ a.order := by
  cases c with
  | none => exact Dir.mem_along.mp hy
  | some x =>
      exact Dir.mem_along.mp ((List.dropWhile_sublist _).subset (List.mem_of_mem_tail hy))

theorem mem_of_following (hy : a.following d c = some y) : y ∈ a.order ∧ a.marked y = false := by
  refine ⟨mem_of_mem_after (List.mem_of_find?_eq_some hy), ?_⟩
  simpa using List.find?_some hy

/-- What a walk has before it, by the place of its node. -/
theorem after_eq {l₁ l₂ : List ℕ} (hnodup : a.order.Nodup) (hl : d.along a.order = l₁ ++ x :: l₂) :
    a.after d (some x) = l₂ := by
  have hnodup' : (l₁ ++ x :: l₂).Nodup := hl ▸ Dir.nodup_along.mpr hnodup
  have h₁ : ∀ y ∈ l₁, decide (y ≠ x) = true := by
    intro y hy
    have : y ≠ x := fun heq =>
      List.disjoint_of_nodup_append hnodup' hy (heq ▸ List.mem_cons_self)
    simpa using this
  rw [after, hl, List.dropWhile_append_of_pos h₁]
  simp

namespace Ok

/-- A pin moves to a node of the sequence. -/
theorem move {w : Ptr} (h : a.Ok) (hc : ∀ x ∈ c, 0 < a.pins x) (hw : ∀ x ∈ w, x ∈ a.order) :
    ((a.pin w).unpin c).Ok := by
  apply (h.pin hw).unpin
  intro x hx
  have hpos := hc x hx
  cases w with
  | none => exact hpos
  | some y =>
      by_cases hxy : x = y
      · subst hxy
        simp [Pinned.pin]
      · simpa [Pinned.pin, hxy] using hpos

theorem walk (h : a.Ok) (hc : ∀ x ∈ c, 0 < a.pins x) (d : Dir) : (a.walk d c).2.Ok :=
  h.move hc fun _ hy => (mem_of_following hy).1

end Ok

end Pinned

end ThreeW3.LinkedList
