/-
# Walks

`list_next` and `list_prev` go from node to node until they find one that is not
deleted. A deleted node on the way has a pin of its own, so coming to it and
leaving it again changes nothing, and the whole call moves one pin.
-/

import ThreeW3.LinkedList.Refinement

namespace ThreeW3.LinkedList

open ThreeW3.Lib

universe u v
variable {D : Type u} {F : Type v}

namespace Pinned

variable {a b : Pinned D F} {x y : ℕ} {c w z : Ptr} {d : Dir} {l : List ℕ}

/-- The sequence before a walk ends with the node where the walk stands. -/
theorem exists_before (hnodup : a.order.Nodup) (hc : ∀ x ∈ c, x ∈ a.order) (d : Dir) :
    ∃ l₁, d.along a.order = l₁ ++ a.after d c ∧ ∀ x ∈ c, ∃ l₀, l₁ = l₀ ++ [x] := by
  cases c with
  | none => exact ⟨[], rfl, by simp⟩
  | some x =>
      obtain ⟨l₁, l₂, hl⟩ := Linked.exists_split (hc x rfl) d
      refine ⟨l₁ ++ [x], ?_, ?_⟩
      · rw [after_eq hnodup hl, hl, List.append_assoc, List.singleton_append]
      · rintro y ⟨⟩
        exact ⟨l₁, rfl⟩

/-- The node to which a walk goes, and what it has before it then. -/
theorem after_following (ok : a.Ok) (hc : ∀ y ∈ c, y ∈ a.order) (hx : a.following d c = some x) :
    ∃ m, a.after d c = m ++ x :: a.after d (some x) ∧ ∀ y ∈ m, a.marked y = true := by
  obtain ⟨-, m₁, m₂, hafter, hm₁⟩ := List.find?_eq_some_iff_append.mp hx
  obtain ⟨l₁, hl, -⟩ := exists_before ok.nodup hc d
  have hbefore : a.after d (some x) = m₂ := by
    apply after_eq ok.nodup
    rw [hl, hafter, ← List.append_assoc]
  refine ⟨m₁, by rw [hafter, hbefore], fun y hy => ?_⟩
  simpa using hm₁ y hy

/-- A walk does not meet the node where it stands. -/
theorem notMem_after (hnodup : a.order.Nodup) (hc : ∀ x ∈ c, x ∈ a.order) (hx : x ∈ c) :
    x ∉ a.after d c := by
  obtain ⟨l₁, hl, hlast⟩ := exists_before hnodup hc d
  obtain ⟨l₀, rfl⟩ := hlast x hx
  have hnodup' := Dir.nodup_along (d := d).mpr hnodup
  rw [hl] at hnodup'
  exact fun hmem => List.disjoint_of_nodup_append hnodup' (by simp) hmem

@[simp] theorem order_pin : (a.pin c).order = a.order := by
  cases c <;> rfl

@[simp] theorem ledger_pin : (a.pin c).ledger = a.ledger := by
  cases c <;> rfl

@[simp] theorem inserted_pin : (a.pin c).inserted = a.inserted := by
  cases c <;> rfl

@[simp] theorem removals_pin : (a.pin c).removals x = a.removals x := by
  cases c <;> rfl

@[simp] theorem release_pin : (a.pin c).release x = a.release x := by
  cases c <;> rfl

theorem pins_pin_of_ne (hx : c ≠ some x) : (a.pin c).pins x = a.pins x := by
  cases c with
  | none => rfl
  | some y => exact Function.update_of_ne (fun heq => hx (by rw [heq])) _ _

theorem unpin_some : a.unpin (some x) =
    collect x { a with pins := Function.update a.pins x (a.pins x - 1) } := rfl

/-- Coming to a node raises both of its counters. -/
theorem core_pin (y : ℕ) :
    (a.pin c).core y = touch (touch a.core c listRef) c (fun c => { c with ic := c.ic + 1 }) y := by
  by_cases hy : c = some y
  · subst hy
    by_cases hmem : y ∈ a.order
    · have hpins : ((a.pin (some y)).pins y : ℤ) = a.pins y + 1 := by simp [pin]
      have hfields : (a.pin (some y)).fields y =
          (fun c => { c with ic := c.ic + 1 }) ∘ listRef ∘ a.fields y := by
        funext p
        simp only [Function.comp_apply, fields, listRef, hpins, removals_pin, release_pin,
          marked_pin, Core.mk.injEq, true_and, and_true]
        omega
      rw [core_of_mem (by simpa using hmem), touch, touch, if_pos rfl, if_pos rfl,
        core_of_mem hmem, inserted_pin, hfields, Option.map_map, Option.map_map]
      rfl
    · rw [core_of_notMem (by simpa using hmem), touch, touch, core_of_notMem hmem]
      simp
  · rw [touch, touch, if_neg hy, if_neg hy]
    exact core_congr (by simp) (by simp) (pins_pin_of_ne hy) (by simp) (by simp)

end Pinned

/-! ## One turn of the loop -/

namespace Refines

variable {m : State D F} {a b : Pinned D F} {x y : ℕ} {c z : Ptr} {d : Dir} {p : D}

/-- The list gives the first node of a walk. -/
theorem first_eq (h : Refines m a) (d : Dir) : m.first d = (a.after d none).head? :=
  h.linked.first_eq d

/-- The link of a node gives the next node of a walk. -/
theorem link_eq (h : Refines m a) (hnodup : a.order.Nodup) (hx : x ∈ a.order) (d : Dir) :
    m.link d x = (a.after d (some x)).head? := by
  obtain ⟨l₁, l₂, hl⟩ := Linked.exists_split hx d
  rw [h.linked.link_eq hl, Pinned.after_eq hnodup hl]

/-- Coming to a node from nowhere. -/
theorem advance_none (h : Refines m a) (d : Dir) :
    ∃ m', advance d none m = some ((a.after d none).head?, m') ∧
      Refines m' (a.pin (a.after d none).head?) := by
  have hmem : ∀ y ∈ (a.after d none).head?, y ∈ a.order :=
    fun y hy => Pinned.mem_of_mem_after (List.mem_of_head? hy)
  obtain ⟨m₁, hmod₁, h₁⟩ := Shape.modify h hmem listRef
  obtain ⟨m₂, hmod₂, h₂⟩ := h₁.modify hmem fun c => { c with ic := c.ic + 1 }
  refine ⟨m₂, ?_, ?_⟩
  · have hkeep₁ : m₁.first d = (a.after d none).head? := h₁.linked.first_eq d
    have hkeep₂ : m₂.first d = (a.after d none).head? := h₂.linked.first_eq d
    simp only [advance, h.first_eq d, hkeep₁, hkeep₂, hmod₁, hmod₂, Option.bind_eq_bind,
      Option.bind_some]
  · have h₃ := h₂.congr Pinned.core_pin
    rwa [Refines, Pinned.order_pin, Pinned.ledger_pin]

/-- Going from a node to the next one. -/
theorem advance_some (h : Refines m a) (ok : a.Ok) (hx : 0 < a.pins x) (d : Dir) :
    ∃ m', advance d (some x) m = some ((a.after d (some x)).head?, m') ∧
      Refines m' ((a.pin (a.after d (some x)).head?).unpin (some x)) := by
  have hxmem := ok.mem_of_pinned hx
  obtain ⟨p, hp⟩ := ok.exists_data hxmem
  obtain ⟨n, hn, _⟩ := Shape.exists_node h hxmem
  obtain ⟨z, hz⟩ : ∃ z, z = (a.after d (some x)).head? := ⟨_, rfl⟩
  have hfield : m.link d x = n.link d := Heap.field_of_load hn
  have hlink : n.link d = z := by rw [hz, ← h.link_eq ok.nodup hxmem, hfield]
  have hzmem : ∀ y ∈ z, y ∈ a.order := by
    rw [hz]
    exact fun y hy => Pinned.mem_of_mem_after (List.mem_of_head? hy)
  have hzx : z ≠ some x := by
    rintro rfl
    apply Pinned.notMem_after (c := some x) (d := d) ok.nodup (by simpa using hxmem) rfl
    exact List.mem_of_head? hz.symm
  -- up to `list_deref`, which finds the fields of a node that has lost its pin
  obtain ⟨m₁, hmod₁, h₁⟩ := Shape.modify h hzmem listRef
  obtain ⟨m₂, hmod₂, h₂⟩ := h₁.modify (p := some x) (by simpa using hxmem)
    fun c => { c with ic := c.ic - 1 }
  let b : Pinned D F :=
    { a.pin z with pins := Function.update (a.pin z).pins x ((a.pin z).pins x - 1) }
  have horder : b.order = a.order := Pinned.order_pin
  have hpins : (a.pin z).pins x = a.pins x := Pinned.pins_pin_of_ne hzx
  have hxb : (a.pin z).core x = a.core x :=
    Pinned.core_congr (by simp) (by simp) hpins (by simp) (by simp)
  have hκ : touch (touch a.core z listRef) (some x) (fun c => { c with ic := c.ic - 1 }) x =
      some { b.fields x p with rc := (b.fields x p).rc + 1 } := by
    rw [touch, if_pos rfl, touch, if_neg hzx, ← hxb]
    exact Pinned.core_lower (hpins ▸ hx) (by simpa using hxmem) (by simpa using hp) rfl
  have h₂' : Shape m₂ b.order
      (touch (touch a.core z listRef) (some x) fun c => { c with ic := c.ic - 1 }) b.ledger := by
    rw [horder, show b.ledger = a.ledger from Pinned.ledger_pin]
    exact h₂
  obtain ⟨m₃, hderef, h₃⟩ := deref h₂' (horder ▸ ok.nodup) (horder ▸ hxmem)
    (by simpa [b] using hp) hκ
  -- and the new node
  have hzmem' : ∀ y ∈ z, y ∈ (b.collect x).order := by
    intro y hy
    have hyx : y ≠ x := fun heq => hzx (by rw [← heq]; exact hy)
    unfold Pinned.collect
    split_ifs
    · simpa [horder, hyx] using hzmem y hy
    · exact horder ▸ hzmem y hy
  obtain ⟨m₄, hmod₄, h₄⟩ := h₃.modify hzmem' fun c => { c with ic := c.ic + 1 }
  rw [← hz]
  refine ⟨m₄, ?_, ?_⟩
  · simp only [advance, hn, hlink, hmod₁, hmod₂, hderef, hmod₄, Option.bind_eq_bind,
      Option.bind_some]
  · apply Shape.congr h₄
    intro y
    change (b.collect x).core y = _
    by_cases hyx : y = x
    · subst hyx
      rw [touch, if_neg hzx, Function.update_self]
    · have hb : b.core y = (a.pin z).core y :=
        Pinned.core_congr Iff.rfl rfl (Function.update_of_ne hyx _ _) rfl rfl
      rw [Pinned.core_collect hyx, hb, Pinned.core_pin]
      simp only [touch, Function.update_of_ne hyx, Option.some.injEq, if_neg (Ne.symm hyx)]

theorem advance (h : Refines m a) (ok : a.Ok) (hc : ∀ x ∈ c, 0 < a.pins x) (d : Dir) :
    ∃ m', advance d c m = some ((a.after d c).head?, m') ∧
      Refines m' ((a.pin (a.after d c).head?).unpin c) := by
  cases c with
  | none => exact h.advance_none d
  | some x => exact h.advance_some ok (hc x rfl) d

end Refines

/-! ## Passing through a marked node -/

namespace Pinned

variable {a : Pinned D F} {x y : ℕ} {c w z : Ptr} {d : Dir}

@[simp] theorem pins_collect : (a.collect x).pins = a.pins := by
  unfold collect
  split_ifs <;> rfl

theorem pins_unpin_of_ne (hx : c ≠ some x) : (a.unpin c).pins x = a.pins x := by
  cases c with
  | none => rfl
  | some y =>
      rw [unpin_some, pins_collect]
      exact Function.update_of_ne (fun heq => hx (by rw [heq])) _ _

@[simp] theorem inserted_collect : (a.collect x).inserted = a.inserted := by
  unfold collect
  split_ifs <;> rfl

@[simp] theorem inserted_unpin : (a.unpin c).inserted = a.inserted := by
  cases c with
  | none => rfl
  | some x => exact inserted_collect

@[simp] theorem removed_collect : (a.collect x).removed = a.removed := by
  unfold collect
  split_ifs <;> rfl

@[simp] theorem removed_unpin : (a.unpin c).removed = a.removed := by
  cases c with
  | none => rfl
  | some x => exact removed_collect

@[simp] theorem removed_pin : (a.pin c).removed = a.removed := by
  cases c <;> rfl

theorem pins_pin : (a.pin c).pins x = a.pins x + if c = some x then 1 else 0 := by
  cases c with
  | none => simp [pin]
  | some y =>
      by_cases hxy : x = y
      · simp [pin, hxy]
      · simp [pin, hxy, Ne.symm hxy]

theorem pins_unpin (hc : ∀ x ∈ c, 0 < a.pins x) :
    ((a.unpin c).pins x + if c = some x then 1 else 0) = a.pins x := by
  cases c with
  | none => simp [unpin]
  | some y =>
      have hpos := hc y rfl
      rw [unpin_some, pins_collect]
      by_cases hxy : x = y
      · subst hxy
        simp only [Function.update_self, if_true]
        omega
      · simp [hxy, Ne.symm hxy]

/-- A pin that moves. -/
theorem pins_move (hc : ∀ x ∈ c, 0 < a.pins x) :
    (((a.pin w).unpin c).pins x + if c = some x then 1 else 0) =
      a.pins x + if w = some x then 1 else 0 := by
  have hpos : ∀ y ∈ c, 0 < (a.pin w).pins y := by
    intro y hy
    have := hc y hy
    rw [pins_pin]
    omega
  rw [pins_unpin hpos, pins_pin]

theorem collect_pin (hw : w ≠ some x) : (a.collect x).pin w = (a.pin w).collect x := by
  have hguard : (a.pin w).marked x = a.marked x ∧ (a.pin w).pins x = a.pins x :=
    ⟨marked_pin, pins_pin_of_ne hw⟩
  unfold collect
  rw [hguard.1, hguard.2]
  split_ifs
  · cases w <;> rfl
  · rfl

theorem pin_comm : (a.pin w).pin z = (a.pin z).pin w := by
  cases w with
  | none => rfl
  | some x =>
      cases z with
      | none => rfl
      | some y =>
          by_cases hxy : x = y
          · rw [hxy]
          · simp only [pin, Function.update_of_ne hxy, Function.update_of_ne (Ne.symm hxy),
              Function.update_comm hxy]

/-- The order of a coming and a going does not matter, except at one node. -/
theorem unpin_pin_comm (hw : ∀ x ∈ c, w ≠ some x) : (a.unpin c).pin w = (a.pin w).unpin c := by
  cases c with
  | none => rfl
  | some x =>
      have hwx := hw x rfl
      rw [unpin_some, unpin_some, collect_pin hwx, pins_pin_of_ne hwx]
      cases w with
      | none => rfl
      | some y =>
          have hxy : x ≠ y := fun heq => hwx (by rw [heq])
          simp only [pin, Function.update_of_ne (Ne.symm hxy), Function.update_comm hxy]

/-- Coming to a node that is pinned and going again changes nothing. -/
theorem pin_unpin_self (hx : 0 < a.pins x) : (a.pin (some x)).unpin (some x) = a := by
  rw [unpin_some]
  simp only [pin, Function.update_self, Function.update_idem, Nat.add_sub_cancel,
    Function.update_eq_self]
  exact collect_of_not fun hleave => Nat.ne_of_gt hx hleave.2

/-- A walk passes through a pinned node without a trace. -/
theorem pass_through (hy : 0 < a.pins y) (hcy : c ≠ some y) (hwy : w ≠ some y)
    (hwc : ∀ x ∈ c, w ≠ some x) :
    (((a.pin (some y)).unpin c).pin w).unpin (some y) = (a.pin w).unpin c := by
  have hpins : ((a.unpin c).pin w).pins y = a.pins y := by
    rw [pins_pin_of_ne hwy, pins_unpin_of_ne hcy]
  have hyc : ∀ x ∈ c, some y ≠ some x := fun x hx heq => hcy (by rw [heq]; exact hx)
  calc (((a.pin (some y)).unpin c).pin w).unpin (some y)
      = (((a.unpin c).pin (some y)).pin w).unpin (some y) := by rw [unpin_pin_comm hyc]
    _ = (((a.unpin c).pin w).pin (some y)).unpin (some y) := by rw [pin_comm]
    _ = (a.unpin c).pin w := pin_unpin_self (hpins ▸ hy)
    _ = (a.pin w).unpin c := unpin_pin_comm hwc

@[simp] theorem after_pin : (a.pin w).after d c = a.after d c := by
  cases w <;> rfl

/-- A node that leaves also leaves what a walk has before it. -/
theorem after_collect (hnodup : a.order.Nodup) (hc : ∀ y ∈ c, y ∈ a.order) (hcx : c ≠ some x) :
    (a.collect x).after d c =
      if a.marked x ∧ a.pins x = 0 then (a.after d c).filter (· ≠ x) else a.after d c := by
  unfold collect
  split_ifs
  · cases c with
    | none => exact (Dir.filter_along d _ _).symm
    | some y =>
        have hyx : y ≠ x := fun heq => hcx (by rw [heq])
        obtain ⟨l₁, l₂, hl⟩ := Linked.exists_split (hc y rfl) d
        have hl' : d.along (a.order.filter (· ≠ x)) =
            l₁.filter (· ≠ x) ++ y :: l₂.filter (· ≠ x) := by
          rw [← Dir.filter_along, hl, List.filter_append,
            List.filter_cons_of_pos (by simpa using hyx)]
        rw [after_eq hnodup hl]
        exact after_eq (hnodup.filter _) hl'
  · rfl

/-- One turn of the loop takes one node from what is before the walk. -/
theorem after_advance (ok : a.Ok) (hc : ∀ x ∈ c, 0 < a.pins x) {l : List ℕ}
    (hl : a.after d c = y :: l) : ((a.pin (some y)).unpin c).after d (some y) = l := by
  have hcmem : ∀ x ∈ c, x ∈ a.order := fun x hx => ok.mem_of_pinned (hc x hx)
  obtain ⟨l₁, hsplit, hlast⟩ := exists_before ok.nodup hcmem d
  have hymem : y ∈ a.order := mem_of_mem_after (d := d) (c := c) (by simp [hl])
  rw [hl] at hsplit
  cases c with
  | none => exact after_eq (a := a.pin (some y)) ok.nodup hsplit
  | some x =>
      have hafter : x ∉ y :: l := hl ▸ notMem_after ok.nodup hcmem rfl
      obtain ⟨hxy, hxl⟩ := not_or.mp (List.mem_cons.not.mp hafter)
      have hl' : l.filter (· ≠ x) = l := by
        rw [List.filter_eq_self]
        intro z hz
        simpa using fun heq : z = x => hxl (heq ▸ hz)
      let b : Pinned D F :=
        { a.pin (some y) with
          pins := Function.update (a.pin (some y)).pins x ((a.pin (some y)).pins x - 1) }
      have hb : b.after d (some y) = l := after_eq ok.nodup hsplit
      have hyb : ∀ z ∈ some y, z ∈ b.order := by
        rintro z ⟨⟩
        exact hymem
      have hnodup : b.order.Nodup := ok.nodup
      have hcollect := after_collect (d := d) hnodup hyb
        fun heq => hxy (Option.some.inj heq).symm
      rw [hb, hl', ite_self] at hcollect
      exact hcollect

end Pinned

/-! ## The whole call -/

namespace Refines

variable {m : State D F} {a : Pinned D F} {c : Ptr} {d : Dir}

theorem walkLoop {l : List ℕ} {fuel : ℕ} (h : Refines m a) (ok : a.Ok)
    (hc : ∀ x ∈ c, 0 < a.pins x) (hl : a.after d c = l) (hfuel : l.length < fuel) :
    ∃ m', walkLoop d fuel c m = some (a.following d c, m') ∧ Refines m' (a.walk d c).2 := by
  induction l generalizing m a c fuel with
  | nil =>
      obtain ⟨fuel, rfl⟩ : ∃ n, fuel = n + 1 := ⟨fuel - 1, by simp at hfuel; omega⟩
      obtain ⟨m₁, hadvance, h₁⟩ := h.advance ok hc d
      have hnone : a.following d c = none := by rw [Pinned.following, hl]; rfl
      rw [hl] at hadvance h₁
      refine ⟨m₁, ?_, ?_⟩
      · rw [hnone]
        simp [LinkedList.walkLoop, hadvance, State.isDeleted]
      · rwa [Pinned.walk, hnone]
  | cons y l ih =>
      obtain ⟨fuel, rfl⟩ : ∃ n, fuel = n + 1 := ⟨fuel - 1, by simp at hfuel; omega⟩
      obtain ⟨m₁, hadvance, h₁⟩ := h.advance ok hc d
      rw [hl, List.head?_cons] at hadvance h₁
      have hcmem : ∀ x ∈ c, x ∈ a.order := fun x hx => ok.mem_of_pinned (hc x hx)
      have hymem : y ∈ a.order := Pinned.mem_of_mem_after (d := d) (c := c) (by simp [hl])
      have hcy : c ≠ some y := by
        intro heq
        exact Pinned.notMem_after ok.nodup hcmem heq (d := d) (by simp [hl])
      let a₁ := (a.pin (some y)).unpin c
      have ok₁ : a₁.Ok := ok.move hc (by simpa using hymem)
      have hmarked : a₁.marked y = a.marked y := by simp [a₁]
      have hpins : 0 < a₁.pins y := by
        rw [Pinned.pins_unpin_of_ne hcy]
        simp [Pinned.pin]
      have hdeleted : m₁.isDeleted (some y) = a.marked y := by
        have hymem₁ := ok₁.mem_of_pinned hpins
        obtain ⟨p, hp⟩ := ok₁.exists_data hymem₁
        rw [Shape.isDeleted_eq h₁ (Pinned.core_eq hymem₁ hp), ← hmarked]
        rfl
      by_cases hy : a.marked y = true
      · -- the loop goes on from a node that it may pass through
        have hl₁ : a₁.after d (some y) = l := Pinned.after_advance ok hc hl
        obtain ⟨m₂, hloop, h₂⟩ := ih h₁ ok₁ (by simpa using hpins) hl₁
          (by simpa using hfuel : l.length < fuel)
        have hfollowing : a₁.following d (some y) = a.following d c := by
          rw [Pinned.following, hl₁, Pinned.following, hl, List.find?_cons_of_neg (by simp [hy])]
          simp [a₁]
        have hskip : a.following d c ≠ some y := by
          intro heq
          exact Bool.noConfusion (hy.symm.trans (Pinned.mem_of_following heq).2)
        have hcfollowing : ∀ x ∈ c, a.following d c ≠ some x := by
          intro x hx heq
          exact Pinned.notMem_after ok.nodup hcmem hx (List.mem_of_find?_eq_some heq)
        refine ⟨m₂, ?_, ?_⟩
        · rw [hfollowing] at hloop
          simp only [LinkedList.walkLoop, hadvance, Option.bind_eq_bind, Option.bind_some,
            hdeleted, hy, if_true, hloop]
        · rw [Pinned.walk, hfollowing] at h₂
          rwa [Pinned.pass_through (ok.pinned_of_marked hymem hy) hcy hskip hcfollowing] at h₂
      · have hfollowing : a.following d c = some y := by
          rw [Pinned.following, hl, List.find?_cons_of_pos (by simpa using hy)]
        refine ⟨m₁, ?_, ?_⟩
        · simp only [LinkedList.walkLoop, hadvance, Option.bind_eq_bind, Option.bind_some,
            hdeleted, hy, hfollowing]
          rfl
        · rwa [Pinned.walk, hfollowing]

/-- The data of a node of the sequence. -/
theorem dataAt_eq (h : Refines m a) (ok : a.Ok) (hc : ∀ x ∈ c, x ∈ a.order) :
    m.dataAt c = c.bind (a.inserted[·]?) := by
  cases c with
  | none => rfl
  | some x =>
      have hx := hc x rfl
      obtain ⟨p, hp⟩ := ok.exists_data hx
      obtain ⟨n, hn, hcore⟩ := Shape.load_of_core h (Pinned.core_eq hx hp)
      have hdata : n.data = p := congrArg Core.data hcore
      simp [State.dataAt, hn, hdata, hp]

/-- `list_next` and `list_prev`. -/
theorem walk (h : Refines m a) (ok : a.Ok) (hc : ∀ x ∈ c, 0 < a.pins x) (d : Dir) :
    ∃ m', walk d c m = some (⟨a.following d c, (a.following d c).bind (a.inserted[·]?)⟩, m') ∧
      Refines m' (a.walk d c).2 := by
  have hafter : (a.after d c).Nodup := by
    obtain ⟨l₁, hl, _⟩ := Pinned.exists_before ok.nodup
      (fun x hx => ok.mem_of_pinned (hc x hx)) d
    have hnodup := Dir.nodup_along (d := d).mpr ok.nodup
    rw [hl] at hnodup
    exact (List.nodup_append.mp hnodup).2.1
  have hfuel : (a.after d c).length < m.fresh + 1 := by
    have hfresh : m.fresh = a.inserted.length := congrArg Ledger.fresh h.ledger_eq
    rw [hfresh, Nat.lt_succ_iff]
    exact length_le_of_nodup_of_lt hafter fun y hy => ok.lt (Pinned.mem_of_mem_after hy)
  obtain ⟨m', hloop, h'⟩ := h.walkLoop ok hc rfl hfuel
  refine ⟨m', ?_, h'⟩
  have hmem : ∀ y ∈ a.following d c, y ∈ (a.walk d c).2.order := by
    intro y hy
    apply (ok.walk hc d).mem_of_pinned
    have hcy : c ≠ some y := by
      intro heq
      exact Pinned.notMem_after ok.nodup (fun x hx => ok.mem_of_pinned (hc x hx)) heq
        (List.mem_of_find?_eq_some hy)
    have hpins := Pinned.pins_move (w := a.following d c) (x := y) hc
    rw [if_neg hcy, if_pos (Option.mem_def.mp hy)] at hpins
    simp only [Pinned.walk]
    omega
  have hdata := h'.dataAt_eq (ok.walk hc d) hmem
  rw [show (a.walk d c).2.inserted = a.inserted by simp [Pinned.walk]] at hdata
  simp only [LinkedList.walk, hloop, hdata, Option.bind_eq_bind, Option.bind_some]

/-- The list as the links give it. -/
theorem contents_eq (h : Refines m a) (ok : a.Ok) (d : Dir) : contents d m = d.along a.order := by
  have hfresh : m.fresh = a.inserted.length := congrArg Ledger.fresh h.ledger_eq
  have hlength : (d.along a.order).length ≤ m.fresh := by
    rw [Dir.length_along, hfresh]
    exact length_le_of_nodup_of_lt ok.nodup fun x hx => ok.lt hx
  rw [contents, h.linked.first_eq d]
  exact (h.linked.chain d).follow_eq hlength

end Refines

end ThreeW3.LinkedList
