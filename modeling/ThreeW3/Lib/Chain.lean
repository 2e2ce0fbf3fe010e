/-
# Linked chains over a list of nodes

A link function `f` (a `next` or a `prev` field, a word that stores the address
of the following block) follows a list when each node's link is the node after
it. `Chain f l e` says so for the list `l`, with `e` as the link of the last
node. A singly linked list is one chain ending in `none`; a doubly linked list
is a chain of `next` links along `l` and one of `prev` links along the reverse.

The lemmas say what the edits of such structures do: a chain depends only on
the links of its own nodes, it can be cut and joined at any place, and a node
can be spliced out by redirecting the link of the node before it.
-/

import Mathlib.Data.List.Nodup
import Mathlib.Data.List.Perm.Subperm

namespace ThreeW3.Lib

universe u
variable {α : Type u}

/-- Distinct numbers below `n` are at most `n` many. -/
theorem length_le_of_nodup_of_lt {l : List ℕ} {n : ℕ} (hnodup : l.Nodup)
    (hlt : ∀ i ∈ l, i < n) : l.length ≤ n := by
  have hsub : l ⊆ List.range n := fun i hi => List.mem_range.mpr (hlt i hi)
  simpa using (List.subperm_of_subset hnodup hsub).length_le

/-- The numbers below `n` that are not in a list of such numbers. -/
theorem length_filter_notMem {n : ℕ} {l : List ℕ} (hnodup : l.Nodup) (hlt : ∀ x ∈ l, x < n) :
    l.length + ((List.range n).filter (· ∉ l)).length = n := by
  have hall : (l ++ (List.range n).filter (· ∉ l)).Nodup := by
    rw [List.nodup_append]
    refine ⟨hnodup, List.nodup_range.filter _, ?_⟩
    rintro x hx y hy rfl
    have := (List.mem_filter.mp hy).2
    simp [hx] at this
  have hperm : (l ++ (List.range n).filter (· ∉ l)).Perm (List.range n) := by
    rw [List.perm_ext_iff_of_nodup hall List.nodup_range]
    intro x
    by_cases hx : x ∈ l
    · simp [hx, hlt x hx]
    · simp [hx]
  simpa using hperm.length_eq

/-- Each node of `l` links to the node after it, and the last one to `e`. -/
def Chain (f : α → Option α) : List α → Option α → Prop
  | [], _ => True
  | a :: l, e => f a = l.head?.or e ∧ Chain f l e

/-- The nodes met by following the links, `n` at most. -/
def follow (f : α → Option α) : ℕ → Option α → List α
  | n + 1, some a => a :: follow f n (f a)
  | _, _ => []

namespace Chain

variable {f g : α → Option α} {l l₁ l₂ : List α} {a b : α} {e : Option α}

@[simp]
theorem nil : Chain f [] e := trivial

@[simp]
theorem cons_iff : Chain f (a :: l) e ↔ f a = l.head?.or e ∧ Chain f l e := Iff.rfl

@[simp]
theorem append_iff :
    Chain f (l₁ ++ l₂) e ↔ Chain f l₁ (l₂.head?.or e) ∧ Chain f l₂ e := by
  induction l₁ with
  | nil => simp
  | cons a l₁ ih =>
      have hhead : (l₁ ++ l₂).head?.or e = l₁.head?.or (l₂.head?.or e) := by
        cases l₁ <;> simp
      simp only [List.cons_append, cons_iff, ih, hhead, and_assoc]

/-- A chain depends only on the links of its own nodes. -/
theorem congr (hagree : ∀ a ∈ l, g a = f a) (h : Chain f l e) : Chain g l e := by
  induction l with
  | nil => trivial
  | cons a l ih =>
      exact ⟨(hagree a (by simp)).trans h.1, ih (fun b hb => hagree b (by simp [hb])) h.2⟩

/-- A chain ends in one place only: an empty list aside, `e` is the last link. -/
theorem last_link (h : Chain f (l ++ [a]) e) : f a = e := by
  simpa using (append_iff.mp h).2

/-- Following the links gives the list back. -/
theorem follow_eq {n : ℕ} (h : Chain f l none) (hlength : l.length ≤ n) :
    follow f n l.head? = l := by
  induction l generalizing n with
  | nil => cases n <;> rfl
  | cons a l ih =>
      obtain ⟨n, rfl⟩ : ∃ k, n = k + 1 := ⟨n - 1, by simp at hlength; omega⟩
      have hlink : f a = l.head? := by simpa using h.1
      simp only [List.head?_cons, follow, hlink, ih h.2 (by simpa using hlength)]

/-- The link of a node is the node after it in the list. -/
theorem link_eq (h : Chain f (l₁ ++ a :: l₂) e) : f a = l₂.head?.or e :=
  (append_iff.mp h).2.1

variable [DecidableEq α]

/-- Relinking a node outside the list leaves the chain alone. -/
theorem update_of_notMem {v : Option α} (ha : a ∉ l) (h : Chain f l e) :
    Chain (Function.update f a v) l e := by
  refine h.congr fun b hb => ?_
  have hba : b ≠ a := fun heq => ha (heq ▸ hb)
  simp [hba]

/-- Redirecting the last link moves the end of the chain. -/
theorem update_last {v : Option α} (ha : a ∉ l) (h : Chain f (l ++ [a]) e) :
    Chain (Function.update f a v) (l ++ [a]) v := by
  have hl : Chain f l (some a) := by simpa using (append_iff.mp h).1
  simpa using hl.update_of_notMem (v := v) ha

/-- The links after `y`, the node before a removed node `x`, takes over the
link of `x`. Without such a node nothing changes. -/
def splice (f : α → Option α) (before : Option α) (v : Option α) : α → Option α :=
  match before with
  | none => f
  | some y => Function.update f y v

/-- Removing `x` by handing its link to the node before it. -/
theorem splice_out (hnodup : (l₁ ++ a :: l₂).Nodup) (h : Chain f (l₁ ++ a :: l₂) e) :
    Chain (splice f l₁.getLast? (f a)) (l₁ ++ l₂) e := by
  have hlink := link_eq h
  obtain ⟨hfirst, hrest⟩ := append_iff.mp h
  rcases List.eq_nil_or_concat l₁ with rfl | ⟨l, y, rfl⟩
  · simpa [splice] using hrest.2
  · have hy : y ∉ l ∧ y ∉ l₂ := by
      simp only [List.concat_eq_append, List.append_assoc, List.nodup_append, List.mem_append,
        List.mem_cons] at hnodup
      constructor
      · intro hmem
        exact hnodup.2.2 y hmem y (by simp) rfl
      · intro hmem
        exact hnodup.2.1.2.2 y (by simp) y (by simp [hmem]) rfl
    simp only [List.concat_eq_append, List.getLast?_concat, splice] at hfirst ⊢
    have hlast := hfirst.update_last (v := f a) hy.1
    rw [append_iff, ← hlink]
    exact ⟨hlast, hrest.2.update_of_notMem hy.2⟩

/-- A new node after the last one. -/
theorem snoc {n : α} (hnodup : l.Nodup) (hn : n ∉ l) (h : Chain f l none) :
    Chain (Function.update (splice f l.getLast? (some n)) n none) (l ++ [n]) none := by
  rw [append_iff]
  refine ⟨?_, by simp⟩
  rcases List.eq_nil_or_concat l with rfl | ⟨l, y, rfl⟩
  · simp
  · rw [List.concat_eq_append] at h hn hnodup ⊢
    have hy : y ∉ l := fun hmem => List.disjoint_of_nodup_append hnodup hmem List.mem_cons_self
    rw [List.getLast?_concat]
    simpa [splice] using (h.update_last (v := some n) hy).update_of_notMem hn

/-- A new node in the place of `a`, whose link it takes over. -/
theorem replace {n : α} (hnodup : (l₁ ++ a :: l₂).Nodup) (hn : n ∉ l₁ ++ a :: l₂)
    (h : Chain f (l₁ ++ a :: l₂) e) :
    Chain (Function.update (splice f l₁.getLast? (some n)) n (f a)) (l₁ ++ n :: l₂) e := by
  have hlink := link_eq h
  obtain ⟨hfirst, -, hrest⟩ := append_iff.mp h
  obtain ⟨hn₁, -, hn₂⟩ : n ∉ l₁ ∧ n ≠ a ∧ n ∉ l₂ := by simpa [not_or] using hn
  rw [append_iff, cons_iff]
  refine ⟨?_, by simpa using hlink, ?_⟩
  · rcases List.eq_nil_or_concat l₁ with rfl | ⟨l, y, rfl⟩
    · simp
    · rw [List.concat_eq_append] at hfirst hn₁ hnodup ⊢
      have hy : y ∉ l := fun hmem =>
        List.disjoint_of_nodup_append (List.nodup_append.mp hnodup).1 hmem List.mem_cons_self
      rw [List.getLast?_concat]
      simpa [splice] using (hfirst.update_last (v := some n) hy).update_of_notMem hn₁
  · refine Chain.congr (fun b hb => ?_) hrest
    have hbn : b ≠ n := fun heq => hn₂ (heq ▸ hb)
    rw [Function.update_of_ne hbn]
    cases hlast : l₁.getLast? with
    | none => rfl
    | some y =>
        have hby : b ≠ y := by
          rintro rfl
          exact List.disjoint_of_nodup_append hnodup (List.mem_of_getLast? hlast)
            (List.mem_cons_of_mem a hb)
        exact Function.update_of_ne hby _ _

end Chain

end ThreeW3.Lib
