/-
# Doubly linked lists

Two link functions and two ends, one for each direction, that follow one list of
nodes. Both directions are treated alike: what holds of a walk along `next` holds
of a walk along `prev` in the reversed list. The two edits are appending a node
at an end and taking a node out.
-/

import Mathlib.Data.List.Basic
import ThreeW3.Lib.Chain

namespace ThreeW3.Lib

universe u
variable {α : Type u}

/-- The two directions in which a list can be walked. -/
inductive Dir
  | fwd
  | bwd
  deriving DecidableEq, Repr

namespace Dir

/-- The other direction. -/
def opp : Dir → Dir
  | fwd => bwd
  | bwd => fwd

@[simp] theorem opp_opp (d : Dir) : d.opp.opp = d := by
  cases d <;> rfl

theorem opp_ne (d : Dir) : d.opp ≠ d := by
  cases d <;> simp [opp]

theorem eq_or_eq_opp (d e : Dir) : d = e ∨ d = e.opp := by
  cases d <;> cases e <;> simp [opp]

/-- The nodes in the order in which a walk in this direction meets them. -/
def along (d : Dir) (l : List α) : List α :=
  match d with
  | fwd => l
  | bwd => l.reverse

variable {d : Dir} {l : List α} {a : α}

@[simp] theorem along_nil : d.along ([] : List α) = [] := by
  cases d <;> rfl

@[simp] theorem mem_along : a ∈ d.along l ↔ a ∈ l := by
  cases d <;> simp [along]

@[simp] theorem length_along : (d.along l).length = l.length := by
  cases d <;> simp [along]

@[simp] theorem nodup_along : (d.along l).Nodup ↔ l.Nodup := by
  cases d <;> simp [along]

theorem along_opp (d : Dir) (l : List α) : d.opp.along l = (d.along l).reverse := by
  cases d <;> simp [along, opp]

theorem filter_along (d : Dir) (p : α → Bool) (l : List α) :
    (d.along l).filter p = d.along (l.filter p) := by
  cases d <;> simp [along]

theorem head?_along_opp (d : Dir) (l : List α) : (d.opp.along l).head? = (d.along l).getLast? := by
  rw [along_opp, List.head?_reverse]

/-- A node that a walk in this direction meets last. -/
def append (d : Dir) (l : List α) (a : α) : List α :=
  match d with
  | fwd => l ++ [a]
  | bwd => a :: l

@[simp] theorem mem_append {b : α} : b ∈ d.append l a ↔ b ∈ l ∨ b = a := by
  cases d <;> simp [append, or_comm]

theorem along_append (d : Dir) (l : List α) (a : α) : d.along (d.append l a) = d.along l ++ [a] := by
  cases d <;> simp [along, append]

theorem along_opp_append (d : Dir) (l : List α) (a : α) :
    d.opp.along (d.append l a) = a :: d.opp.along l := by
  rw [along_opp, along_append, List.reverse_append, along_opp]
  rfl

theorem nodup_append (hl : l.Nodup) (ha : a ∉ l) : (d.append l a).Nodup := by
  have hnodup : (d.along l ++ [a]).Nodup :=
    List.nodup_append.mpr ⟨nodup_along.mpr hl, List.nodup_singleton a, by
      rintro b hb c hc rfl
      rw [List.mem_singleton] at hc
      exact ha (hc ▸ mem_along.mp hb)⟩
  rwa [← along_append, nodup_along] at hnodup

end Dir

/-- The ends and the links follow the list in both directions. -/
structure Linked (first : Dir → Option α) (link : Dir → α → Option α) (l : List α) : Prop where
  nodup : l.Nodup
  first_eq : ∀ d, first d = (d.along l).head?
  chain : ∀ d, Chain (link d) (d.along l) none

namespace Linked

variable {first first' : Dir → Option α} {link link' : Dir → α → Option α} {l l₁ l₂ : List α}
  {d : Dir} {a b : α}

theorem nil : Linked (fun _ => none) link ([] : List α) :=
  ⟨List.nodup_nil, fun _ => by simp, fun _ => by simp⟩

/-- The link of a node is the node after it. -/
theorem link_eq (h : Linked first link l) (hl : d.along l = l₁ ++ a :: l₂) :
    link d a = l₂.head? := by
  have hchain := h.chain d
  rw [hl] at hchain
  simpa using hchain.link_eq

/-- The opposite link of a node is the node before it. -/
theorem opp_link_eq (h : Linked first link l) (hl : d.along l = l₁ ++ a :: l₂) :
    link d.opp a = l₁.getLast? := by
  have hopp : d.opp.along l = l₂.reverse ++ a :: l₁.reverse := by
    rw [Dir.along_opp, hl]
    simp
  rw [h.link_eq hopp, List.head?_reverse]

theorem exists_split (h : a ∈ l) (d : Dir) : ∃ l₁ l₂, d.along l = l₁ ++ a :: l₂ :=
  List.append_of_mem (Dir.mem_along.mpr h)

/-- Links lead to nodes of the list. -/
theorem mem_of_link (h : Linked first link l) (ha : a ∈ l) (hb : link d a = some b) : b ∈ l := by
  obtain ⟨l₁, l₂, hl⟩ := exists_split ha d
  rw [h.link_eq hl] at hb
  rw [← Dir.mem_along (d := d), hl]
  simp [List.mem_of_head? hb]

theorem mem_of_first (h : Linked first link l) (ha : first d = some a) : a ∈ l := by
  rw [h.first_eq d] at ha
  exact Dir.mem_along.mp (List.mem_of_head? ha)

theorem congr (h : Linked first link l) (hfirst : ∀ d, first' d = first d)
    (hlink : ∀ d, ∀ b ∈ l, link' d b = link d b) : Linked first' link' l :=
  ⟨h.nodup, fun d => (hfirst d).trans (h.first_eq d),
    fun d => (h.chain d).congr fun b hb => hlink d b (Dir.mem_along.mp hb)⟩

variable [DecidableEq α]

/-- Taking a node out: the node before it takes over its link, in both directions. -/
theorem unlink (h : Linked first link l) (ha : a ∈ l)
    (hfirst : ∀ d, first' d = if first d = some a then link d a else first d)
    (hlink : ∀ d b, b ≠ a → link' d b = Chain.splice (link d) (link d.opp a) (link d a) b) :
    Linked first' link' (l.filter (· ≠ a)) := by
  have hcut : ∀ d : Dir, ∃ l₁ l₂, d.along l = l₁ ++ a :: l₂ ∧
      d.along (l.filter (· ≠ a)) = l₁ ++ l₂ ∧ a ∉ l₁ ∧ a ∉ l₂ := by
    intro d
    obtain ⟨l₁, l₂, hl⟩ := exists_split ha d
    have hnodup : (l₁ ++ a :: l₂).Nodup := hl ▸ Dir.nodup_along.mpr h.nodup
    have h₁ : a ∉ l₁ := fun hmem => List.disjoint_of_nodup_append hnodup hmem List.mem_cons_self
    have h₂ : a ∉ l₂ := (List.nodup_cons.mp (List.nodup_append.mp hnodup).2.1).1
    have hkeep : ∀ l : List α, a ∉ l → l.filter (· ≠ a) = l := by
      intro l hl
      rw [List.filter_eq_self]
      intro b hb
      simpa using fun heq : b = a => hl (heq ▸ hb)
    refine ⟨l₁, l₂, hl, ?_, h₁, h₂⟩
    rw [← Dir.filter_along, hl, List.filter_append, List.filter_cons_of_neg (by simp), hkeep l₁ h₁,
      hkeep l₂ h₂]
  constructor
  · exact h.nodup.filter _
  · intro d
    obtain ⟨l₁, l₂, hl, hl', h₁, _⟩ := hcut d
    rw [hfirst, h.first_eq, hl', hl, h.link_eq hl]
    cases l₁ with
    | nil => simp
    | cons b l₁ =>
        have hba : b ≠ a := fun heq => h₁ (by simp [heq])
        simp [hba]
  · intro d
    obtain ⟨l₁, l₂, hl, hl', h₁, h₂⟩ := hcut d
    have hchain := h.chain d
    have hnodup := Dir.nodup_along (d := d).mpr h.nodup
    rw [hl] at hchain hnodup
    rw [hl']
    apply (hchain.splice_out hnodup).congr
    intro b hb
    rw [← h.opp_link_eq hl]
    apply hlink
    rintro rfl
    exact (List.mem_append.mp hb).elim h₁ h₂

/-- Appending a node: the end of the list links to it, and it links back. -/
theorem append (h : Linked first link l) (ha : a ∉ l) (e : Dir)
    (hend : first' e.opp = some a) (hstart : first' e = (first e).or (some a))
    (hlink : ∀ b, b ≠ a → link' e b = Chain.splice (link e) (first e.opp) (some a) b)
    (hback : ∀ b, b ≠ a → link' e.opp b = link e.opp b)
    (hnew : link' e a = none) (hnewBack : link' e.opp a = first e.opp) :
    Linked first' link' (e.append l a) := by
  have hne : ∀ b ∈ l, b ≠ a := fun b hb heq => ha (heq ▸ hb)
  constructor
  · exact Dir.nodup_append h.nodup ha
  · intro d
    rcases d.eq_or_eq_opp e with rfl | rfl
    · rw [hstart, h.first_eq, Dir.along_append]
      cases d.along l <;> simp
    · rw [hend, Dir.along_opp_append]
      rfl
  · intro d
    rcases d.eq_or_eq_opp e with rfl | rfl
    · rw [Dir.along_append, Chain.append_iff]
      refine ⟨?_, by simpa using hnew⟩
      have hchain := h.chain d
      have hlast : first d.opp = (d.along l).getLast? := by rw [h.first_eq, Dir.head?_along_opp]
      have hnodup := Dir.nodup_along (d := d).mpr h.nodup
      rw [hlast] at hlink
      have hmem : ∀ b ∈ d.along l, b ≠ a := fun b hb => hne b (Dir.mem_along.mp hb)
      rcases List.eq_nil_or_concat (d.along l) with hl | ⟨L, z, hl⟩
      · simp [hl]
      · rw [List.concat_eq_append] at hl
        rw [hl] at hchain hlink hmem hnodup ⊢
        have hz : z ∉ L := fun hmem =>
          List.disjoint_of_nodup_append hnodup hmem List.mem_cons_self
        apply (hchain.update_last (v := some a) hz).congr
        intro b hb
        simpa [Chain.splice] using hlink b (hmem b hb)
    · rw [Dir.along_opp_append, Chain.cons_iff]
      refine ⟨?_, (h.chain e.opp).congr fun b hb => hback b (hne b (Dir.mem_along.mp hb))⟩
      rw [hnewBack, h.first_eq]
      simp

end Linked

end ThreeW3.Lib
