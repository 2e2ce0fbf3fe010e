/-
# What stays in reach

Nodes that hold each other. If there are finitely many, and each is a root or is held by
another one, then each is reached from a root or from a node that holds itself, perhaps
through others.
-/

import Mathlib.Data.Fintype.Card
import Mathlib.Data.Set.Finite.Basic
import Mathlib.Logic.Relation
import Mathlib.Order.WellFounded

namespace ThreeW3.Lib

universe u

variable {α : Type u} {holds : α → α → Prop} {root alive : α → Prop} {x y : α}

/-- A node that needs nothing but itself to stay. -/
def Anchored (holds : α → α → Prop) (root : α → Prop) (x : α) : Prop :=
  root x ∨ Relation.TransGen holds x x

/-- A node that such a node keeps. -/
def Kept (holds : α → α → Prop) (root : α → Prop) (x : α) : Prop :=
  ∃ y, Anchored holds root y ∧ Relation.ReflTransGen holds y x

theorem Anchored.kept (h : Anchored holds root x) : Kept holds root x := ⟨x, h, .refl⟩

theorem Kept.tail (h : Kept holds root y) (hholds : holds y x) : Kept holds root x := by
  obtain ⟨z, hz, hreach⟩ := h
  exact ⟨z, hz, hreach.tail hholds⟩

/-- What is kept is a root or held. -/
theorem Kept.cases (h : Kept holds root x) : root x ∨ ∃ y, holds y x := by
  obtain ⟨y, hy, hreach⟩ := h
  obtain heq | ⟨z, -, hlast⟩ := hreach.cases_tail
  · subst heq
    refine hy.imp_right fun hcycle => ?_
    obtain ⟨z, -, hlast⟩ := Relation.TransGen.tail'_iff.mp hcycle
    exact ⟨z, hlast⟩
  · exact .inr ⟨z, hlast⟩

/-- A set without roots, each of whose nodes is held by another one of it, has a cycle if it
is finite and not empty. -/
theorem exists_cycle_of_held {t : Set α} (hfinite : t.Finite) (hx : x ∈ t)
    (hheld : ∀ x ∈ t, ∃ y ∈ t, holds y x) : ∃ y ∈ t, Relation.TransGen holds y y := by
  by_contra hacyclic
  push Not at hacyclic
  let before : t → t → Prop := fun a b => Relation.TransGen holds a b
  have : Finite t := hfinite
  have : IsTrans t before := ⟨fun _ _ _ hab hbc => Relation.TransGen.trans hab hbc⟩
  have : Std.Irrefl before := ⟨fun a => hacyclic a a.2⟩
  have hwf : WellFounded before := Finite.wellFounded_of_trans_of_irrefl before
  -- a first node of the set would not be held
  obtain ⟨first, -, hfirst⟩ := hwf.has_min Set.univ ⟨⟨x, hx⟩, trivial⟩
  obtain ⟨y, hy, hholds⟩ := hheld first first.2
  exact hfirst ⟨y, hy⟩ trivial (Relation.TransGen.single hholds)

/-- Each of finitely many nodes that are roots or held is kept. -/
theorem kept_of_held (hfinite : {x | alive x}.Finite)
    (hheld : ∀ x, alive x → root x ∨ ∃ y, alive y ∧ holds y x) (hx : alive x) :
    Kept holds root x := by
  by_contra hlost
  let lost : Set α := {x | alive x ∧ ¬ Kept holds root x}
  have hrest : ∀ x ∈ lost, ∃ y ∈ lost, holds y x := by
    rintro x ⟨hx, hlost⟩
    obtain hroot | ⟨y, hy, hholds⟩ := hheld x hx
    · exact absurd (Anchored.kept (.inl hroot)) hlost
    · exact ⟨y, ⟨hy, fun hkept => hlost (hkept.tail hholds)⟩, hholds⟩
  have hlostFinite : lost.Finite := hfinite.subset fun x hx => hx.1
  obtain ⟨y, ⟨-, hy⟩, hcycle⟩ := exists_cycle_of_held hlostFinite ⟨hx, hlost⟩ hrest
  exact hy (Anchored.kept (.inr hcycle))

/-- Where nodes stay exactly as long as they are roots or held, those that stay are those
that are kept. -/
theorem alive_iff_kept (hfinite : {x | alive x}.Finite)
    (hheld : ∀ x, alive x ↔ root x ∨ ∃ y, alive y ∧ holds y x)
    (hsource : ∀ x y, holds x y → alive x) : alive x ↔ Kept holds root x := by
  refine ⟨kept_of_held hfinite fun x => (hheld x).mp, fun h => (hheld x).mpr ?_⟩
  exact h.cases.imp_right fun ⟨y, hholds⟩ => ⟨y, hsource y x hholds, hholds⟩

end ThreeW3.Lib
