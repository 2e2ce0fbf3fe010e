/-
# What is never released

An object stays as long as a client or an attribute holds it. Objects that hold each other
in a circle stay without a client, and what hangs off them stays too. There is no other
leak: when clients own nothing and no objects form a circle, everything is gone, each
object finalized and freed once and each attribute released once.
-/

import ThreeW3.Lib.Reach
import ThreeW3.Objects.Graph

namespace ThreeW3.Objects

open ThreeW3.Lib

variable {R F W : Type}

namespace Client

variable {c : Client R F W}

/-- The object is there. -/
def Alive (c : Client R F W) (p : ℕ) : Prop := ∃ o, c.state.objects.load p = some o

/-- An attribute of the first object has the second for its value. -/
def Holds (c : Client R F W) (p q : ℕ) : Prop :=
  ∃ a ∈ c.state.attributes p, ∃ r, c.state.attris.load a = some r ∧ r.value = some q

/-- An object that a client owns, or that holds itself through others, or that such an object
holds through others. -/
def Kept (c : Client R F W) : ℕ → Prop := Lib.Kept c.Holds (· ∈ c.owned)

/-- No objects hold each other in a circle. -/
def Acyclic (c : Client R F W) : Prop := ∀ p, ¬ Relation.TransGen c.Holds p p

/-- All that was made is gone, once each, with the finalizers run once. -/
structure Cleared (c : Client R F W) : Prop where
  objects : ∀ p, c.state.objects.load p = none
  attris : ∀ a, c.state.attris.load a = none
  finalized : ∀ x ∈ c.state.ledger.given, c.state.ledger.finalized.count x.1 =
    if x.2 = none then 0 else 1
  freed : ∀ x ∈ c.state.ledger.given, c.state.ledger.freed.count x.1 = 1
  released : ∀ x ∈ c.state.ledger.made, c.state.ledger.released.count x.2 = 1

/-- What is there is what is kept, and without circles nothing outlives its last owner. -/
structure Collected (c : Client R F W) : Prop where
  alive : ∀ p, c.Alive p ↔ c.Kept p
  cleared : c.owned = [] → c.Acyclic → c.Cleared

theorem alive_of_holds {p q : ℕ} (h : c.Holds p q) : c.Alive p := by
  obtain ⟨a, ha, -⟩ := h
  cases ho : c.state.objects.load p with
  | none => simp [State.attributes, ho] at ha
  | some o => exact ⟨o, ho⟩

section Inv

variable (h : c.Inv)

include h

theorem Inv.finite : {p | c.Alive p}.Finite := by
  obtain ⟨recs, h⟩ := h
  refine (Set.finite_lt_nat c.state.count).subset ?_
  rintro p ⟨o, ho⟩
  exact h.bounded.objects p o ho

/-- An attribute is of an object, and so its value is held. -/
theorem Inv.exists_holds {a : ℕ} {r : Attri R F} (hr : c.state.attris.load a = some r) :
    ∃ p q, r.value = some q ∧ c.Holds p q := by
  have haccounted := h.accounted
  obtain ⟨recs, h⟩ := h
  obtain ⟨-, -, q, hvalue⟩ := h.hooks a r hr
  obtain ⟨p, hmade⟩ := h.made_of_load a r hr
  have hlinked := (haccounted.linked (p, a) hmade).mp ⟨r, hr⟩
  exact ⟨p, q, hvalue, a, hlinked, r, hr, hvalue⟩

/-- An object is there as long as a client or another one holds it. -/
theorem Inv.alive_iff (q : ℕ) : c.Alive q ↔ q ∈ c.owned ∨ ∃ p, c.Alive p ∧ c.Holds p q := by
  have hnumber : c.Alive q ↔ c.number q ≠ 0 := by
    obtain ⟨recs, h⟩ := h
    constructor
    · rintro ⟨o, ho⟩ hzero
      have hcount := h.count q
      rw [State.rc_eq ho, State.heldBut_nil] at hcount
      refine absurd ((h.dying_iff q).mpr ⟨o, ho, ?_⟩) (by simp)
      rw [hcount]
      exact_mod_cast hzero
    · intro hne
      obtain ⟨o, ho, -⟩ := h.exists_object (q := q) (by
        rw [State.heldBut_nil]
        exact Nat.pos_of_ne_zero hne)
      exact ⟨o, ho⟩
  rw [hnumber, number, ← Nat.pos_iff_ne_zero, Nat.add_pos_iff_pos_or_pos, List.count_pos_iff]
  refine or_congr_right ⟨fun hheld => ?_, ?_⟩
  · obtain ⟨a, r, hr, hvalue⟩ := Heap.exists_of_countP_pos hheld
    obtain ⟨p, q', hq', hholds⟩ := h.exists_holds hr
    obtain rfl : q' = q := Option.some.inj (hq'.symm.trans (of_decide_eq_true hvalue))
    exact ⟨p, alive_of_holds hholds, hholds⟩
  · rintro ⟨p, -, a, -, r, hr, hvalue⟩
    rw [← State.heldBut_nil]
    exact State.heldBut_pos hr (by simp) hvalue

theorem Inv.alive_iff_kept (p : ℕ) : c.Alive p ↔ c.Kept p :=
  Lib.alive_iff_kept h.finite h.alive_iff fun _ _ => alive_of_holds

theorem Inv.cleared (howned : c.owned = []) (hacyclic : c.Acyclic) : c.Cleared := by
  have hdead : ∀ p, ¬ c.Alive p := by
    intro p hp
    obtain ⟨q, hq | hcycle, -⟩ := (h.alive_iff_kept p).mp hp
    · simp [howned] at hq
    · exact hacyclic q hcycle
  have hobjects : ∀ p, c.state.objects.load p = none := fun p =>
    Option.eq_none_iff_forall_ne_some.mpr fun o ho => hdead p ⟨o, ho⟩
  have hattris : ∀ a, c.state.attris.load a = none := by
    intro a
    refine Option.eq_none_iff_forall_ne_some.mpr fun r hr => ?_
    obtain ⟨p, q, -, hholds⟩ := h.exists_holds hr
    exact hdead p (alive_of_holds hholds)
  have haccounted := h.accounted
  have hnumber : ∀ x ∈ c.state.ledger.given, c.number x.1 = 0 := fun x hx =>
    not_not.mp fun hne => hdead x.1 ((haccounted.loaded x hx).mpr hne)
  refine ⟨hobjects, hattris, fun x hx => ?_, fun x hx => ?_, fun x hx => ?_⟩
  · rw [haccounted.finalized x hx]
    simp [hnumber x hx]
  · rw [haccounted.freed x hx, if_pos (hnumber x hx)]
  · have hgone : x.2 ∉ c.state.attributes x.1 := by
      rw [← haccounted.linked x hx, hattris]
      simp
    rw [haccounted.released x hx, if_neg hgone]

theorem Inv.collected : c.Collected := ⟨h.alive_iff_kept, h.cleared⟩

end Inv

end Client

/-- In all states of a run the objects that are there are those that clients own, those on a
circle, and those that these hold; and when clients own nothing and there is no circle,
everything has been released, once. -/
theorem nothing_leaks (H : Hooks R F W) (w : W) {calls : List (Call F)}
    (hvalid : (clients H w).Valid (clients H w).init calls) :
    (clients H w).AllStates Client.Collected (clients H w).init calls := by
  have htrue : (clients H w).AllSteps (fun _ _ => True) (clients H w).init calls :=
    Machine.allSteps_of_forall (fun _ _ _ => trivial) (clients H w).init
  exact (Machine.allStates_of_keeps (fun c a c' h henabled _ hstep =>
    step_inv H c a c' h henabled hstep) (start_inv H w) hvalid htrue).mono
      fun c => Client.Inv.collected

/-- Two objects hold each other, one of them a third, and clients release all of them. -/
def circle : List (Call Unit) :=
  [.allocd none (some ()) true, .allocd none (some ()) true, .allocd none none true, .ref 0,
    .ref 1, .attrSet 0 [97] 1 ⟨true, true⟩, .attrSet 1 [97] 0 ⟨true, true⟩,
    .attrSet 1 [98] 2 ⟨true, true⟩, .free 0, .free 1]

theorem circle_leaks :
    (clients idle ()).AllStates Client.Collected (clients idle ()).init circle :=
  nothing_leaks idle () (by decide)

end ThreeW3.Objects
