/-
# Guarded machines and their runs

A machine is a program seen from its callers: `enabled` is what a caller and
the environment promise before a call, `step` is what the code then does, and
`none` is a fault, an access that no defined execution makes. Runs are lists of
calls. All predicates on runs are defined by recursion on that list, so that a
concrete run can be checked by evaluation.
-/

import Mathlib.Data.List.Basic

namespace ThreeW3.Lib

universe u v w

/-- A program seen from its callers, one call a step. -/
structure Machine (S : Type u) (A : Type v) where
  /-- The state before the first call. -/
  init : S
  /-- What the caller and the environment promise before a call. -/
  enabled : S → A → Prop
  /-- The effect of a call; `none` is a fault. -/
  step : S → A → Option S

namespace Machine

variable {S : Type u} {A : Type v} (M : Machine S A)

/-- The state after a list of calls, unless one of them faults. -/
def exec : S → List A → Option S
  | s, [] => some s
  | s, a :: as => (M.step s a).bind fun t => exec t as

/-- Every call of the run meets `C` in the state in which it is made. -/
def AllSteps (C : S → A → Prop) : S → List A → Prop
  | _, [] => True
  | s, a :: as => C s a ∧ ∀ t ∈ M.step s a, AllSteps C t as

/-- Every state the run passes through satisfies `P`, the first and the last included. -/
def AllStates (P : S → Prop) : S → List A → Prop
  | s, [] => P s
  | s, a :: as => P s ∧ ∀ t ∈ M.step s a, AllStates P t as

/-- Every call of the run keeps the promises of its caller. -/
abbrev Valid (s : S) (as : List A) : Prop := M.AllSteps M.enabled s as

instance decidableAllSteps (C : S → A → Prop) [∀ s a, Decidable (C s a)] :
    ∀ s as, Decidable (M.AllSteps C s as)
  | _, [] => isTrue trivial
  | s, a :: as =>
      have : ∀ t, Decidable (M.AllSteps C t as) := fun t => decidableAllSteps C t as
      inferInstanceAs (Decidable (C s a ∧ ∀ t ∈ M.step s a, M.AllSteps C t as))

instance decidableAllStates (P : S → Prop) [∀ s, Decidable (P s)] :
    ∀ s as, Decidable (M.AllStates P s as)
  | s, [] => inferInstanceAs (Decidable (P s))
  | s, a :: as =>
      have : ∀ t, Decidable (M.AllStates P t as) := fun t => decidableAllStates P t as
      inferInstanceAs (Decidable (P s ∧ ∀ t ∈ M.step s a, M.AllStates P t as))

/-- Some state the run passes through satisfies `P`. -/
def SomeState (P : S → Prop) : S → List A → Prop
  | s, [] => P s
  | s, a :: as => P s ∨ ∃ t ∈ M.step s a, SomeState P t as

variable {M}

@[simp]
theorem exec_nil (s : S) : M.exec s [] = some s := rfl

theorem exec_cons_of_step {s t : S} {a : A} (hstep : M.step s a = some t) (as : List A) :
    M.exec s (a :: as) = M.exec t as := by
  simp [exec, hstep]

theorem exec_append (s : S) (as bs : List A) :
    M.exec s (as ++ bs) = (M.exec s as).bind fun t => M.exec t bs := by
  induction as generalizing s with
  | nil => rfl
  | cons a as ih =>
      cases hstep : M.step s a with
      | none => simp [exec, hstep]
      | some t => simp [exec, hstep, ih]

@[simp]
theorem allSteps_nil (C : S → A → Prop) (s : S) : M.AllSteps C s [] := trivial

theorem allSteps_cons_of_step {C : S → A → Prop} {s t : S} {a : A}
    (hstep : M.step s a = some t) {as : List A} :
    M.AllSteps C s (a :: as) ↔ C s a ∧ M.AllSteps C t as := by
  simp [AllSteps, hstep]

theorem allSteps_append (C : S → A → Prop) (s : S) (as bs : List A) :
    M.AllSteps C s (as ++ bs) ↔
      M.AllSteps C s as ∧ ∀ t ∈ M.exec s as, M.AllSteps C t bs := by
  induction as generalizing s with
  | nil => simp
  | cons a as ih =>
      cases hstep : M.step s a with
      | none => simp [AllSteps, exec, hstep]
      | some t => simp [AllSteps, exec, hstep, ih, and_assoc]

theorem allStates_cons_of_step {P : S → Prop} {s t : S} {a : A}
    (hstep : M.step s a = some t) {as : List A} :
    M.AllStates P s (a :: as) ↔ P s ∧ M.AllStates P t as := by
  simp [AllStates, hstep]

theorem AllStates.head {P : S → Prop} {s : S} {as : List A} (h : M.AllStates P s as) : P s := by
  cases as with
  | nil => exact h
  | cons a as => exact h.1

theorem AllStates.mono {P Q : S → Prop} (himp : ∀ s, P s → Q s) {s : S} {as : List A}
    (h : M.AllStates P s as) : M.AllStates Q s as := by
  induction as generalizing s with
  | nil => exact himp s h
  | cons a as ih => exact ⟨himp s h.1, fun t ht => ih (h.2 t ht)⟩

theorem AllStates.and {P Q : S → Prop} {s : S} {as : List A} (hP : M.AllStates P s as)
    (hQ : M.AllStates Q s as) : M.AllStates (fun t => P t ∧ Q t) s as := by
  induction as generalizing s with
  | nil => exact ⟨hP, hQ⟩
  | cons a as ih => exact ⟨⟨hP.1, hQ.1⟩, fun t ht => ih (hP.2 t ht) (hQ.2 t ht)⟩

/-- What holds in every state holds after every step. -/
theorem AllStates.after {P : S → Prop} {s : S} {as : List A} (h : M.AllStates P s as) :
    M.AllSteps (fun s a => ∀ t ∈ M.step s a, P t) s as := by
  induction as generalizing s with
  | nil => trivial
  | cons a as ih => exact ⟨fun t ht => (h.2 t ht).head, fun t ht => ih (h.2 t ht)⟩

theorem AllSteps.and {C D : S → A → Prop} {s : S} {as : List A}
    (hC : M.AllSteps C s as) (hD : M.AllSteps D s as) :
    M.AllSteps (fun s a => C s a ∧ D s a) s as := by
  induction as generalizing s with
  | nil => trivial
  | cons a as ih => exact ⟨⟨hC.1, hD.1⟩, fun t ht => ih (hC.2 t ht) (hD.2 t ht)⟩

theorem AllSteps.mono {C D : S → A → Prop} (himp : ∀ s a, C s a → D s a) {s : S} {as : List A}
    (h : M.AllSteps C s as) : M.AllSteps D s as := by
  induction as generalizing s with
  | nil => trivial
  | cons a as ih => exact ⟨himp s a h.1, fun t ht => ih (h.2 t ht)⟩

/-- The invariant rule. If every enabled call that meets `G` succeeds and keeps
`I`, then a run whose calls all meet `G` never faults and never leaves `I`. -/
theorem run_invariant {I : S → Prop} {G : S → A → Prop}
    (hkeep : ∀ s a, I s → M.enabled s a → G s a → ∃ t, M.step s a = some t ∧ I t)
    {s : S} (hinit : I s) {as : List A}
    (hvalid : M.Valid s as) (hguard : M.AllSteps G s as) :
    (∃ t, M.exec s as = some t ∧ I t) ∧ M.AllStates I s as := by
  induction as generalizing s with
  | nil => exact ⟨⟨s, rfl, hinit⟩, hinit⟩
  | cons a as ih =>
      obtain ⟨t, hstep, ht⟩ := hkeep s a hinit hvalid.1 hguard.1
      obtain ⟨hexec, hall⟩ := ih ht (hvalid.2 t hstep) (hguard.2 t hstep)
      rw [exec_cons_of_step hstep, allStates_cons_of_step hstep]
      exact ⟨hexec, hinit, hall⟩

/-- What the steps that meet a condition keep holds along every run of such steps, also of one
that may fault. -/
theorem allStates_of_guard {I : S → Prop} {G : S → A → Prop}
    (hkeep : ∀ s a t, I s → G s a → M.step s a = some t → I t)
    {s : S} (hinit : I s) {as : List A} (hguard : M.AllSteps G s as) : M.AllStates I s as := by
  induction as generalizing s with
  | nil => exact hinit
  | cons a as ih =>
      refine ⟨hinit, fun t ht => ?_⟩
      exact ih (hkeep s a t hinit hguard.1 ht) (hguard.2 t ht)

/-- The invariant rule for runs that may fault: the states up to the fault are in `I`. -/
theorem allStates_of_keeps {I : S → Prop} {G : S → A → Prop}
    (hkeep : ∀ s a t, I s → M.enabled s a → G s a → M.step s a = some t → I t)
    {s : S} (hinit : I s) {as : List A}
    (hvalid : M.Valid s as) (hguard : M.AllSteps G s as) : M.AllStates I s as :=
  allStates_of_guard (fun s a t h hg => hkeep s a t h hg.1 hg.2) hinit (hvalid.and hguard)

/-- A fact about one step of an invariant state holds of every step of a run that may fault. -/
theorem allSteps_of_keeps {I : S → Prop} {G C : S → A → Prop}
    (hkeep : ∀ s a t, I s → M.enabled s a → G s a → M.step s a = some t → I t)
    (hstep : ∀ s a, I s → M.enabled s a → G s a → C s a)
    {s : S} (hinit : I s) {as : List A}
    (hvalid : M.Valid s as) (hguard : M.AllSteps G s as) : M.AllSteps C s as := by
  induction as generalizing s with
  | nil => trivial
  | cons a as ih =>
      refine ⟨hstep s a hinit hvalid.1 hguard.1, fun t ht => ?_⟩
      exact ih (hkeep s a t hinit hvalid.1 hguard.1 ht) (hvalid.2 t ht) (hguard.2 t ht)

/-- What holds of a call in any state holds along a run. -/
theorem allSteps_of_forall {C : S → A → Prop} {as : List A} (h : ∀ a ∈ as, ∀ s, C s a) (s : S) :
    M.AllSteps C s as := by
  induction as generalizing s with
  | nil => trivial
  | cons a as ih =>
      exact ⟨h a List.mem_cons_self s, fun t _ => ih (fun b hb => h b (List.mem_cons_of_mem a hb)) t⟩

/-- Under the invariant rule a fact about one step of an invariant state holds
of every step of the run. -/
theorem allSteps_of_invariant {I : S → Prop} {G C : S → A → Prop}
    (hkeep : ∀ s a, I s → M.enabled s a → G s a → ∃ t, M.step s a = some t ∧ I t)
    (hstep : ∀ s a, I s → M.enabled s a → G s a → C s a)
    {s : S} (hinit : I s) {as : List A}
    (hvalid : M.Valid s as) (hguard : M.AllSteps G s as) : M.AllSteps C s as := by
  induction as generalizing s with
  | nil => trivial
  | cons a as ih =>
      refine ⟨hstep s a hinit hvalid.1 hguard.1, fun t ht => ?_⟩
      obtain ⟨t', ht', hI⟩ := hkeep s a hinit hvalid.1 hguard.1
      obtain rfl : t' = t := Option.some.inj (ht'.symm.trans ht)
      exact ih hI (hvalid.2 t' ht) (hguard.2 t' ht)

/-- The exact guard of a property. If the calls that meet `G` keep `I`, and a
call that does not meet it leaves `P`, then the runs that stay in `P` are those
whose calls all meet `G`. -/
theorem run_iff_guard {I P : S → Prop} {G : S → A → Prop} (himp : ∀ s, I s → P s)
    (hkeep : ∀ s a, I s → M.enabled s a → G s a → ∃ t, M.step s a = some t ∧ I t)
    (hbreak : ∀ s a, I s → M.enabled s a → ¬ G s a → ∀ t ∈ M.step s a, ¬ P t)
    {s : S} (hinit : I s) {as : List A} (hvalid : M.Valid s as) :
    ((∃ t, M.exec s as = some t) ∧ M.AllStates P s as) ↔ M.AllSteps G s as := by
  constructor
  · rintro ⟨⟨u, hexec⟩, hall⟩
    induction as generalizing s with
    | nil => trivial
    | cons a as ih =>
        obtain ⟨t, hstep, hrest⟩ := Option.bind_eq_some_iff.mp hexec
        rw [allStates_cons_of_step hstep] at hall
        have hG : G s a := by
          by_contra hG
          exact hbreak s a hinit hvalid.1 hG t hstep hall.2.head
        obtain ⟨t', hstep', ht'⟩ := hkeep s a hinit hvalid.1 hG
        obtain rfl : t' = t := Option.some.inj (hstep'.symm.trans hstep)
        rw [allSteps_cons_of_step hstep]
        exact ⟨hG, ih ht' (hvalid.2 t' hstep) hall.2 hrest⟩
  · intro hguard
    obtain ⟨⟨t, hexec, _⟩, hall⟩ := run_invariant hkeep hinit hvalid hguard
    exact ⟨⟨t, hexec⟩, hall.mono himp⟩

/-- The exact guard of a property of states. If the calls that meet `G` keep `I`, and a call
that does not meet it leaves `P`, then the runs that stay in `P` are those whose calls all
meet `G`. -/
theorem allStates_iff_guard {I P : S → Prop} {G : S → A → Prop} (himp : ∀ s, I s → P s)
    (hkeep : ∀ s a, I s → M.enabled s a → G s a → ∃ t, M.step s a = some t ∧ I t)
    (hbreak : ∀ s a, I s → M.enabled s a → ¬ G s a → ∃ t, M.step s a = some t ∧ ¬ P t)
    {s : S} (hinit : I s) {as : List A} (hvalid : M.Valid s as) :
    M.AllStates P s as ↔ M.AllSteps G s as := by
  constructor
  · intro hall
    induction as generalizing s with
    | nil => trivial
    | cons a as ih =>
        have hG : G s a := by
          by_contra hG
          obtain ⟨t, hstep, hP⟩ := hbreak s a hinit hvalid.1 hG
          exact hP (hall.2 t hstep).head
        obtain ⟨t, hstep, ht⟩ := hkeep s a hinit hvalid.1 hG
        rw [allSteps_cons_of_step hstep]
        exact ⟨hG, ih ht (hvalid.2 t hstep) (hall.2 t hstep)⟩
  · intro hguard
    exact (run_invariant hkeep hinit hvalid hguard).2.mono himp

/-- The exact guard of a property of steps. If the calls that meet `G` keep `I`, and `P` says
the same as `G` of a call in an invariant state, then the runs whose calls all have `P` are
those whose calls all meet `G`. -/
theorem allSteps_iff_guard {I : S → Prop} {G P : S → A → Prop}
    (hkeep : ∀ s a, I s → M.enabled s a → G s a → ∃ t, M.step s a = some t ∧ I t)
    (hiff : ∀ s a, I s → M.enabled s a → (P s a ↔ G s a))
    {s : S} (hinit : I s) {as : List A} (hvalid : M.Valid s as) :
    M.AllSteps P s as ↔ M.AllSteps G s as := by
  induction as generalizing s with
  | nil => exact Iff.rfl
  | cons a as ih =>
      rw [AllSteps, AllSteps, hiff s a hinit hvalid.1]
      apply and_congr_right
      intro hG
      obtain ⟨t, hstep, ht⟩ := hkeep s a hinit hvalid.1 hG
      simp only [hstep, Option.mem_def, Option.some.injEq, forall_eq']
      exact ih ht (hvalid.2 t hstep)

/-- The states of the second part of a run. -/
theorem AllStates.of_append {P : S → Prop} {s t : S} {as bs : List A}
    (h : M.AllStates P s (as ++ bs)) (hexec : M.exec s as = some t) : M.AllStates P t bs := by
  induction as generalizing s with
  | nil =>
      obtain rfl : s = t := Option.some.inj hexec
      exact h
  | cons a as ih =>
      obtain ⟨u, hstep, hrest⟩ := Option.bind_eq_some_iff.mp hexec
      exact ih (h.2 u hstep) hrest

/-- The state after a run has what all states of the run have. -/
theorem AllStates.last {P : S → Prop} {s t : S} {as : List A} (h : M.AllStates P s as)
    (hexec : M.exec s as = some t) : P t := by
  rw [← List.append_nil as] at h
  exact (h.of_append hexec).head

/-- What a call cannot restore holds all along a run that has it at the end. -/
theorem allStates_of_last {I P : S → Prop}
    (hkeep : ∀ s a, I s → M.enabled s a → ∃ t, M.step s a = some t ∧ I t ∧ (P t → P s))
    {s : S} (hinit : I s) {as : List A} (hvalid : M.Valid s as) :
    ∃ t, M.exec s as = some t ∧ (P t → M.AllStates P s as) := by
  induction as generalizing s with
  | nil => exact ⟨s, rfl, id⟩
  | cons a as ih =>
      obtain ⟨t, hstep, ht, hback⟩ := hkeep s a hinit hvalid.1
      obtain ⟨u, hexec, hall⟩ := ih ht (hvalid.2 t hstep)
      refine ⟨u, (exec_cons_of_step hstep as).trans hexec, fun hu => ?_⟩
      rw [allStates_cons_of_step hstep]
      exact ⟨hback (hall hu).head, hall hu⟩

theorem allStates_of_forall {P : S → Prop} (h : ∀ s, P s) (s : S) (as : List A) :
    M.AllStates P s as := by
  induction as generalizing s with
  | nil => exact h s
  | cons a as ih => exact ⟨h s, fun t _ => ih t⟩

/-- What holds throughout for each of many holds for all of them throughout. -/
theorem allStates_forall {X : Type*} {P : X → S → Prop} {s : S} {as : List A}
    (h : ∀ x, M.AllStates (P x) s as) : M.AllStates (fun t => ∀ x, P x t) s as := by
  induction as generalizing s with
  | nil => exact h
  | cons a as ih => exact ⟨fun x => (h x).1, fun t ht => ih fun x => (h x).2 t ht⟩

/-- A state of a run that satisfies `P x` is some state of the run. -/
theorem allStates_of_someState {X : Type*} {P : X → S → Prop} {R : X → Prop} {s : S}
    {as : List A} (h : ∀ x, M.SomeState (P x) s as → R x) :
    M.AllStates (fun t => ∀ x, P x t → R x) s as := by
  induction as generalizing s with
  | nil => exact h
  | cons a as ih =>
      exact ⟨fun x hx => h x (.inl hx), fun t ht => ih fun x hx => h x (.inr ⟨t, ht, hx⟩)⟩

/-- The last call of a run meets what all calls of the run meet. -/
theorem AllSteps.last {C : S → A → Prop} {s t : S} {as : List A} {a : A}
    (h : M.AllSteps C s (as ++ [a])) (hexec : M.exec s as = some t) : C t a := by
  induction as generalizing s with
  | nil =>
      obtain rfl : s = t := Option.some.inj hexec
      exact h.1
  | cons b as ih =>
      obtain ⟨u, hstep, hrest⟩ := Option.bind_eq_some_iff.mp hexec
      exact ih (h.2 u hstep) hrest

/-! ## Records of runs -/

section Recorded

variable {H : Type w}

/-- The machine with a record of what has happened, which its steps do not read. -/
def recorded (M : Machine S A) (note : S → A → H → H) (h : H) : Machine (S × H) A where
  init := (M.init, h)
  enabled s a := M.enabled s.1 a
  step s a := (M.step s.1 a).map fun t => (t, note s.1 a s.2)

variable {note : S → A → H → H} {h₀ : H}

/-- The record adds no runs, and says nothing of the steps themselves. -/
theorem recorded_allSteps {C : S → A → Prop} {s : S × H} {as : List A} :
    (M.recorded note h₀).AllSteps (fun s a => C s.1 a) s as ↔ M.AllSteps C s.1 as := by
  induction as generalizing s with
  | nil => exact Iff.rfl
  | cons a as ih =>
      cases hstep : M.step s.1 a with
      | none => simp [AllSteps, recorded, hstep]
      | some t =>
          have hnoted : (M.recorded note h₀).step s a = some (t, note s.1 a s.2) := by
            simp [recorded, hstep]
          rw [allSteps_cons_of_step hstep, allSteps_cons_of_step hnoted, ih]

end Recorded

end Machine

end ThreeW3.Lib
