/-
# What runs cost

The calls of a run have a price each, and a run has their sum. A potential lets cheap calls
put aside what an expensive one needs, so that the sum stays below what the calls are
charged.
-/

import ThreeW3.Lib.Machine

namespace ThreeW3.Lib.Machine

universe u v

variable {S : Type u} {A : Type v} (M : Machine S A)

/-- The sum of what the calls of a run cost, each in the state in which it is made. -/
def total (cost : S → A → ℕ) : S → List A → ℕ
  | _, [] => 0
  | s, a :: as => cost s a + (M.step s a).elim 0 fun t => total cost t as

variable {M}

@[simp]
theorem total_nil (cost : S → A → ℕ) (s : S) : M.total cost s [] = 0 := rfl

theorem total_cons_of_step {cost : S → A → ℕ} {s t : S} {a : A} (hstep : M.step s a = some t)
    (as : List A) : M.total cost s (a :: as) = cost s a + M.total cost t as := by
  rw [total, hstep, Option.elim_some]

/-- The potential rule. If a call that meets `C` keeps `I`, and its cost with the potential
after it is covered by its charge with the potential before it, then the cost of a run is
covered by its charges with the potential at its start. -/
theorem total_le_of_potential {I : S → Prop} {C : S → A → Prop} (potential : S → ℕ)
    (cost charge : S → A → ℕ)
    (hpays : ∀ s a t, I s → C s a → M.step s a = some t →
      I t ∧ cost s a + potential t ≤ charge s a + potential s)
    {s t : S} (hinit : I s) {as : List A} (hguard : M.AllSteps C s as)
    (hexec : M.exec s as = some t) :
    M.total cost s as + potential t ≤ M.total charge s as + potential s := by
  induction as generalizing s with
  | nil =>
      obtain rfl : s = t := Option.some.inj hexec
      exact Nat.le_refl _
  | cons a as ih =>
      obtain ⟨u, hstep, hrest⟩ := Option.bind_eq_some_iff.mp hexec
      obtain ⟨hu, hpaid⟩ := hpays s a u hinit hguard.1 hstep
      have hlater := ih hu (hguard.2 u hstep) hrest
      rw [total_cons_of_step hstep, total_cons_of_step hstep]
      omega

/-- The invariant rule with a count. If every enabled call succeeds and keeps `I` with what it
costs added to the count, then no count on the way is more than the cost of the run. -/
theorem allStates_of_total {I : S → ℕ → Prop} {cost : S → A → ℕ}
    (hkeep : ∀ s a n, I s n → M.enabled s a → ∃ t, M.step s a = some t ∧ I t (n + cost s a))
    {s : S} {n : ℕ} (hinit : I s n) {as : List A} (hvalid : M.Valid s as) :
    M.AllStates (fun t => ∃ m ≤ n + M.total cost s as, I t m) s as := by
  induction as generalizing s n with
  | nil => exact ⟨n, Nat.le_refl _, hinit⟩
  | cons a as ih =>
      obtain ⟨t, hstep, ht⟩ := hkeep s a n hinit hvalid.1
      have hlater := ih ht (hvalid.2 t hstep)
      rw [total_cons_of_step hstep, allStates_cons_of_step hstep]
      refine ⟨⟨n, Nat.le_add_right _ _, hinit⟩, hlater.mono fun u ⟨m, hm, hu⟩ => ⟨m, ?_, hu⟩⟩
      rwa [Nat.add_assoc] at hm

/-- Two costs of a run, each taken so many times. -/
theorem total_add_mul (c d : S → A → ℕ) (m n : ℕ) (s : S) (as : List A) :
    M.total (fun s a => m * c s a + n * d s a) s as = m * M.total c s as + n * M.total d s as := by
  induction as generalizing s with
  | nil => rfl
  | cons a as ih =>
      cases hstep : M.step s a with
      | none => simp [total, hstep]
      | some t =>
          rw [total_cons_of_step hstep, total_cons_of_step hstep, total_cons_of_step hstep, ih,
            Nat.mul_add, Nat.mul_add]
          omega

end ThreeW3.Lib.Machine
