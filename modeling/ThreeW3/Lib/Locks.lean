/-
# Threads and their locks

Threads run pieces of code and share locks. In a section of a *short* lock the thread takes no
other lock and does not wait for anybody; every other lock is taken by one thread only. Then a
thread that has to wait for a lock waits for a thread that gives it back with its very next
steps, whatever the others do and whatever they wait for.
-/

import Mathlib.Data.List.Basic
import Mathlib.Logic.Function.Basic
import ThreeW3.Lib.Machine

namespace ThreeW3.Lib

universe u v w

/-- A piece of code as far as locks go: `work` is over when the thread runs, and `wait`, a
system call, when somebody else lets it be. -/
inductive Instr (X : Type v)
  | acquire (x : X)
  | release (x : X)
  | work
  | wait
  deriving DecidableEq

namespace Instr

variable {X : Type v}

/-- A section under a lock. -/
def locked (x : X) (n : ℕ) : List (Instr X) :=
  .acquire x :: (List.replicate n .work ++ [.release x])

section Proper

variable (Short : X → Prop) (own : X → Prop)

/-- The code keeps to the rules, with these locks held, the last one taken first: it gives back
what it takes in reverse order, and under a short lock it only works. -/
def Proper : List X → List (Instr X) → Prop
  | held, [] => held = []
  | held, .acquire x :: c =>
      x ∉ held ∧ (∀ y ∈ held, ¬ Short y) ∧ (Short x ∨ own x) ∧ Proper (x :: held) c
  | held, .release x :: c => ∃ rest, held = x :: rest ∧ Proper rest c
  | held, .work :: c => Proper held c
  | held, .wait :: c => (∀ y ∈ held, ¬ Short y) ∧ Proper held c

end Proper

variable {Short : X → Prop} {own : X → Prop} {held : List X} {x : X} {a c : List (Instr X)}

theorem proper_work (n : ℕ) (hc : Proper Short own held c) :
    Proper Short own held (List.replicate n .work ++ c) := by
  induction n with
  | zero => exact hc
  | succ n ih => exact ih

theorem proper_wait (n : ℕ) (hheld : ∀ y ∈ held, ¬ Short y) (hc : Proper Short own held c) :
    Proper Short own held (List.replicate n .wait ++ c) := by
  induction n with
  | zero => exact hc
  | succ n ih => exact ⟨hheld, ih⟩

/-- A section of a short lock, under locks that are not short. -/
theorem proper_locked (hshort : Short x) (n : ℕ) (hheld : ∀ y ∈ held, ¬ Short y)
    (hc : Proper Short own held c) : Proper Short own held (locked x n ++ c) := by
  refine ⟨fun hx => hheld x hx hshort, hheld, .inl hshort, ?_⟩
  rw [List.append_eq, List.append_assoc]
  exact proper_work n ⟨held, rfl, hc⟩

/-- Sections of a short lock, one after another. -/
theorem proper_sections (hshort : Short x) (ns : List ℕ) (hheld : ∀ y ∈ held, ¬ Short y)
    (hc : Proper Short own held c) : Proper Short own held (ns.flatMap (locked x) ++ c) := by
  induction ns with
  | nil => exact hc
  | cons n ns ih =>
      rw [List.flatMap_cons, List.append_assoc]
      exact proper_locked hshort n hheld ih

/-- Code under no lock may follow other code. -/
theorem Proper.append (ha : Proper Short own held a) (hc : Proper Short own [] c) :
    Proper Short own held (a ++ c) := by
  induction a generalizing held with
  | nil =>
      obtain rfl : held = [] := ha
      exact hc
  | cons i a ih =>
      cases i with
      | acquire x => exact ⟨ha.1, ha.2.1, ha.2.2.1, ih ha.2.2.2⟩
      | release x =>
          obtain ⟨rest, rfl, hrest⟩ := ha
          exact ⟨rest, rfl, ih hrest⟩
      | work => exact ih ha
      | wait => exact ⟨ha.1, ih ha.2⟩

theorem Proper.flatMap {α : Type u} {f : α → List (Instr X)} {l : List α}
    (hf : ∀ a ∈ l, Proper Short own [] (f a)) : Proper Short own [] (l.flatMap f) := by
  induction l with
  | nil => exact rfl
  | cons a l ih =>
      rw [List.flatMap_cons]
      exact (hf a List.mem_cons_self).append (ih fun b hb => hf b (List.mem_cons_of_mem a hb))

end Instr

/-! ## Threads -/

/-- Who holds each lock, and what each thread has still to run of its call. -/
structure Threads (T : Type u) (X : Type v) where
  owner : X → Option T
  code : T → List (Instr X)

namespace Threads

variable {T : Type u} {X : Type v} {C : Type w}

/-- A thread makes a call, or runs an instruction of it. -/
inductive Act (T : Type u) (C : Type w)
  | begin (call : C)
  | run (t : T)
  deriving DecidableEq

/-- No lock is held, and no call is made. -/
def idle : Threads T X := ⟨fun _ => none, fun _ => []⟩

/-- The thread has to wait for the lock, which another one holds. -/
def Waits (s : Threads T X) (t : T) (x : X) (u : T) : Prop :=
  (∃ c, s.code t = .acquire x :: c) ∧ s.owner x = some u

/-- The thread need not wait. -/
def MayRun (s : Threads T X) (t : T) : Prop :=
  match s.code t with
  | .acquire x :: _ => s.owner x = none
  | _ => True

variable [DecidableEq T] [DecidableEq X]

instance (s : Threads T X) (t : T) : Decidable (s.MayRun t) :=
  match h : s.code t with
  | .acquire x :: _ =>
      decidable_of_iff (s.owner x = none) (by simp only [MayRun, h])
  | .release _ :: _ | .work :: _ | .wait :: _ | [] => .isTrue (by simp only [MayRun, h])

/-- The next instruction of a thread. To give back a lock that it does not hold is a fault. -/
def run (s : Threads T X) (t : T) : Option (Threads T X) :=
  match s.code t with
  | [] => some s
  | .acquire x :: c =>
      some ⟨Function.update s.owner x (some t), Function.update s.code t c⟩
  | .release x :: c =>
      if s.owner x = some t then
        some ⟨Function.update s.owner x none, Function.update s.code t c⟩
      else none
  | .work :: c => some { s with code := Function.update s.code t c }
  | .wait :: c => some { s with code := Function.update s.code t c }

/-- The threads, which make their calls one after another and take only locks that are free. -/
def machine (caller : C → T) (code : C → List (Instr X)) : Machine (Threads T X) (Act T C) where
  init := idle
  enabled s
    | .begin call => s.code (caller call) = []
    | .run t => s.MayRun t
  step s
    | .begin call => some { s with code := Function.update s.code (caller call) (code call) }
    | .run t => s.run t

instance (caller : C → T) (code : C → List (Instr X)) (s : Threads T X) :
    DecidablePred ((machine caller code).enabled s)
  | .begin call => inferInstanceAs (Decidable (s.code (caller call) = []))
  | .run t => inferInstanceAs (Decidable (s.MayRun t))

/-! ## The rules are kept -/

section Rules

variable (Short : X → Prop) (own : T → X → Prop)

/-- What each thread holds, and that it goes on by the rules. -/
structure Kept (s : Threads T X) (held : T → List X) : Prop where
  proper : ∀ t, Instr.Proper Short (own t) (held t) (s.code t)
  owner_iff : ∀ x t, s.owner x = some t ↔ x ∈ held t
  nodup : ∀ t, (held t).Nodup
  allowed : ∀ t, ∀ x ∈ held t, Short x ∨ own t x
  top : ∀ t, ∀ y ∈ (held t).tail, ¬ Short y

end Rules

variable {Short : X → Prop} {own : T → X → Prop} {s s' : Threads T X} {held : T → List X} {t u : T}
  {x : X} {c : List (Instr X)}

omit [DecidableEq T] [DecidableEq X] in
theorem Kept.idle : Kept Short own (idle : Threads T X) fun _ => [] where
  proper _ := rfl
  owner_iff x t := by simp [Threads.idle]
  nodup _ := List.nodup_nil
  allowed _ _ hx := absurd hx List.not_mem_nil
  top _ _ hy := absurd hy List.not_mem_nil

omit [DecidableEq X] in
/-- The code of a thread becomes other code by the rules, with the same locks. -/
theorem Kept.goOn (h : Kept Short own s held) (hc : Instr.Proper Short (own t) (held t) c) :
    Kept Short own { s with code := Function.update s.code t c } held where
  proper u := by
    by_cases hu : u = t
    · subst hu
      simpa using hc
    · simpa [hu] using h.proper u
  owner_iff := h.owner_iff
  nodup := h.nodup
  allowed := h.allowed
  top := h.top

theorem Kept.acquire (h : Kept Short own s held) (hcode : s.code t = .acquire x :: c)
    (hfree : s.owner x = none) :
    Kept Short own ⟨Function.update s.owner x (some t), Function.update s.code t c⟩
      (Function.update held t (x :: held t)) := by
  obtain ⟨hnew, hshort, hmay, hc⟩ : Instr.Proper Short (own t) (held t) (.acquire x :: c) :=
    hcode ▸ h.proper t
  have hnone : ∀ v, x ∉ held v := fun v hv => by
    rw [← h.owner_iff, hfree] at hv
    cases hv
  constructor
  · intro v
    by_cases hv : v = t
    · subst hv
      simpa using hc
    · simpa [hv] using h.proper v
  · intro y v
    by_cases hy : y = x
    · subst hy
      by_cases hv : v = t
      · simp [hv]
      · simp [hv, hnone v, Ne.symm hv]
    · by_cases hv : v = t
      · subst hv
        simp [hy, h.owner_iff]
      · simp [hy, hv, h.owner_iff]
  · intro v
    by_cases hv : v = t
    · subst hv
      simpa using ⟨hnew, h.nodup v⟩
    · simpa [hv] using h.nodup v
  · intro v y hy
    by_cases hv : v = t
    · subst hv
      rw [Function.update_self, List.mem_cons] at hy
      rcases hy with rfl | hy
      · exact hmay
      · exact h.allowed v y hy
    · rw [Function.update_of_ne hv] at hy
      exact h.allowed v y hy
  · intro v y hy
    by_cases hv : v = t
    · subst hv
      rw [Function.update_self] at hy
      exact hshort y hy
    · rw [Function.update_of_ne hv] at hy
      exact h.top v y hy

theorem Kept.release (h : Kept Short own s held) (hcode : s.code t = .release x :: c) :
    s.owner x = some t ∧ ∃ rest, held t = x :: rest ∧
      Kept Short own ⟨Function.update s.owner x none, Function.update s.code t c⟩
        (Function.update held t rest) := by
  obtain ⟨rest, hheld, hc⟩ : Instr.Proper Short (own t) (held t) (.release x :: c) :=
    hcode ▸ h.proper t
  have howner : s.owner x = some t := by
    rw [h.owner_iff, hheld]
    exact List.mem_cons_self
  have hnodup := h.nodup t
  rw [hheld, List.nodup_cons] at hnodup
  have hsub : ∀ y ∈ rest, y ∈ held t := fun y hy => hheld ▸ List.mem_cons_of_mem x hy
  refine ⟨howner, rest, hheld, ?_, ?_, ?_, ?_, ?_⟩
  · intro v
    by_cases hv : v = t
    · subst hv
      simpa using hc
    · simpa [hv] using h.proper v
  · intro y v
    by_cases hy : y = x
    · subst hy
      by_cases hv : v = t
      · simpa [hv] using hnodup.1
      · have hother : y ∉ held v := fun hmem => by
          rw [← h.owner_iff, howner] at hmem
          exact hv (Option.some.inj hmem).symm
        simpa [hv] using hother
    · by_cases hv : v = t
      · subst hv
        simp [hy, h.owner_iff, hheld]
      · simp [hy, hv, h.owner_iff]
  · intro v
    by_cases hv : v = t
    · subst hv
      simpa using hnodup.2
    · simpa [hv] using h.nodup v
  · intro v y hy
    by_cases hv : v = t
    · subst hv
      rw [Function.update_self] at hy
      exact h.allowed v y (hsub y hy)
    · rw [Function.update_of_ne hv] at hy
      exact h.allowed v y hy
  · intro v y hy
    by_cases hv : v = t
    · subst hv
      rw [Function.update_self] at hy
      exact h.top v y (by rw [hheld]; exact List.mem_of_mem_tail hy)
    · rw [Function.update_of_ne hv] at hy
      exact h.top v y hy

/-- A thread that need not wait runs its next instruction. -/
theorem Kept.run (h : Kept Short own s held) (hfree : s.MayRun t) :
    ∃ s' held', s.run t = some s' ∧ Kept Short own s' held' := by
  cases hcode : s.code t with
  | nil => exact ⟨s, held, by simp only [Threads.run, hcode], h⟩
  | cons i c =>
      cases i with
      | acquire x =>
          have hnone : s.owner x = none := by
            rwa [MayRun, hcode] at hfree
          exact ⟨_, _, by simp only [Threads.run, hcode], h.acquire hcode hnone⟩
      | release x =>
          obtain ⟨howner, rest, -, hkept⟩ := h.release hcode
          exact ⟨_, _, by simp only [Threads.run, hcode, if_pos howner], hkept⟩
      | work =>
          have hc : Instr.Proper Short (own t) (held t) (.work :: c) := hcode ▸ h.proper t
          exact ⟨_, held, by simp only [Threads.run, hcode], h.goOn (c := c) hc⟩
      | wait =>
          have hc : Instr.Proper Short (own t) (held t) (.wait :: c) := hcode ▸ h.proper t
          exact ⟨_, held, by simp only [Threads.run, hcode], h.goOn (c := c) hc.2⟩

/-! ## Waiting is short -/

omit [DecidableEq T] [DecidableEq X] in
/-- A thread waits only for short locks, and the one that it waits for has taken no lock since. -/
theorem Kept.waits (h : Kept Short own s held)
    (hown : ∀ x t u, own t x → own u x → t = u) (hwaits : s.Waits t x u) :
    Short x ∧ ∃ rest, held u = x :: rest := by
  obtain ⟨⟨c, hcode⟩, howner⟩ := hwaits
  obtain ⟨hnew, -, hmay, -⟩ : Instr.Proper Short (own t) (held t) (.acquire x :: c) :=
    hcode ▸ h.proper t
  have hmem : x ∈ held u := (h.owner_iff x u).mp howner
  have hshort : Short x := by
    by_contra hnot
    have htu : t = u := hown x t u (hmay.resolve_left hnot) ((h.allowed u x hmem).resolve_left hnot)
    exact hnew (htu ▸ hmem)
  refine ⟨hshort, ?_⟩
  cases hheld : held u with
  | nil => simp [hheld] at hmem
  | cons y rest =>
      rw [hheld, List.mem_cons] at hmem
      rcases hmem with rfl | hmem
      · exact ⟨rest, rfl⟩
      · exact absurd hshort (h.top u x (by rwa [hheld]))

variable {caller : C → T} {code : C → List (Instr X)}

/-- The holder of a short lock only works until it gives the lock back. -/
theorem Kept.gives_back (h : Kept Short own s held)
    (hshort : Short x) {rest : List X} (hheld : held u = x :: rest) :
    ∃ n s', n ≤ (s.code u).length ∧ (∀ i ∈ (s.code u).take n, i ≠ .wait) ∧
      (machine caller code).Valid s (List.replicate n (.run u)) ∧
      (machine caller code).exec s (List.replicate n (.run u)) = some s' ∧ s'.owner x = none := by
  have hmem : x ∈ held u := hheld ▸ List.mem_cons_self
  generalize hlength : (s.code u).length = k
  induction k generalizing s with
  | zero =>
      have hproper := h.proper u
      rw [List.eq_nil_of_length_eq_zero hlength, hheld] at hproper
      cases hproper
  | succ k ih =>
      obtain ⟨i, c, hcode⟩ := List.exists_cons_of_length_eq_add_one hlength
      have hproper := h.proper u
      rw [hcode] at hproper
      cases i with
      | acquire y => exact absurd hshort (hproper.2.1 x hmem)
      | wait => exact absurd hshort (hproper.1 x hmem)
      | release y =>
          obtain ⟨howner, rest', hheld', -⟩ := h.release hcode
          obtain ⟨rfl, -⟩ := List.cons_eq_cons.mp (hheld.symm.trans hheld')
          have hstep : (machine caller code).step s (.run u) =
              some ⟨Function.update s.owner x none, Function.update s.code u c⟩ := by
            simp only [machine, Threads.run, hcode, if_pos howner]
          refine ⟨1, _, by omega, ?_, ?_, (Machine.exec_cons_of_step hstep []).trans rfl, ?_⟩
          · simp [hcode]
          · exact (Machine.allSteps_cons_of_step hstep).mpr
              ⟨by simp only [machine, MayRun, hcode], trivial⟩
          · exact Function.update_self ..
      | work =>
          have hstep : (machine caller code).step s (.run u) =
              some { s with code := Function.update s.code u c } := by
            simp only [machine, Threads.run, hcode]
          have hlength' : c.length = k := by
            rw [hcode, List.length_cons] at hlength
            omega
          obtain ⟨n, s', hn, hnone, hvalid, hexec, hfree⟩ :=
            ih (h.goOn (c := c) hproper) (by simpa using hlength')
          simp only [Function.update_self] at hnone
          refine ⟨n + 1, s', by omega, ?_, ?_, ?_, hfree⟩
          · rw [hcode, List.take_succ_cons]
            intro i hi
            rcases List.mem_cons.mp hi with rfl | hi
            · simp
            · exact hnone i hi
          · exact (Machine.allSteps_cons_of_step hstep).mpr
              ⟨by simp only [machine, MayRun, hcode], hvalid⟩
          · exact (Machine.exec_cons_of_step hstep _).trans hexec

/-! ## Runs -/

/-- Whoever holds a lock that another thread waits for does not wait in a system call, and gives
it back with its next steps, which nobody can hold up. -/
def Brief (caller : C → T) (code : C → List (Instr X)) (s : Threads T X) : Prop :=
  ∀ t x u, s.Waits t x u → ∃ n s', n ≤ (s.code u).length ∧
    (∀ i ∈ (s.code u).take n, i ≠ .wait) ∧
    (machine caller code).Valid s (List.replicate n (.run u)) ∧
    (machine caller code).exec s (List.replicate n (.run u)) = some s' ∧ s'.owner x = none

theorem Kept.brief (h : Kept Short own s held) (hown : ∀ x t u, own t x → own u x → t = u) :
    s.Brief caller code := by
  intro t x u hwaits
  obtain ⟨hshort, rest, hheld⟩ := h.waits hown hwaits
  exact h.gives_back hshort hheld

theorem Kept.step (h : Kept Short own s held)
    (hcode : ∀ call, Instr.Proper Short (own (caller call)) [] (code call)) {act : Act T C}
    (henabled : (machine caller code).enabled s act) :
    ∃ s', (machine caller code).step s act = some s' ∧ ∃ held', Kept Short own s' held' := by
  cases act with
  | run t =>
      obtain ⟨s', held', hrun, hkept⟩ := h.run henabled
      exact ⟨s', hrun, held', hkept⟩
  | begin call =>
      have hheld : held (caller call) = [] := by
        have hproper := h.proper (caller call)
        rwa [show s.code (caller call) = [] from henabled] at hproper
      exact ⟨_, rfl, held, h.goOn (by rw [hheld]; exact hcode call)⟩

/-- Threads whose calls keep to the rules never fault, and never wait for long. -/
theorem waiting_is_brief (hown : ∀ x t u, own t x → own u x → t = u)
    (hcode : ∀ call, Instr.Proper Short (own (caller call)) [] (code call))
    {acts : List (Act T C)} (hvalid : (machine caller code).Valid idle acts) :
    (∃ s, (machine caller code).exec idle acts = some s) ∧
      (machine caller code).AllStates (Brief caller code) idle acts := by
  have hkeep : ∀ s act, (∃ held, Kept Short own s held) → (machine caller code).enabled s act →
      True → ∃ s', (machine caller code).step s act = some s' ∧ ∃ held, Kept Short own s' held := by
    rintro s act ⟨held, h⟩ henabled -
    exact h.step hcode henabled
  obtain ⟨⟨s, hexec, -⟩, hall⟩ := Machine.run_invariant hkeep ⟨_, Kept.idle⟩ hvalid
    (Machine.allSteps_of_forall (fun _ _ _ => trivial) _)
  refine ⟨⟨s, hexec⟩, hall.mono ?_⟩
  rintro s ⟨held, h⟩
  exact h.brief hown

end Threads

end ThreeW3.Lib
