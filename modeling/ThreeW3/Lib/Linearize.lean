/-
# Linearizability

Calls of an object that overlap, seen from outside as a history of beginnings and ends. A
history is linearizable when its calls can be put into one sequential order that gives the
same answers and in which a call that ends before another begins comes first. An object
each of whose calls takes effect in one step between its beginning and its end has only
such histories: the order of these steps is the sequential one.
-/

import Mathlib.Data.List.Basic
import Mathlib.Data.List.Nodup
import Mathlib.Logic.Function.Basic

namespace ThreeW3.Lib.History

universe u v w

variable {S : Type u} {O : Type v} {A : Type w}

/-! ## Order in a list -/

section Before

variable {α : Type*} {l l' : List α} {x y : α}

/-- `x` stands somewhere before `y`. -/
def Before (l : List α) (x y : α) : Prop := ∃ l₁ l₂, l = l₁ ++ l₂ ∧ x ∈ l₁ ∧ y ∈ l₂

theorem Before.mem (h : Before l x y) : x ∈ l ∧ y ∈ l := by
  obtain ⟨l₁, l₂, rfl, hx, hy⟩ := h
  exact ⟨List.mem_append_left _ hx, List.mem_append_right _ hy⟩

theorem Before.append (h : Before l x y) (l' : List α) : Before (l ++ l') x y := by
  obtain ⟨l₁, l₂, rfl, hx, hy⟩ := h
  exact ⟨l₁, l₂ ++ l', List.append_assoc _ _ _, hx, List.mem_append_left _ hy⟩

theorem before_concat (hx : x ∈ l) : Before (l ++ [y]) x y :=
  ⟨l, [y], rfl, hx, List.mem_singleton.mpr rfl⟩

/-- What stands before what after one more element. -/
theorem before_concat_iff {z : α} : Before (l ++ [z]) x y ↔ Before l x y ∨ (x ∈ l ∧ y = z) := by
  constructor
  · rintro ⟨l₁, l₂, heq, hx, hy⟩
    rcases List.eq_nil_or_concat l₂ with rfl | ⟨l₃, w, rfl⟩
    · cases hy
    rw [List.concat_eq_append, ← List.append_assoc] at heq
    obtain ⟨rfl, hw⟩ := List.append_inj' heq rfl
    obtain rfl := List.singleton_inj.mp hw
    rw [List.concat_eq_append, List.mem_append, List.mem_singleton] at hy
    rcases hy with hy | rfl
    · exact .inl ⟨l₁, l₃, rfl, hx, hy⟩
    · exact .inr ⟨List.mem_append_left _ hx, rfl⟩
  · rintro (h | ⟨hx, rfl⟩)
    · exact h.append _
    · exact before_concat hx

/-- What is between them. -/
theorem Before.split (h : Before l x y) : ∃ l₁ l₂ l₃, l = l₁ ++ x :: (l₂ ++ y :: l₃) := by
  obtain ⟨l₁, l₂, rfl, hx, hy⟩ := h
  obtain ⟨l₃, l₄, rfl⟩ := List.append_of_mem hx
  obtain ⟨l₅, l₆, rfl⟩ := List.append_of_mem hy
  exact ⟨l₃, l₄ ++ l₅, l₆, by simp⟩

theorem Before.asymm (hl : l.Nodup) (h : Before l x y) : ¬ Before l y x := by
  rintro ⟨l₃, l₄, heq, hy', hx'⟩
  obtain ⟨l₁, l₂, rfl, hx, hy⟩ := h
  have hdisjoint := List.disjoint_of_nodup_append hl
  rcases List.append_eq_append_iff.mp heq with ⟨t, rfl, rfl⟩ | ⟨t, rfl, rfl⟩
  · exact hdisjoint hx (List.mem_append_right t hx')
  · exact hdisjoint (List.mem_append_left t hy') hy

end Before

/-! ## Histories -/

/-- What is seen of a call: that it begins, and that it ends with an answer. Every call has a
number of its own. -/
inductive Event (O : Type v) (A : Type w)
  | inv (i : ℕ) (op : O)
  | res (i : ℕ) (answer : A)

/-- A call in a sequential order. -/
structure Settled (O : Type v) (A : Type w) where
  id : ℕ
  op : O
  answer : A

/-- The calls one after another lead from one state to the other. -/
def Legal (spec : S → O → A → S → Prop) : S → List (Settled O A) → S → Prop
  | s, [], t => s = t
  | s, c :: cs, t => ∃ u, spec s c.op c.answer u ∧ Legal spec u cs t

/-- A sequential order for a history. Calls that have not ended may be in it, with any
answer. -/
structure Linearizes (spec : S → O → A → S → Prop) (s : S) (H : List (Event O A))
    (order : List (Settled O A)) : Prop where
  nodup : (order.map Settled.id).Nodup
  begun : ∀ c ∈ order, .inv c.id c.op ∈ H
  answered : ∀ i answer, .res i answer ∈ H → ∃ c ∈ order, c.id = i ∧ c.answer = answer
  ordered : ∀ c ∈ order, ∀ c' ∈ order, ∀ answer, Before H (.res c.id answer) (.inv c'.id c'.op) →
    Before order c c'
  legal : ∃ t, Legal spec s order t

/-- The history is that of some sequential order. -/
def Linearizable (spec : S → O → A → S → Prop) (s : S) (H : List (Event O A)) : Prop :=
  ∃ order, Linearizes spec s H order

section Legal

variable {spec : S → O → A → S → Prop}

theorem legal_append {s t : S} {cs cs' : List (Settled O A)} :
    Legal spec s (cs ++ cs') t ↔ ∃ u, Legal spec s cs u ∧ Legal spec u cs' t := by
  induction cs generalizing s with
  | nil =>
      constructor
      · exact fun h => ⟨s, rfl, h⟩
      · rintro ⟨u, rfl, h⟩
        exact h
  | cons c cs ih =>
      constructor
      · rintro ⟨v, hc, hrest⟩
        obtain ⟨u, hcs, hcs'⟩ := ih.mp hrest
        exact ⟨u, ⟨v, hc, hcs⟩, hcs'⟩
      · rintro ⟨u, ⟨v, hc, hcs⟩, hcs'⟩
        exact ⟨v, hc, ih.mpr ⟨u, hcs, hcs'⟩⟩

/-- One more call. -/
theorem Legal.concat {s t u : S} {cs : List (Settled O A)} {c : Settled O A}
    (h : Legal spec s cs t) (hc : spec t c.op c.answer u) : Legal spec s (cs ++ [c]) u :=
  legal_append.mpr ⟨t, h, u, hc, rfl⟩

/-- What every call of a part keeps holds after the part. -/
theorem Legal.keeps {P : S → Prop} {s t : S} {cs : List (Settled O A)} (h : Legal spec s cs t)
    (hkeep : ∀ c ∈ cs, ∀ s t, spec s c.op c.answer t → P s → P t) (hs : P s) : P t := by
  induction cs generalizing s with
  | nil =>
      obtain rfl : s = t := h
      exact hs
  | cons c cs ih =>
      obtain ⟨u, hc, hrest⟩ := h
      exact ih hrest (fun c' hc' => hkeep c' (List.mem_cons_of_mem c hc'))
        (hkeep c List.mem_cons_self s u hc hs)

end Legal

/-! ## Logs -/

/-- What is written down in a run: beginnings and ends, and the steps in which calls take
effect. -/
inductive Mark (O : Type v) (A : Type w)
  | inv (i : ℕ) (op : O)
  | lin (i : ℕ) (op : O) (answer : A)
  | res (i : ℕ) (answer : A)

/-- How far a call is. -/
inductive Phase (O : Type v) (A : Type w)
  | fresh
  | called (op : O)
  | settled (answer : A)
  | ended

def Mark.event : Mark O A → Option (Event O A)
  | inv i op => some (.inv i op)
  | lin _ _ _ => none
  | res i answer => some (.res i answer)

def Mark.settled : Mark O A → Option (Settled O A)
  | lin i op answer => some ⟨i, op, answer⟩
  | _ => none

/-- The history of a log. -/
def history (log : List (Mark O A)) : List (Event O A) := log.filterMap Mark.event

/-- The order in which calls have taken effect. -/
def settledCalls (log : List (Mark O A)) : List (Settled O A) := log.filterMap Mark.settled

/-- Every call begins, takes effect and ends, once and in this order. -/
inductive Follows : List (Mark O A) → (ℕ → Phase O A) → Prop
  | nil : Follows [] fun _ => .fresh
  | inv {log : List (Mark O A)} {phase : ℕ → Phase O A} (i : ℕ) (op : O) (h : Follows log phase)
      (hi : phase i = .fresh) :
      Follows (log ++ [.inv i op]) (Function.update phase i (.called op))
  | lin {log : List (Mark O A)} {phase : ℕ → Phase O A} (i : ℕ) (op : O) (answer : A)
      (h : Follows log phase) (hi : phase i = .called op) :
      Follows (log ++ [.lin i op answer]) (Function.update phase i (.settled answer))
  | res {log : List (Mark O A)} {phase : ℕ → Phase O A} (i : ℕ) (answer : A)
      (h : Follows log phase) (hi : phase i = .settled answer) :
      Follows (log ++ [.res i answer]) (Function.update phase i .ended)

section Logs

variable {log : List (Mark O A)} {phase : ℕ → Phase O A} {i : ℕ} {op : O} {answer : A}

@[simp]
theorem history_inv : history (log ++ [.inv i op]) = history log ++ [.inv i op] := by
  simp [history, Mark.event]

@[simp]
theorem history_lin : history (log ++ [.lin i op answer]) = history log := by
  simp [history, Mark.event]

@[simp]
theorem history_res : history (log ++ [.res i answer]) = history log ++ [.res i answer] := by
  simp [history, Mark.event]

@[simp]
theorem settledCalls_inv : settledCalls (log ++ [.inv i op]) = settledCalls log := by
  simp [settledCalls, Mark.settled]

@[simp]
theorem settledCalls_lin :
    settledCalls (log ++ [.lin i op answer]) = settledCalls log ++ [⟨i, op, answer⟩] := by
  simp [settledCalls, Mark.settled]

@[simp]
theorem settledCalls_res : settledCalls (log ++ [.res i answer]) = settledCalls log := by
  simp [settledCalls, Mark.settled]

/-- What the phases say about a log. -/
structure Traced (log : List (Mark O A)) (phase : ℕ → Phase O A) : Prop where
  fresh : ∀ i, phase i = .fresh → (∀ op, .inv i op ∉ history log) ∧ ∀ c ∈ settledCalls log, c.id ≠ i
  called : ∀ i op, phase i = .called op →
    .inv i op ∈ history log ∧ ∀ c ∈ settledCalls log, c.id ≠ i
  settled : ∀ i answer, phase i = .settled answer →
    ∃ c ∈ settledCalls log, c.id = i ∧ c.answer = answer
  unique : ∀ i op op', .inv i op ∈ history log → .inv i op' ∈ history log → op = op'
  nodup : ((settledCalls log).map Settled.id).Nodup
  begun : ∀ c ∈ settledCalls log, .inv c.id c.op ∈ history log
  answered : ∀ i answer, .res i answer ∈ history log →
    ∃ c ∈ settledCalls log, c.id = i ∧ c.answer = answer
  ordered : ∀ c ∈ settledCalls log, ∀ c' ∈ settledCalls log, ∀ answer,
    Before (history log) (.res c.id answer) (.inv c'.id c'.op) → Before (settledCalls log) c c'

theorem Traced.nil : Traced ([] : List (Mark O A)) fun _ => .fresh where
  fresh i _ := ⟨fun op => by simp [history], by simp [settledCalls]⟩
  called i op h := by cases h
  settled i answer h := by cases h
  unique := by simp [history]
  nodup := by simp [settledCalls]
  begun := by simp [settledCalls]
  answered := by simp [history]
  ordered := by simp [settledCalls]

/-- A phase that the call of a step does not have is that of another call. -/
theorem of_update {p q : Phase O A} {j : ℕ} (hj : Function.update phase i p j = q) (hpq : p ≠ q) :
    j ≠ i ∧ phase j = q := by
  by_cases hji : j = i
  · subst hji
    rw [Function.update_self] at hj
    exact absurd hj hpq
  · rw [Function.update_of_ne hji] at hj
    exact ⟨hji, hj⟩

theorem Traced.inv (h : Traced log phase) (hi : phase i = .fresh) :
    Traced (log ++ [.inv i op]) (Function.update phase i (.called op)) where
  fresh j hj := by
    obtain ⟨hne, hj⟩ := of_update hj (by simp)
    obtain ⟨hinv, hsettled⟩ := h.fresh j hj
    refine ⟨fun op' => ?_, by simpa using hsettled⟩
    simp [hinv op', hne]
  called j op' hj := by
    by_cases hji : j = i
    · subst hji
      rw [Function.update_self] at hj
      obtain rfl := Phase.called.inj hj
      exact ⟨by simp, by simpa using (h.fresh j hi).2⟩
    · rw [Function.update_of_ne hji] at hj
      obtain ⟨hinv, hsettled⟩ := h.called j op' hj
      exact ⟨by simp [hinv], by simpa using hsettled⟩
  settled j answer hj := by
    obtain ⟨-, hj⟩ := of_update hj (by simp)
    simpa using h.settled j answer hj
  unique j op' op'' hop' hop'' := by
    simp only [history_inv, List.mem_append, List.mem_singleton, Event.inv.injEq] at hop' hop''
    rcases hop' with hop' | ⟨rfl, rfl⟩ <;> rcases hop'' with hop'' | ⟨hji, rfl⟩
    · exact h.unique j op' op'' hop' hop''
    · subst hji
      exact absurd hop' ((h.fresh j hi).1 op')
    · exact absurd hop'' ((h.fresh j hi).1 op'')
    · rfl
  nodup := by simpa using h.nodup
  begun c hc := by
    rw [settledCalls_inv] at hc
    simp [h.begun c hc]
  answered j answer hj := by
    simp only [history_inv, List.mem_append, List.mem_singleton, reduceCtorEq, or_false] at hj
    simpa using h.answered j answer hj
  ordered c hc c' hc' answer hbefore := by
    simp only [settledCalls_inv, history_inv, before_concat_iff] at hc hc' hbefore ⊢
    rcases hbefore with hbefore | ⟨-, heq⟩
    · exact h.ordered c hc c' hc' answer hbefore
    · exact absurd (Event.inv.inj heq).1 ((h.fresh i hi).2 c' hc')

theorem Traced.lin (h : Traced log phase) (hi : phase i = .called op) :
    Traced (log ++ [.lin i op answer]) (Function.update phase i (.settled answer)) where
  fresh j hj := by
    obtain ⟨hne, hj⟩ := of_update hj (by simp)
    obtain ⟨hinv, hsettled⟩ := h.fresh j hj
    refine ⟨by simpa using hinv, fun c hc => ?_⟩
    rw [settledCalls_lin, List.mem_append, List.mem_singleton] at hc
    rcases hc with hc | rfl
    · exact hsettled c hc
    · exact hne.symm
  called j op' hj := by
    obtain ⟨hne, hj⟩ := of_update hj (by simp)
    obtain ⟨hinv, hsettled⟩ := h.called j op' hj
    refine ⟨by simpa using hinv, fun c hc => ?_⟩
    rw [settledCalls_lin, List.mem_append, List.mem_singleton] at hc
    rcases hc with hc | rfl
    · exact hsettled c hc
    · exact hne.symm
  settled j answer' hj := by
    by_cases hji : j = i
    · subst hji
      rw [Function.update_self] at hj
      obtain rfl := Phase.settled.inj hj
      exact ⟨⟨j, op, answer⟩, by simp, rfl, rfl⟩
    · rw [Function.update_of_ne hji] at hj
      obtain ⟨c, hc, hid, hanswer⟩ := h.settled j answer' hj
      exact ⟨c, by simp [hc], hid, hanswer⟩
  unique := by simpa using h.unique
  nodup := by
    rw [settledCalls_lin, List.map_append, List.nodup_append]
    refine ⟨h.nodup, List.nodup_singleton _, ?_⟩
    rintro k hk k' hk' rfl
    obtain ⟨c, hc, rfl⟩ := List.mem_map.mp hk
    exact (h.called i op hi).2 c hc (List.mem_singleton.mp hk')
  begun c hc := by
    rw [settledCalls_lin, List.mem_append, List.mem_singleton] at hc
    rw [history_lin]
    rcases hc with hc | rfl
    · exact h.begun c hc
    · exact (h.called i op hi).1
  answered j answer' hj := by
    rw [history_lin] at hj
    obtain ⟨c, hc, hid, hanswer⟩ := h.answered j answer' hj
    exact ⟨c, by simp [hc], hid, hanswer⟩
  ordered c hc c' hc' answer' hbefore := by
    rw [history_lin] at hbefore
    -- A call that has ended has taken effect before.
    have hold : c ∈ settledCalls log := by
      rw [settledCalls_lin, List.mem_append, List.mem_singleton] at hc
      refine hc.resolve_right ?_
      rintro rfl
      obtain ⟨c, hc, hid, -⟩ := h.answered _ _ hbefore.mem.1
      exact (h.called i op hi).2 c hc hid
    rw [settledCalls_lin, List.mem_append, List.mem_singleton] at hc'
    rw [settledCalls_lin]
    rcases hc' with hc' | rfl
    · exact (h.ordered c hold c' hc' answer' hbefore).append _
    · exact before_concat hold

theorem Traced.res (h : Traced log phase) (hi : phase i = .settled answer) :
    Traced (log ++ [.res i answer]) (Function.update phase i .ended) where
  fresh j hj := by
    obtain ⟨-, hj⟩ := of_update hj (by simp)
    simpa using h.fresh j hj
  called j op hj := by
    obtain ⟨-, hj⟩ := of_update hj (by simp)
    simpa using h.called j op hj
  settled j answer' hj := by
    obtain ⟨-, hj⟩ := of_update hj (by simp)
    simpa using h.settled j answer' hj
  unique := by simpa using h.unique
  nodup := by simpa using h.nodup
  begun := by simpa using h.begun
  answered j answer' hj := by
    simp only [history_res, List.mem_append, List.mem_singleton, Event.res.injEq] at hj
    rw [settledCalls_res]
    rcases hj with hj | ⟨rfl, rfl⟩
    · exact h.answered j answer' hj
    · exact h.settled j answer' hi
  ordered c hc c' hc' answer' hbefore := by
    simp only [settledCalls_res, history_res, before_concat_iff, reduceCtorEq, and_false,
      or_false] at hc hc' hbefore ⊢
    exact h.ordered c hc c' hc' answer' hbefore

theorem Follows.traced (h : Follows log phase) : Traced log phase := by
  induction h with
  | nil => exact .nil
  | inv i op _ hi ih => exact ih.inv hi
  | lin i op answer _ hi ih => exact ih.lin hi
  | res i answer _ hi ih => exact ih.res hi

/-- The order in which calls take effect is a sequential order for their history. -/
theorem Follows.linearizable {spec : S → O → A → S → Prop} {s t : S} (h : Follows log phase)
    (hlegal : Legal spec s (settledCalls log) t) : Linearizable spec s (history log) :=
  ⟨settledCalls log, h.traced.nodup, h.traced.begun, h.traced.answered, h.traced.ordered, t, hlegal⟩

end Logs

end ThreeW3.Lib.History
