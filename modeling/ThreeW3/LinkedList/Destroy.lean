/-
# Destroying a list

`list_destroy` gives every node of the list the release function of its caller and
unlinks it. A node that was removed and still has an iterator on it is in the list too,
and its data are released with the rest, although `list_remove` has given them away.
-/

import ThreeW3.LinkedList.System

namespace ThreeW3.LinkedList

open ThreeW3.Lib

universe u v w
variable {D : Type u} {F : Type v} {ι : Type w}

/-- The loop of `list_destroy`. -/
def destroyLoop (lfree : Option F) : ℕ → State D F → Option (State D F)
  | 0, _ => none
  | fuel + 1, m =>
    match m.start with
    | none => some m
    | some x => do
      let m ← m.modify (some x) fun c => { c with free := lfree }
      let m ← listUnlink x m
      destroyLoop lfree fuel m

/-- `list_destroy`, without the list itself, which `list_free` frees at the end. The list
has at most `fresh` nodes, which bounds the turns of the loop. -/
def listDestroy (lfree : Option F) (m : State D F) : Option (State D F) :=
  destroyLoop lfree (m.fresh + 1) m

/-! ## What it releases -/

/-- A call of the release function for each node. -/
def callsFor (lfree : Option F) (κ : ℕ → Option (Core D F)) (l : List ℕ) : List (ℕ × F × D) :=
  l.filterMap fun x => lfree.bind fun f => (κ x).map fun c => (x, f, c.data)

theorem callsFor_congr {lfree : Option F} {κ κ' : ℕ → Option (Core D F)} {l : List ℕ}
    (h : ∀ x ∈ l, κ x = κ' x) : callsFor lfree κ l = callsFor lfree κ' l := by
  apply List.filterMap_congr
  intro x hx
  rw [h x hx]

theorem callsFor_cons {lfree : Option F} {κ : ℕ → Option (Core D F)} {x : ℕ} {l : List ℕ}
    {c : Core D F} (hc : κ x = some c) :
    callsFor lfree κ (x :: l) =
      (match lfree with
        | none => []
        | some f => [(x, f, c.data)]) ++ callsFor lfree κ l := by
  cases lfree <;> simp [callsFor, hc]

variable {m : State D F} {l : List ℕ} {κ : ℕ → Option (Core D F)} {g : Ledger D F} {lfree : Option F}

/-- One turn of the loop: the first node is released and leaves. -/
theorem Shape.destroyStep {x : ℕ} (h : Shape m (x :: l) κ g) (lfree : Option F) (fuel : ℕ) :
    ∃ m' c g', destroyLoop lfree (fuel + 1) m = destroyLoop lfree fuel m' ∧
      κ x = some c ∧ Shape m' l (Function.update κ x none) g' ∧
      g'.released = g.released ++ callsFor lfree κ [x] := by
  obtain ⟨c, hc⟩ := h.exists_core List.mem_cons_self
  have hstart : m.start = some x := h.linked.first_eq .fwd
  obtain ⟨m₁, hmod, h₁⟩ := h.modify (p := some x) (by simp) fun c => { c with free := lfree }
  have hc₁ : touch κ (some x) (fun c => { c with free := lfree }) x =
      some { c with free := lfree } := by simp [touch, hc]
  obtain ⟨m₂, hunlink, h₂⟩ := h₁.unlink hc₁
  have hrest : (x :: l).filter (· ≠ x) = l := by
    rw [List.filter_cons_of_neg (by simp), List.filter_eq_self]
    intro y hy
    simpa using fun heq : y = x => (List.nodup_cons.mp h.linked.nodup).1 (heq ▸ hy)
  rw [hrest] at h₂
  refine ⟨m₂, c, _, ?_, hc, h₂.congr fun y => ?_, ?_⟩
  · rw [destroyLoop.eq_def]
    simp only [hstart, hmod, hunlink, Option.bind_eq_bind, Option.bind_some]
  · by_cases hyx : y = x
    · simp [hyx]
    · simp [hyx, touch, Ne.symm hyx]
  · rw [callsFor_cons hc, callsFor, List.filterMap_nil, List.append_nil]
    cases lfree <;> simp [Ledger.unlink]

/-- The loop releases the nodes in their order, whatever has happened to them before. -/
theorem Shape.destroyLoop {fuel : ℕ} (h : Shape m l κ g) (hfuel : l.length < fuel) :
    ∃ m', destroyLoop lfree fuel m = some m' ∧ m'.start = none ∧
      m'.released = g.released ++ callsFor lfree κ l := by
  induction l generalizing m κ g fuel with
  | nil =>
      obtain ⟨fuel, rfl⟩ : ∃ n, fuel = n + 1 := ⟨fuel - 1, by simp at hfuel; omega⟩
      have hstart : m.start = none := h.linked.first_eq .fwd
      refine ⟨m, by rw [LinkedList.destroyLoop.eq_def]; simp only [hstart], hstart, ?_⟩
      rw [← h.ledger_eq, callsFor, List.filterMap_nil, List.append_nil]
  | cons x l ih =>
      obtain ⟨fuel, rfl⟩ : ∃ n, fuel = n + 1 := ⟨fuel - 1, by simp at hfuel; omega⟩
      obtain ⟨m₁, c, g₁, hstep, hc, h₁, hreleased⟩ := h.destroyStep lfree fuel
      obtain ⟨m', hloop, hempty, hcalls⟩ := ih h₁ (by simpa using hfuel)
      have hsame : ∀ y ∈ l, Function.update κ x none y = κ y := by
        intro y hy
        apply Function.update_of_ne
        rintro rfl
        exact (List.nodup_cons.mp h.linked.nodup).1 hy
      refine ⟨m', hstep.trans hloop, hempty, ?_⟩
      rw [hcalls, hreleased, callsFor_congr hsame, List.append_assoc]
      simp only [callsFor, ← List.filterMap_append, List.singleton_append]

/-- `list_destroy` goes through, and calls the release function for every node. -/
theorem Refines.destroy {a : Pinned D F} (h : Refines m a) (ok : a.Ok) (lfree : Option F) :
    ∃ m', listDestroy lfree m = some m' ∧ m'.start = none ∧
      m'.released = m.released ++ callsFor lfree a.core a.order := by
  have hfresh : m.fresh = a.inserted.length := congrArg Ledger.fresh h.ledger_eq
  have hlength : a.order.length ≤ m.fresh := by
    rw [hfresh]
    exact length_le_of_nodup_of_lt ok.nodup fun x hx => ok.lt hx
  have hreleased : m.released = a.ledger.released := congrArg Ledger.released h.ledger_eq
  rw [hreleased]
  exact Shape.destroyLoop h (Nat.lt_succ_of_le hlength)

/-! ## What the list still owns -/

/-- The release function has been called once for each node that is in the list and not
deleted, with its data, and not for a node that had been given to `list_remove`. -/
structure ReleasesOwned (f : F) (m m' : State D F) (calls : List (ℕ × F × D)) : Prop where
  released_eq : m'.released = m.released ++ calls
  once : ∀ x, m.Present x → ∃ p, nodeData x m = some p ∧ calls.filter (·.1 = x) = [(x, f, p)]
  notRemoved : ∀ c ∈ calls, ¬ m.Removed c.1

variable {a : Pinned D F} {f : F} {x : ℕ}

/-- The calls for a node of the list. -/
theorem Pinned.filter_callsFor (ok : a.Ok) (hx : x ∈ a.order) :
    ∃ p, a.inserted[x]? = some p ∧
      (callsFor (some f) a.core a.order).filter (·.1 = x) = [(x, f, p)] := by
  obtain ⟨p, hp⟩ := ok.exists_data hx
  refine ⟨p, hp, ?_⟩
  have hcall : ∀ y ∈ a.order, ((some f).bind fun f => (a.core y).map fun c => (y, f, c.data)) =
      a.inserted[y]?.map fun q => (y, f, q) := by
    intro y hy
    obtain ⟨q, hq⟩ := ok.exists_data hy
    rw [Option.bind_some, core_eq hy hq, hq]
    rfl
  obtain ⟨l₁, l₂, hl⟩ := List.append_of_mem hx
  have hnodup : (l₁ ++ x :: l₂).Nodup := hl ▸ ok.nodup
  have hnone : ∀ l : List ℕ, x ∉ l →
      (l.filterMap fun y => a.inserted[y]?.map fun q => (y, f, q)).filter (·.1 = x) = [] := by
    intro l hl
    rw [List.filter_eq_nil_iff]
    intro c hc
    obtain ⟨y, hy, hc⟩ := List.mem_filterMap.mp hc
    obtain ⟨q, -, rfl⟩ := Option.map_eq_some_iff.mp hc
    simpa using fun heq : y = x => hl (heq ▸ hy)
  have h₁ : x ∉ l₁ := fun hmem => List.disjoint_of_nodup_append hnodup hmem List.mem_cons_self
  have h₂ : x ∉ l₂ := (List.nodup_cons.mp (List.nodup_append.mp hnodup).2.1).1
  rw [callsFor, List.filterMap_congr hcall, hl, List.filterMap_append, List.filterMap_cons, hp,
    List.filter_append, hnone l₁ h₁, Option.map_some, List.filter_cons_of_pos (by simp),
    hnone l₂ h₂, List.nil_append]

variable [Fintype ι] {s : Sys ι D F}

/-- `list_destroy` releases what the list owns exactly if no node that was removed is in
the list any more, that is, none has an iterator on it. -/
theorem Sys.Inv.destroys (h : s.Inv a) (f : F) :
    ∃ m', listDestroy (some f) s.mem = some m' ∧
      ((∃ calls, ReleasesOwned f s.mem m' calls) ↔ ∀ i, ∀ x ∈ s.parked i, ¬ s.mem.Removed x) := by
  obtain ⟨m', hdestroy, -, hreleased⟩ := h.refines.destroy h.ok (some f)
  refine ⟨m', hdestroy, ?_⟩
  have hmem : ∀ c ∈ callsFor (some f) a.core a.order, c.1 ∈ a.order := by
    intro c hc
    obtain ⟨y, hy, hc⟩ := List.mem_filterMap.mp hc
    obtain ⟨q, -, rfl⟩ := Option.map_eq_some_iff.mp hc
    exact hy
  constructor
  · rintro ⟨calls, howned⟩ i x hparked hremoved
    have hcalls : calls = callsFor (some f) a.core a.order :=
      List.append_cancel_left (howned.released_eq.symm.trans hreleased)
    obtain ⟨p, -, hfilter⟩ :=
      Pinned.filter_callsFor (f := f) h.ok (h.ok.mem_of_pinned (h.pinned hparked))
    have hcall : (x, f, p) ∈ calls := by
      rw [hcalls]
      exact List.mem_of_mem_filter (hfilter ▸ List.mem_singleton_self _)
    exact howned.notRemoved _ hcall hremoved
  · intro hfree
    refine ⟨_, hreleased, fun x hx => ?_, fun c hc hremoved => ?_⟩
    · obtain ⟨hx, -⟩ := h.present_iff.mp hx
      obtain ⟨p, hp, hfilter⟩ := Pinned.filter_callsFor (f := f) h.ok hx
      have hone : ∀ y ∈ some x, y ∈ a.order := by
        rintro y ⟨⟩
        exact hx
      exact ⟨p, (h.refines.dataAt_eq h.ok hone).trans hp, hfilter⟩
    · have hpins : 0 < a.pins c.1 :=
        h.ok.pinned_of_marked (hmem c hc) (h.marked_iff.mpr hremoved)
      rw [h.pins_eq, countAt_pos] at hpins
      obtain ⟨i, hi⟩ := hpins
      exact hfree i c.1 hi hremoved

variable [DecidableEq ι] [DecidableEq D]

/-- After any run of any clients `list_destroy` goes through, and it releases once each
what the list owns, and nothing else, exactly if no iterator and no call in progress is
on a node that was removed. -/
theorem destroy_iff (as : List (Action ι D F))
    (hvalid : (clients ι D F).Valid (clients ι D F).init as) (f : F) :
    ∃ s m', (clients ι D F).exec (clients ι D F).init as = some s ∧
      listDestroy (some f) s.mem = some m' ∧
      ((∃ calls, ReleasesOwned f s.mem m' calls) ↔ ∀ i, ∀ x ∈ s.parked i, ¬ s.mem.Removed x) := by
  obtain ⟨s, a, hexec, h, -⟩ := Sys.Inv.new.run hvalid
  obtain ⟨m', hdestroy, hiff⟩ := h.destroys f
  exact ⟨s, m', hexec, hdestroy, hiff⟩

/-- One node is popped to the end, and an iterator is on another. -/
def popped : List (Action Bool ℕ ℕ) :=
  [.insert .fwd 7, .insert .fwd 8, .call false (.take .fwd), .resume false, .resume false,
    .resume false, .call true (.walk .fwd)]

theorem popped_destroyed :
    ∃ s m' calls, (clients Bool ℕ ℕ).exec (clients Bool ℕ ℕ).init popped = some s ∧
      listDestroy (some 5) s.mem = some m' ∧ ReleasesOwned 5 s.mem m' calls := by
  obtain ⟨s, m', hexec, hdestroy, hiff⟩ := destroy_iff popped (by decide) 5
  have hparked : ∀ s ∈ (clients Bool ℕ ℕ).exec (clients Bool ℕ ℕ).init popped,
      ∀ i, ∀ x ∈ s.parked i, x ∉ s.mem.removed.map Prod.fst := by decide
  obtain ⟨calls, hreleases⟩ := hiff.mpr (hparked s hexec)
  exact ⟨s, m', calls, hexec, hdestroy, hreleases⟩

/-- A `list_pop` has removed its node, and has not come to `list_unlock_deref`. -/
def halfPopped : List (Action Bool ℕ ℕ) :=
  [.insert .fwd 7, .call false (.take .bwd), .resume false, .resume false]

/-- The data that `list_pop` will return are released. -/
theorem halfPopped_not_releasesOwned :
    (clients Bool ℕ ℕ).Valid (clients Bool ℕ ℕ).init halfPopped ∧
      ∃ s m', (clients Bool ℕ ℕ).exec (clients Bool ℕ ℕ).init halfPopped = some s ∧
        listDestroy (some 5) s.mem = some m' ∧ s.task false = .taken 0 7 ∧
        m'.released = [(0, 5, 7)] ∧ ¬ ∃ calls, ReleasesOwned 5 s.mem m' calls := by
  refine ⟨by decide, _, _, rfl, rfl, rfl, rfl, ?_⟩
  rintro ⟨calls, howned⟩
  have hcalls := howned.released_eq
  have hcall : ((0, 5, 7) : ℕ × ℕ × ℕ) ∈ calls := by
    rw [show calls = [(0, 5, 7)] from List.append_cancel_left hcalls.symm]
    exact List.mem_singleton_self _
  have hremoved : (0 : ℕ) ∈ [0] := List.mem_singleton_self 0
  exact howned.notRemoved _ hcall hremoved

end ThreeW3.LinkedList
