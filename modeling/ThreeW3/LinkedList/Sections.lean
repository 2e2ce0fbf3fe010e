/-
# What the locked sections do

The memory of a list seen as a doubly linked sequence, the fields of its nodes
other than links, and the ledger. Each function of the list's memory is one change
of these, and none of them meets a node that is not there.
-/

import ThreeW3.LinkedList.Model

namespace ThreeW3.LinkedList

open ThreeW3.Lib

universe u v
variable {D : Type u} {F : Type v}

/-- The fields of a node other than its links. -/
def State.core (m : State D F) (x : ℕ) : Option (Core D F) := (m.node.load x).map Node.toCore

/-- A change at a pointer. -/
def touch (κ : ℕ → Option (Core D F)) (p : Ptr) (f : Core D F → Core D F) :
    ℕ → Option (Core D F) :=
  fun x => if p = some x then (κ x).map f else κ x

/-- The ledger after a node has been unlinked. -/
def Ledger.unlink (g : Ledger D F) (x : ℕ) (c : Core D F) : Ledger D F :=
  { g with
    items := g.items - 1
    deleted := if c.deleted then g.deleted - 1 else g.deleted
    freed := g.freed ++ [x]
    released := match c.free with
      | none => g.released
      | some f => g.released ++ [(x, f, c.data)] }

/-- The memory holds this sequence of nodes with these fields. -/
structure Shape (m : State D F) (l : List ℕ) (κ : ℕ → Option (Core D F)) (g : Ledger D F) :
    Prop where
  linked : Linked m.first m.link l
  core_eq : ∀ x, m.core x = κ x
  mem_iff : ∀ x, x ∈ l ↔ (κ x).isSome = true
  ledger_eq : m.toLedger = g

namespace Shape

variable {m : State D F} {l : List ℕ} {κ κ' : ℕ → Option (Core D F)} {g : Ledger D F} {x : ℕ}
  {c : Core D F} {d : Dir}

theorem new : Shape (listNew : State D F) [] (fun _ => none) (listNew : State D F).toLedger where
  linked := ⟨List.nodup_nil, fun d => by cases d <;> rfl, fun d => by simp⟩
  core_eq := by simp [State.core, listNew]
  mem_iff := by simp
  ledger_eq := rfl

theorem congr (h : Shape m l κ g) (hκ : ∀ x, κ' x = κ x) : Shape m l κ' g :=
  ⟨h.linked, fun x => (h.core_eq x).trans (hκ x).symm, fun x => by rw [h.mem_iff, hκ], h.ledger_eq⟩

theorem mem_of_core (h : Shape m l κ g) (hx : κ x = some c) : x ∈ l := by
  rw [h.mem_iff, hx]
  rfl

theorem exists_core (h : Shape m l κ g) (hx : x ∈ l) : ∃ c, κ x = some c :=
  Option.isSome_iff_exists.mp ((h.mem_iff x).mp hx)

/-- The node of a member of the sequence. -/
theorem exists_node (h : Shape m l κ g) (hx : x ∈ l) :
    ∃ n, m.node.load x = some n ∧ κ x = some n.toCore := by
  obtain ⟨c, hc⟩ := h.exists_core hx
  rw [← h.core_eq] at hc
  obtain ⟨n, hn, rfl⟩ := Option.map_eq_some_iff.mp hc
  exact ⟨n, hn, by rw [← h.core_eq, State.core, hn]; rfl⟩

theorem load_of_core (h : Shape m l κ g) (hx : κ x = some c) :
    ∃ n, m.node.load x = some n ∧ n.toCore = c := by
  obtain ⟨n, hn, hcore⟩ := h.exists_node (h.mem_of_core hx)
  exact ⟨n, hn, Option.some.inj (hcore.symm.trans hx)⟩

theorem isDeleted_eq (h : Shape m l κ g) (hx : κ x = some c) :
    m.isDeleted (some x) = c.deleted := by
  obtain ⟨n, hn, rfl⟩ := h.load_of_core hx
  simp [State.isDeleted, hn]

/-- A change of fields other than links. -/
theorem modify (h : Shape m l κ g) {p : Ptr} (hp : ∀ x ∈ p, x ∈ l) (f : Core D F → Core D F) :
    ∃ m', m.modify p f = some m' ∧ Shape m' l (touch κ p f) g := by
  obtain ⟨h', hwrite, hload⟩ := m.node.exists_writeThrough
    (fun n => { n with toCore := f n.toCore }) fun x hx =>
      let ⟨n, hn, _⟩ := h.exists_node (hp x hx)
      ⟨n, hn⟩
  refine ⟨{ m with node := h' }, by simp [State.modify, hwrite], ?_, fun x => ?_, fun x => ?_,
    h.ledger_eq⟩
  · apply h.linked.congr
    · intro d
      cases d <;> rfl
    · intro d b _
      have hfield : h'.field (·.link d) = m.node.field (·.link d) :=
        Heap.field_eq_of_unchanged (fun n => by cases d <;> rfl) hload
      exact congrFun hfield b
  · rw [State.core, hload, touch, ← h.core_eq, State.core]
    split_ifs
    · simp [Function.comp_def]
    · rfl
  · rw [h.mem_iff, touch]
    split_ifs <;> simp

/-- The node before and the node after an unlinked one are joined. -/
theorem unlink (h : Shape m l κ g) (hx : κ x = some c) :
    ∃ m', listUnlink x m = some m' ∧
      Shape m' (l.filter (· ≠ x)) (Function.update κ x none) (g.unlink x c) := by
  have hmem := h.mem_of_core hx
  obtain ⟨n, hn, rfl⟩ := h.load_of_core hx
  have hlinks : ∀ d, m.link d x = n.link d := fun d => Heap.field_of_load hn
  have hnode : ∀ d, ∀ b ∈ n.link d, ∃ r, m.node.load b = some r := by
    intro d b hb
    obtain ⟨r, hr, _⟩ := h.exists_node (h.linked.mem_of_link hmem ((hlinks d).trans hb))
    exact ⟨r, hr⟩
  obtain ⟨h₁, hwrite₁, hload₁⟩ :=
    m.node.exists_writeThrough (·.setLink .fwd n.next) (hnode .bwd)
  have hnode₁ : ∀ b ∈ n.next, ∃ r, h₁.load b = some r := by
    intro b hb
    obtain ⟨r, hr⟩ := hnode .fwd b hb
    rw [hload₁, hr]
    split_ifs <;> exact ⟨_, rfl⟩
  obtain ⟨h₂, hwrite₂, hload₂⟩ := h₁.exists_writeThrough (·.setLink .bwd n.prev) hnode₁
  simp only [Node.link] at hwrite₁
  refine ⟨m.dropNode x n h₂, ?_, ?_, fun y => ?_, fun y => ?_, ?_⟩
  · simp only [listUnlink, hn, hwrite₁, hwrite₂, Option.bind_eq_bind, Option.bind_some]
  · apply h.linked.unlink hmem
    · intro d
      rw [hlinks]
      cases d <;> rfl
    · intro d b hb
      have hfree : ((h₂.free x).field (·.link d)) b = h₂.field (·.link d) b := by
        rw [Heap.field_free, Function.update_of_ne hb]
      rw [hlinks, hlinks]
      refine hfree.trans (congrFun ?_ b)
      cases d with
      | fwd =>
          have hkeep : h₂.field (·.link .fwd) = h₁.field (·.link .fwd) := by
            apply Heap.field_eq_of_unchanged _ hload₂
            exact fun r => rfl
          rw [hkeep]
          apply Heap.field_eq_splice _ (hnode .bwd) hload₁
          exact fun r => rfl
      | bwd =>
          have hkeep : h₁.field (·.link .bwd) = m.link .bwd := by
            apply Heap.field_eq_of_unchanged _ hload₁
            exact fun r => rfl
          rw [← hkeep]
          apply Heap.field_eq_splice _ hnode₁ hload₂
          exact fun r => rfl
  · have hcore : (h₂.load y).map Node.toCore = κ y := by
      rw [hload₂, hload₁, ← h.core_eq, State.core]
      split_ifs <;> simp [Function.comp_def]
    simp only [State.core, State.dropNode, Heap.load_free]
    by_cases hyx : y = x
    · simp [hyx]
    · simpa [hyx] using hcore
  · by_cases hyx : y = x
    · simp [hyx]
    · simp [hyx, h.mem_iff]
  · rw [← h.ledger_eq]
    rfl

/-- `list_deref` on a node that leaves. -/
theorem deref_leave (h : Shape m l κ g) (hx : κ x = some c) (hrc : c.rc - 1 ≤ 0) (hic : c.ic ≤ 0) :
    ∃ m', listDeref x m = some m' ∧
      Shape m' (l.filter (· ≠ x)) (Function.update κ x none) (g.unlink x c) := by
  have hmem := h.mem_of_core hx
  obtain ⟨m₁, hmod, h₁⟩ := h.modify (p := some x) (by simpa using hmem)
    fun c => { c with rc := c.rc - 1 }
  have hx₁ : touch κ (some x) (fun c => { c with rc := c.rc - 1 }) x =
      some { c with rc := c.rc - 1 } := by simp [touch, hx]
  obtain ⟨n, hn, hcore⟩ := h₁.load_of_core hx₁
  obtain ⟨m₂, hunlink, h₂⟩ := h₁.unlink hx₁
  have hguard : n.rc ≤ 0 ∧ n.ic ≤ 0 := by
    rw [hcore]
    exact ⟨hrc, hic⟩
  refine ⟨m₂, ?_, h₂.congr fun y => ?_⟩
  · simp only [listDeref, hmod, hn, Option.bind_eq_bind, Option.bind_some, if_pos hguard, hunlink]
  · by_cases hyx : y = x
    · simp [hyx]
    · simp [hyx, touch, Ne.symm hyx]

/-- `list_deref` on a node that stays. -/
theorem deref_stay (h : Shape m l κ g) (hx : κ x = some c) (hstay : ¬ (c.rc - 1 ≤ 0 ∧ c.ic ≤ 0)) :
    ∃ m', listDeref x m = some m' ∧
      Shape m' l (Function.update κ x (some { c with rc := c.rc - 1 })) g := by
  have hmem := h.mem_of_core hx
  obtain ⟨m₁, hmod, h₁⟩ := h.modify (p := some x) (by simpa using hmem)
    fun c => { c with rc := c.rc - 1 }
  have hx₁ : touch κ (some x) (fun c => { c with rc := c.rc - 1 }) x =
      some { c with rc := c.rc - 1 } := by simp [touch, hx]
  obtain ⟨n, hn, hcore⟩ := h₁.load_of_core hx₁
  have hguard : ¬ (n.rc ≤ 0 ∧ n.ic ≤ 0) := by
    rw [hcore]
    exact hstay
  refine ⟨m₁, ?_, h₁.congr fun y => ?_⟩
  · simp only [listDeref, hmod, hn, Option.bind_eq_bind, Option.bind_some, if_neg hguard]
  · by_cases hyx : y = x
    · simp [hyx, touch, hx]
    · simp [hyx, touch, Ne.symm hyx]

/-- A new node in the memory, once the links are in place. -/
private theorem addNode (h : Shape m l κ g) {m₁ : State D F} {n : Node D F}
    {h₁ : Heap (Node D F)} (d : Dir) (hledger : m₁.toLedger = g)
    (hcore : ∀ y, (h₁.load y).map Node.toCore = m.core y)
    (hlinked : Linked m₁.first (fun e => Function.update (h₁.field (·.link e)) g.fresh (n.link e))
      (d.append l g.fresh)) :
    Shape (m₁.addNode n h₁) (d.append l g.fresh) (Function.update κ g.fresh (some n.toCore))
      { g with fresh := g.fresh + 1, items := g.items + 1 } := by
  subst hledger
  refine ⟨hlinked.congr (fun e => by cases e <;> rfl) fun e b _ => ?_, fun y => ?_, fun y => ?_, rfl⟩
  · exact congrFun Heap.field_store b
  · by_cases hy : y = m₁.fresh
    · simp [State.core, State.addNode, hy]
    · simpa [State.core, State.addNode, Heap.load_store_of_ne hy, hy] using
        (hcore y).trans (h.core_eq y)
  · by_cases hy : y = m₁.fresh
    · simp [hy]
    · simp [hy, h.mem_iff]

/-- A new node goes to the end of the sequence. -/
theorem insert (h : Shape m l κ g) (hfresh : g.fresh ∉ l) (d : Dir) (p : D) :
    ∃ m', insert d p m = some m' ∧
      Shape m' (d.append l g.fresh) (Function.update κ g.fresh (some (nodeNew p).toCore))
        { g with fresh := g.fresh + 1, items := g.items + 1 } := by
  obtain rfl := h.ledger_eq
  have hstart := h.linked.first_eq .fwd
  cases hs : m.start with
  | none =>
      rw [State.first, hs] at hstart
      obtain rfl : l = [] := List.head?_eq_none_iff.mp hstart.symm
      have hnone : ∀ e, m.first e = none := fun e => by
        rw [h.linked.first_eq, Dir.along_nil, List.head?_nil]
      let m₁ : State D F := { m with start := some m.fresh, last := some m.fresh }
      have hinsert : LinkedList.insert d p m = some (m₁.addNode (nodeNew p) m.node) := by
        simp only [LinkedList.insert, hs]
        rfl
      have hledger : m₁.toLedger = m.toLedger := rfl
      refine ⟨_, hinsert, h.addNode d hledger (fun _ => rfl) ?_⟩
      apply h.linked.append hfresh d
      · cases d <;> rfl
      · rw [hnone]
        cases d <;> rfl
      · intro b hb
        rw [hnone, Function.update_of_ne hb]
        rfl
      · exact fun b hb => Function.update_of_ne hb _ _
      · rw [Function.update_self]
        cases d <;> rfl
      · rw [hnone, Function.update_self]
        cases d <;> rfl
  | some s =>
      have hfirst : ∀ e, ∃ b, m.first e = some b := by
        intro e
        rw [h.linked.first_eq, ← Option.ne_none_iff_exists', Ne, List.head?_eq_none_iff,
          ← List.length_eq_zero_iff, Dir.length_along, List.length_eq_zero_iff]
        rintro rfl
        simp [State.first, hs] at hstart
      obtain ⟨e, he⟩ := hfirst d.opp
      have hnode : ∀ b ∈ some e, ∃ n, m.node.load b = some n := by
        rintro b ⟨⟩
        obtain ⟨n, hn, _⟩ := h.exists_node (h.linked.mem_of_first he)
        exact ⟨n, hn⟩
      obtain ⟨h₁, hwrite, hload⟩ :=
        m.node.exists_writeThrough (·.setLink d (some m.fresh)) hnode
      have hcore : ∀ y, (h₁.load y).map Node.toCore = m.core y := by
        intro y
        rw [hload, State.core]
        split_ifs <;> simp [Function.comp_def]
      have hto : h₁.field (·.link d) = Chain.splice (m.link d) (some e) (some m.fresh) := by
        apply Heap.field_eq_splice _ hnode hload
        exact fun r => Node.link_setLink
      have hback : h₁.field (·.link d.opp) = m.link d.opp := by
        apply Heap.field_eq_of_unchanged _ hload
        exact fun r => Node.link_setLink_of_ne d.opp_ne
      have hinsert : LinkedList.insert d p m =
          some ((m.setFirst d.opp (some m.fresh)).addNode
            ((nodeNew p).setLink d.opp (some e)) h₁) := by
        simp only [LinkedList.insert, hs, he, hwrite, Option.bind_eq_bind, Option.bind_some]
      refine ⟨_, hinsert, ?_⟩
      rw [← Node.setLink_core (n := nodeNew p) (d := d.opp) (p := some e)]
      apply h.addNode d (by cases d <;> rfl) hcore
      apply h.linked.append hfresh d
      · cases d <;> rfl
      · obtain ⟨b, hb⟩ := hfirst d
        have hkeep : (m.setFirst d.opp (some m.fresh)).first d = m.first d := by cases d <;> rfl
        rw [hkeep, hb]
        rfl
      · intro b hb
        rw [Function.update_of_ne hb, hto, he]
      · intro b hb
        rw [Function.update_of_ne hb, hback]
      · rw [Function.update_self]
        cases d <;> rfl
      · rw [Function.update_self, Node.link_setLink, he]

end Shape

end ThreeW3.LinkedList
