/-
# The list as a sequence of data

Complete calls of `list_push`, `list_unshift`, `list_pop`, `list_shift`,
`list_delete_data`, `list_items` and `list_remove`, with iterators that stay parked
between them. Whatever deleted nodes the iterators keep in the list, the data of the
others behave as a plain sequence.
-/

import Mathlib.Data.List.Infix
import ThreeW3.Lib.Machine
import ThreeW3.Lib.Occupancy
import ThreeW3.LinkedList.Live

namespace ThreeW3.LinkedList

open ThreeW3.Lib

universe u v w
variable {D : Type u} {F : Type v} {ι : Type w}

/-! ## Complete calls -/

/-- `list_pop` and `list_shift`: the data returned, which is null for an empty list. -/
def take (d : Dir) (m : State D F) : Option (Option D × State D F) :=
  (walk d none m).bind fun (r, m) =>
    match r.node with
    | none => some (none, m)
    | some x => (nodeData x m).bind fun p =>
        (listRemove x none m).bind fun m => (listUnlockDeref x m).map fun m => (some p, m)

def listPop : State D F → Option (Option D × State D F) := take .bwd

def listShift : State D F → Option (Option D × State D F) := take .fwd

section Delete

variable [DecidableEq D]

/-- The loop of `list_delete_data`, from its header. -/
def deleteLoop (p : D) : ℕ → Ptr → ℕ → State D F → Option (ℕ × State D F)
  | 0, _, _, _ => none
  | fuel + 1, c, n, m => (walk .fwd c m).bind fun (r, m) =>
    match r.node with
    | none => some (n, m)
    | some x => (nodeData x m).bind fun q =>
        if p = q then (listRemove x none m).bind (deleteLoop p fuel (some x) (n + 1))
        else deleteLoop p fuel (some x) n m

/-- `list_delete_data`. The list has at most `fresh` nodes, which bounds its turns. -/
def listDeleteData (p : D) (m : State D F) : Option (ℕ × State D F) :=
  deleteLoop p (m.fresh + 1) none 0 m

end Delete

/-- What a call returns. -/
inductive Answer (D : Type u)
  | done
  | data (p : Option D)
  | number (n : ℕ)
  | items (n : BitVec 64)
  deriving DecidableEq

/-- A call. `step` is `list_next` or `list_prev`, and `leave` is `list_unlock_deref`. -/
inductive Request (ι : Type w) (D : Type u) (F : Type v)
  | push (p : D)
  | unshift (p : D)
  | pop
  | shift
  | deleteData (p : D)
  | items
  | remove (x : ℕ) (fr : Option F)
  | step (i : ι) (d : Dir)
  | leave (i : ι)

/-- The list, the iterators on it, and the answers so far. -/
structure Deque (ι : Type w) (D : Type u) (F : Type v) where
  mem : State D F
  cursor : ι → Ptr
  answers : List (Answer D)

namespace Deque

/-- The call has gone through. -/
def returns (s : Deque ι D F) (o : Answer D) (m : State D F) : Deque ι D F :=
  { s with mem := m, answers := s.answers ++ [o] }

variable [DecidableEq ι] [DecidableEq D]

def run (s : Deque ι D F) : Request ι D F → Option (Deque ι D F)
  | .push p => (listPush p s.mem).map (s.returns .done)
  | .unshift p => (listUnshift p s.mem).map (s.returns .done)
  | .pop => (listPop s.mem).map fun q => s.returns (.data q.1) q.2
  | .shift => (listShift s.mem).map fun q => s.returns (.data q.1) q.2
  | .deleteData p => (listDeleteData p s.mem).map fun q => s.returns (.number q.1) q.2
  | .items => some (s.returns (.items (listItems s.mem)) s.mem)
  | .remove x fr => (listRemove x fr s.mem).map (s.returns .done)
  | .step i d => (walk d (s.cursor i) s.mem).map fun q =>
      { s.returns (.data q.1.data) q.2 with cursor := Function.update s.cursor i q.1.node }
  | .leave i => (s.cursor i).bind fun x => (listUnlockDeref x s.mem).map fun m =>
      { s.returns .done m with cursor := Function.update s.cursor i none }

end Deque

/-- `list_remove` is given a node of the list that is not deleted, and
`list_unlock_deref` a node on which the iterator is parked. -/
def Request.enabled (s : Deque ι D F) : Request ι D F → Prop
  | remove x _ => (s.mem.node.load x).isSome = true ∧ s.mem.isDeleted (some x) = false
  | leave i => (s.cursor i).isSome = true
  | _ => True

instance Request.decidableEnabled (s : Deque ι D F) (r : Request ι D F) :
    Decidable (r.enabled s) := by
  cases r <;> unfold Request.enabled <;> infer_instance

/-- A new list with its iterators. -/
def deque (ι : Type w) (D : Type u) (F : Type v) [DecidableEq ι] [DecidableEq D] :
    Machine (Deque ι D F) (Request ι D F) where
  init := ⟨listNew, fun _ => none, []⟩
  enabled := fun s r => r.enabled s
  step := Deque.run

instance Deque.decidableEnabled [DecidableEq ι] [DecidableEq D] (s : Deque ι D F)
    (r : Request ι D F) : Decidable ((deque ι D F).enabled s r) := r.decidableEnabled s

/-! ## The plain sequence -/

/-- The nodes that are not deleted, as the links give them. -/
def liveNodes (m : State D F) : List ℕ := (contents .fwd m).filter fun x => !m.isDeleted (some x)

/-- Their data. -/
def liveData (m : State D F) : List D := (liveNodes m).filterMap fun x => m.dataAt (some x)

/-- The first node that is not deleted, from an iterator on. -/
def nextLive (m : State D F) (d : Dir) (c : Ptr) : Ptr :=
  let nodes := match c with
    | none => d.along (contents .fwd m)
    | some x => ((d.along (contents .fwd m)).dropWhile (· ≠ x)).tail
  nodes.find? fun x => !m.isDeleted (some x)

namespace Request

variable [DecidableEq D]

/-- The call on a plain sequence, where a node is meant by its place. -/
def onSequence (place : ℕ → ℕ) (l : List D) : Request ι D F → List D
  | push p => l ++ [p]
  | unshift p => p :: l
  | pop => l.dropLast
  | shift => l.tail
  | deleteData p => l.filter (· ≠ p)
  | remove x _ => l.eraseIdx (place x)
  | _ => l

/-- What the call returns for a plain sequence. -/
def answer (s : Deque ι D F) (l : List D) : Request ι D F → Answer D
  | pop => .data l.getLast?
  | shift => .data l.head?
  | deleteData p => .number (l.count p)
  | items => .items (BitVec.ofNat 64 l.length)
  | step i d => .data (s.mem.dataAt (nextLive s.mem d (s.cursor i)))
  | _ => .done

/-- Where the iterators are after the call. -/
def cursors [DecidableEq ι] (s : Deque ι D F) : Request ι D F → ι → Ptr
  | step i d => Function.update s.cursor i (nextLive s.mem d (s.cursor i))
  | leave i => Function.update s.cursor i none
  | _ => s.cursor

end Request

/-- The call does to the data what it does to a plain sequence. -/
structure AsSequence [DecidableEq ι] [DecidableEq D] (s : Deque ι D F) (r : Request ι D F)
    (t : Deque ι D F) : Prop where
  data_eq : liveData t.mem = r.onSequence (fun x => (liveNodes s.mem).idxOf x) (liveData s.mem)
  answers_eq : t.answers = s.answers ++ [r.answer s (liveData s.mem)]
  cursor_eq : t.cursor = r.cursors s

/-- The ends and the links are one doubly linked chain of the nodes that are there. -/
structure Consistent (m : State D F) : Prop where
  linked : Linked m.first m.link (contents .fwd m)
  allocated : ∀ x, x ∈ contents .fwd m ↔ (m.node.load x).isSome = true

/-! ## Calls on the pinned sequence -/

namespace Pinned

/-- A call takes the pin of its iterator from `c` to `w`. It inserts nothing and removes
no node that was removed before. -/
structure Passes (c w : Ptr) (a b : Pinned D F) : Prop where
  ok : b.Ok
  inserted_eq : b.inserted = a.inserted
  pins_eq : ∀ x, (b.pins x + if c = some x then 1 else 0) = a.pins x + if w = some x then 1 else 0
  once : (a.removed.map Prod.fst).Nodup → (b.removed.map Prod.fst).Nodup

namespace Passes

variable {a b e : Pinned D F} {x y : ℕ} {c w z : Ptr} {d : Dir}

theorem trans (h₁ : Passes c w a b) (h₂ : Passes w z b e) : Passes c z a e where
  ok := h₂.ok
  inserted_eq := h₂.inserted_eq.trans h₁.inserted_eq
  pins_eq x := by
    have := h₁.pins_eq x
    have := h₂.pins_eq x
    omega
  once honce := h₂.once (h₁.once honce)

theorem walk (ok : a.Ok) (hc : ∀ x ∈ c, 0 < a.pins x) (d : Dir) :
    Passes c (a.following d c) a (a.walk d c).2 where
  ok := ok.walk hc d
  inserted_eq := by simp [Pinned.walk]
  pins_eq _ := pins_move hc
  once honce := by simpa [Pinned.walk] using honce

theorem remove (ok : a.Ok) (hx : x ∈ a.live) (fr : Option F) (c : Ptr) :
    Passes c c a (a.remove x fr) where
  ok := ok.remove (mem_live.mp hx).1 fr
  inserted_eq := inserted_collect
  pins_eq y := by
    have hpins : (a.remove x fr).pins = a.pins := pins_collect
    rw [hpins]
  once honce := by
    rw [Pinned.remove, removed_collect, List.map_cons, List.nodup_cons]
    exact ⟨of_decide_eq_false (mem_live.mp hx).2, honce⟩

theorem unpin (ok : a.Ok) (hx : 0 < a.pins x) : Passes (some x) none a (a.unpin (some x)) := by
  have hpos : ∀ y ∈ some x, 0 < a.pins y := by
    rintro y ⟨⟩
    exact hx
  exact ⟨ok.unpin hpos, inserted_unpin, fun _ => pins_unpin hpos, fun honce => by simpa using honce⟩

/-- The iterator has a pin where it is. -/
theorem pinned (h : Passes c (some x) a b) (hcx : c ≠ some x) : 0 < b.pins x := by
  have hpins := h.pins_eq x
  rw [if_neg hcx, if_pos rfl] at hpins
  omega

end Passes

end Pinned

namespace Refines

open Pinned

variable {m : State D F} {a : Pinned D F} {x : ℕ} {c : Ptr} {d : Dir} {p : D}

theorem nodeData (h : Refines m a) (ok : a.Ok) (hx : x ∈ a.order) :
    LinkedList.nodeData x m = a.inserted[x]? := by
  have hmem : ∀ y ∈ some x, y ∈ a.order := by
    rintro y ⟨⟩
    exact hx
  rw [LinkedList.nodeData, h.dataAt_eq ok hmem]
  rfl

/-- `list_pop` or `list_shift` of a list without undeleted nodes. -/
theorem take_none (h : Refines m a) (ok : a.Ok) (hnone : a.following d none = none) :
    ∃ m', take d m = some (none, m') ∧ Refines m' a := by
  obtain ⟨m', hwalk, h'⟩ := h.walk ok (c := none) (by simp) d
  rw [Pinned.walk, hnone] at h'
  exact ⟨m', by simp [take, hwalk, hnone], h'⟩

/-- `list_pop` or `list_shift` of the first node of a walk. -/
theorem take_some (h : Refines m a) (ok : a.Ok) (hx : a.following d none = some x) :
    ∃ p m' b, a.inserted[x]? = some p ∧ take d m = some (some p, m') ∧ Refines m' b ∧
      Passes none none a b ∧ b.live = a.live.filter (· ≠ x) := by
  obtain ⟨p, hp⟩ := ok.exists_data (mem_of_following hx).1
  obtain ⟨m₁, hwalk, h₁⟩ := h.walk ok (c := none) (by simp) d
  have hpass₁ := Passes.walk ok (c := none) (by simp) d
  rw [hx] at hpass₁ hwalk
  have hpins₁ : 0 < (a.walk d none).2.pins x := hpass₁.pinned (by simp)
  have hx₁ : x ∈ (a.walk d none).2.live := by
    rw [live_walk]
    exact mem_live.mpr (mem_of_following hx)
  have hdata := h₁.nodeData hpass₁.ok (mem_live.mp hx₁).1
  rw [hpass₁.inserted_eq, hp] at hdata
  obtain ⟨m₂, hremove, h₂⟩ := h₁.remove hpass₁.ok (mem_live.mp hx₁).1 none
  have hpass₂ := Passes.remove hpass₁.ok hx₁ none (some x)
  have hpins₂ : 0 < ((a.walk d none).2.remove x none).pins x := by
    have hpins : ((a.walk d none).2.remove x none).pins = (a.walk d none).2.pins := pins_collect
    exact hpins ▸ hpins₁
  obtain ⟨m₃, hleave, h₃⟩ := h₂.unlockDeref hpass₂.ok hpins₂
  refine ⟨p, m₃, _, hp, ?_, h₃, (hpass₁.trans hpass₂).trans (.unpin hpass₂.ok hpins₂), ?_⟩
  · simp [take, hwalk, hdata, hremove, hleave]
  · rw [live_unpin, live_remove, live_walk]

variable [DecidableEq D]

/-- One round of `list_delete_data` goes on to the next node, and removes it if it has the
data. -/
theorem deleteStep {l : List ℕ} (n : ℕ) (h : Refines m a) (ok : a.Ok)
    (hc : ∀ y ∈ c, 0 < a.pins y) (hl : a.pending .fwd c = x :: l) :
    ∃ m' b, (∀ fuel, LinkedList.deleteLoop p (fuel + 1) c n m =
        LinkedList.deleteLoop p fuel (some x)
          (n + if a.inserted[x]? = some p then 1 else 0) m') ∧
      Refines m' b ∧ Passes c (some x) a b ∧ (∀ y ∈ some x, 0 < b.pins y) ∧
      b.pending .fwd (some x) = l ∧
      b.live = a.live.filter fun y => ¬ (y = x ∧ a.inserted[y]? = some p) := by
  have hcmem : ∀ y ∈ c, y ∈ a.order := fun y hy => ok.mem_of_pinned (hc y hy)
  have hx : a.following .fwd c = some x := by rw [following_eq, hl]; rfl
  obtain ⟨m₁, hwalk, h₁⟩ := h.walk ok hc .fwd
  have hpass₁ := Passes.walk ok hc .fwd
  have hpending := pending_walk ok hc hx
  rw [hl, List.cons_inj_right] at hpending
  rw [hx] at hwalk hpass₁
  have hpins₁ : ∀ y ∈ some x, 0 < (a.walk .fwd c).2.pins y := by
    rintro y ⟨⟩
    exact hpass₁.pinned (following_ne ok hcmem hx)
  have hx₁ : x ∈ (a.walk .fwd c).2.live := by
    rw [live_walk]
    exact mem_live.mpr (mem_of_following hx)
  obtain ⟨q, hq⟩ := ok.exists_data (mem_of_following hx).1
  have hdata := h₁.nodeData hpass₁.ok (mem_live.mp hx₁).1
  rw [hpass₁.inserted_eq, hq] at hdata
  by_cases hpq : p = q
  · obtain ⟨m₂, hremove, h₂⟩ := h₁.remove hpass₁.ok (mem_live.mp hx₁).1 none
    have hpass₂ := Passes.remove hpass₁.ok hx₁ none (some x)
    refine ⟨m₂, _, fun fuel => ?_, h₂, hpass₁.trans hpass₂, ?_, ?_, ?_⟩
    · simp [LinkedList.deleteLoop, hwalk, hdata, hpq, hremove, hq]
    · rwa [show ((a.walk .fwd c).2.remove x none).pins = _ from pins_collect]
    · exact (pending_remove hpass₁.ok (hpins₁ x rfl) none).trans hpending.symm
    · rw [live_remove, live_walk]
      apply List.filter_congr
      intro y _
      by_cases hyx : y = x
      · simp [hyx, hq, hpq]
      · simp [hyx]
  · have hqp : ¬ q = p := fun heq => hpq heq.symm
    refine ⟨m₁, _, fun fuel => ?_, h₁, hpass₁, hpins₁, hpending.symm, ?_⟩
    · simp [LinkedList.deleteLoop, hwalk, hdata, hpq, hq, hqp]
    · rw [live_walk, eq_comm, List.filter_eq_self]
      intro y _
      by_cases hyx : y = x
      · simp [hyx, hq, hqp]
      · simp [hyx]

/-- The loop of `list_delete_data` removes the occurrences that its walk has before it. -/
theorem deleteLoop {fuel : ℕ} {l : List ℕ} (n : ℕ) (h : Refines m a) (ok : a.Ok)
    (hc : ∀ x ∈ c, 0 < a.pins x) (hl : a.pending .fwd c = l) (hfuel : l.length < fuel) :
    ∃ m' b, deleteLoop p fuel c n m =
        some (n + (l.filter fun x => a.inserted[x]? = some p).length, m') ∧
      Refines m' b ∧ Passes c none a b ∧
      b.live = a.live.filter fun x => ¬ (x ∈ l ∧ a.inserted[x]? = some p) := by
  induction l generalizing m a c n fuel with
  | nil =>
      obtain ⟨fuel, rfl⟩ : ∃ k, fuel = k + 1 := ⟨fuel - 1, by simp at hfuel; omega⟩
      obtain ⟨m₁, hwalk, h₁⟩ := h.walk ok hc .fwd
      have hpass := Passes.walk ok hc .fwd
      have hnone : a.following .fwd c = none := by rw [following_eq, hl]; rfl
      rw [hnone] at hwalk hpass
      refine ⟨m₁, _, ?_, h₁, hpass, ?_⟩
      · simp [LinkedList.deleteLoop, hwalk]
      · simp [live_walk]
  | cons x l ih =>
      obtain ⟨fuel, rfl⟩ : ∃ k, fuel = k + 1 := ⟨fuel - 1, by simp at hfuel; omega⟩
      have hfuel : l.length < fuel := by simpa using hfuel
      obtain ⟨m₁, a₁, hstep, h₁, hpass₁, hpins₁, hpending₁, hlive₁⟩ :=
        h.deleteStep (p := p) n ok hc hl
      obtain ⟨m₂, b, hloop, h₂, hpass₂, hlive⟩ := ih _ h₁ hpass₁.ok hpins₁ hpending₁ hfuel
      rw [hpass₁.inserted_eq] at hloop hlive
      refine ⟨m₂, b, ?_, h₂, hpass₁.trans hpass₂, ?_⟩
      · rw [hstep, hloop, List.filter_cons]
        by_cases hdata : a.inserted[x]? = some p
        · simp only [hdata, if_true, decide_true, List.length_cons]
          rw [Nat.add_right_comm, Nat.add_assoc]
        · simp [hdata]
      · rw [hlive, hlive₁, List.filter_filter]
        apply List.filter_congr
        intro y _
        rw [Bool.eq_iff_iff]
        simp only [Bool.and_eq_true, decide_eq_true_eq, List.mem_cons]
        tauto

/-- `list_delete_data`. -/
theorem deleteData (h : Refines m a) (ok : a.Ok) (p : D) :
    ∃ m' b, listDeleteData p m = some (a.data.count p, m') ∧ Refines m' b ∧
      Passes none none a b ∧ b.data = a.data.filter (· ≠ p) := by
  have hfuel : (a.pending .fwd none).length < m.fresh + 1 := by
    have hfresh : m.fresh = a.inserted.length := congrArg Ledger.fresh h.ledger_eq
    rw [hfresh, Nat.lt_succ_iff, pending_none]
    exact length_le_of_nodup_of_lt ok.live_nodup fun x hx => ok.lt (mem_live.mp hx).1
  obtain ⟨m', b, hloop, h', hpass, hlive⟩ :=
    h.deleteLoop (p := p) 0 ok (c := none) (by simp) rfl hfuel
  refine ⟨m', b, ?_, h', hpass, data_filter ok hpass.ok ?_ hpass.inserted_eq⟩
  · rw [listDeleteData, hloop, count_data ok, Nat.zero_add, pending_none]
    rfl
  · rw [hlive, pending_none]
    apply List.filter_congr
    intro x hx
    have hx : x ∈ Dir.fwd.along a.live := hx
    simp [hx]

end Refines

/-! ## The sequence that the memory holds -/

namespace Refines

open Pinned

variable {m : State D F} {a : Pinned D F} {x : ℕ} {c : Ptr} {d : Dir}

theorem isDeleted_eq (h : Refines m a) (ok : a.Ok) (hx : x ∈ a.order) :
    m.isDeleted (some x) = a.marked x := by
  obtain ⟨p, hp⟩ := ok.exists_data hx
  exact Shape.isDeleted_eq h (Pinned.core_eq hx hp)

theorem liveNodes_eq (h : Refines m a) (ok : a.Ok) : liveNodes m = a.live := by
  rw [liveNodes, h.contents_eq ok]
  apply List.filter_congr
  intro x hx
  rw [h.isDeleted_eq ok (Dir.mem_along.mp hx)]

theorem liveData_eq (h : Refines m a) (ok : a.Ok) : liveData m = a.data := by
  rw [liveData, h.liveNodes_eq ok]
  apply List.filterMap_congr
  intro x hx
  exact h.nodeData ok (mem_live.mp hx).1

theorem nextLive_eq (h : Refines m a) (ok : a.Ok) : nextLive m d c = a.following d c := by
  have hmarks : ∀ l : List ℕ, (∀ x ∈ l, x ∈ a.order) →
      l.find? (fun x => !m.isDeleted (some x)) = l.find? fun x => !a.marked x := by
    intro l hl
    rw [← List.head?_filter, ← List.head?_filter]
    congr 1
    apply List.filter_congr
    intro x hx
    rw [h.isDeleted_eq ok (hl x hx)]
  have hafter : nextLive m d c = (a.after d c).find? fun x => !m.isDeleted (some x) := by
    unfold nextLive
    rw [h.contents_eq ok]
    cases c <;> rfl
  rw [hafter]
  exact hmarks _ fun x hx => mem_of_mem_after hx

theorem consistent (h : Refines m a) (ok : a.Ok) : Consistent m := by
  have hcontents : contents .fwd m = a.order := h.contents_eq ok .fwd
  refine ⟨hcontents ▸ h.linked, fun x => ?_⟩
  rw [hcontents, h.mem_iff, ← h.core_eq, State.core, Option.isSome_map]

/-- `list_items`. -/
theorem listItems_eq (h : Refines m a) (ok : a.Ok) (honce : (a.removed.map Prod.fst).Nodup) :
    listItems m = BitVec.ofNat 64 a.data.length := by
  have hlength := ok.length_removed honce
  have hdata : a.data.length = a.live.length := by simpa using congrArg List.length ok.map_data
  have hledger : m.toLedger = a.ledger := h.ledger_eq
  have hitems : listItems m = BitVec.ofNat 64 a.order.length -
      (BitVec.ofNat 64 a.removed.length - BitVec.ofNat 64 a.freed.length) := by
    rw [listItems, congrArg Ledger.items hledger, congrArg Ledger.deleted hledger]
    rfl
  have hsum : BitVec.ofNat 64 a.live.length + BitVec.ofNat 64 a.removed.length =
      BitVec.ofNat 64 a.order.length + BitVec.ofNat 64 a.freed.length := by
    rw [← BitVec.ofNat_add, ← BitVec.ofNat_add, hlength]
  rw [hitems, hdata]
  bv_omega

end Refines

/-! ## Runs -/

namespace Deque

open Pinned

/-- The list is this pinned sequence, its pins are the iterators, and no node has been
removed twice. -/
structure Inv [Fintype ι] (s : Deque ι D F) (a : Pinned D F) : Prop where
  refines : Refines s.mem a
  ok : a.Ok
  pins_eq : ∀ x, a.pins x = countAt s.cursor (some x)
  once : (a.removed.map Prod.fst).Nodup

variable [Fintype ι] {s t : Deque ι D F} {a b : Pinned D F} {m : State D F} {i : ι} {x : ℕ}
  {c w : Ptr}

/-- A node on which an iterator is parked has a pin. -/
theorem Inv.pinned (h : s.Inv a) (i : ι) : ∀ x ∈ s.cursor i, 0 < a.pins x := by
  intro x hx
  rw [h.pins_eq, countAt_pos]
  exact ⟨i, hx⟩

/-- A call with an iterator of its own, or with none. -/
theorem Inv.call (h : s.Inv a) (hpass : Passes none none a b) (hb : Refines m b) (o : Answer D) :
    Inv (s.returns o m) b :=
  ⟨hb, hpass.ok, fun x => (hpass.pins_eq x).trans (h.pins_eq x), hpass.once h.once⟩

theorem Inv.insert (h : s.Inv a) (d : Dir) (p : D) :
    ∃ m b, LinkedList.insert d p s.mem = some m ∧ Inv (s.returns .done m) b ∧
      b.data = d.append a.data p := by
  obtain ⟨m, hinsert, h'⟩ := h.refines.insert h.ok d p
  exact ⟨m, _, hinsert, ⟨h', h.ok.insert d p, h.pins_eq, h.once⟩, data_insert h.ok⟩

theorem Inv.take (h : s.Inv a) (d : Dir) :
    ∃ m b, LinkedList.take d s.mem = some ((d.along a.data).head?, m) ∧
      Inv (s.returns (.data (d.along a.data).head?) m) b ∧
      d.along b.data = (d.along a.data).tail := by
  cases hx : a.following d none with
  | none =>
      obtain ⟨m, htake, h'⟩ := h.refines.take_none h.ok hx
      have hlive : a.live = [] := by
        rw [following_eq, pending_none, List.head?_eq_none_iff] at hx
        cases d <;> simpa [Dir.along] using hx
      have hdata : a.data = [] := by simp [data, hlive]
      rw [hdata, Dir.along_nil]
      exact ⟨m, a, htake, ⟨h', h.ok, h.pins_eq, h.once⟩, by rw [hdata, Dir.along_nil]; rfl⟩
  | some x =>
      obtain ⟨p, m, b, hp, htake, h', hpass, hlive⟩ := h.refines.take_some h.ok hx
      have hdata := data_take h.ok hpass.ok hx hp hlive hpass.inserted_eq
      rw [hdata]
      exact ⟨m, b, htake, h.call hpass h' _, rfl⟩

variable [DecidableEq ι]

/-- A call that takes an iterator from one place to another. -/
theorem Inv.move (h : s.Inv a) (hpass : Passes (s.cursor i) w a b) (hb : Refines m b)
    (o : Answer D) : Inv { s.returns o m with cursor := Function.update s.cursor i w } b := by
  refine ⟨hb, hpass.ok, fun x => ?_, hpass.once h.once⟩
  have hpins := hpass.pins_eq x
  have hcount := countAt_update s.cursor i w (some x)
  rw [h.pins_eq] at hpins
  change b.pins x = countAt (Function.update s.cursor i w) (some x)
  omega

variable [DecidableEq D]

theorem Inv.asSequence {r : Request ι D F} (h : s.Inv a) (ht : t.Inv b)
    (hdata : b.data = r.onSequence (fun x => a.live.idxOf x) a.data)
    (hanswers : t.answers = s.answers ++ [r.answer s a.data]) (hcursor : t.cursor = r.cursors s) :
    AsSequence s r t := by
  refine ⟨?_, ?_, hcursor⟩
  · rw [ht.refines.liveData_eq ht.ok, h.refines.liveData_eq h.ok, h.refines.liveNodes_eq h.ok, hdata]
  · rw [h.refines.liveData_eq h.ok, hanswers]

/-- Every enabled call goes through and does what it does to a plain sequence. -/
theorem Inv.step {r : Request ι D F} (h : s.Inv a) (henabled : r.enabled s) :
    ∃ t b, s.run r = some t ∧ t.Inv b ∧ AsSequence s r t := by
  cases r with
  | push p =>
      obtain ⟨m, b, hinsert, h', hdata⟩ := h.insert .fwd p
      exact ⟨_, b, by simp [run, listPush, hinsert], h', h.asSequence h' hdata rfl rfl⟩
  | unshift p =>
      obtain ⟨m, b, hinsert, h', hdata⟩ := h.insert .bwd p
      exact ⟨_, b, by simp [run, listUnshift, hinsert], h', h.asSequence h' hdata rfl rfl⟩
  | pop =>
      obtain ⟨m, b, htake, h', hdata⟩ := h.take .bwd
      have hlast : (Dir.bwd.along a.data).head? = a.data.getLast? := List.head?_reverse
      have hinit : b.data = a.data.dropLast := by
        rw [← List.reverse_inj, ← List.tail_reverse]
        exact hdata
      rw [hlast] at htake h'
      exact ⟨_, b, by simp [run, listPop, htake], h', h.asSequence h' hinit rfl rfl⟩
  | shift =>
      obtain ⟨m, b, htake, h', hdata⟩ := h.take .fwd
      exact ⟨_, b, by simp [run, listShift, htake], h', h.asSequence h' hdata rfl rfl⟩
  | deleteData p =>
      obtain ⟨m, b, hdelete, hb, hpass, hdata⟩ := h.refines.deleteData h.ok p
      have h' := h.call hpass hb (.number (a.data.count p))
      exact ⟨_, b, by simp [run, hdelete], h', h.asSequence h' hdata rfl rfl⟩
  | items =>
      have h' : Inv (s.returns (.items (listItems s.mem)) s.mem) a :=
        ⟨h.refines, h.ok, h.pins_eq, h.once⟩
      refine ⟨_, a, rfl, h', h.asSequence h' rfl ?_ rfl⟩
      simp only [returns, Request.answer, h.refines.listItems_eq h.ok h.once]
  | remove x fr =>
      have hx : x ∈ a.order := by
        rw [h.refines.mem_iff, ← h.refines.core_eq, State.core, Option.isSome_map]
        exact henabled.1
      have hlive : x ∈ a.live :=
        mem_live.mpr ⟨hx, (h.refines.isDeleted_eq h.ok hx).symm.trans henabled.2⟩
      have hpass := Passes.remove h.ok hlive fr none
      obtain ⟨m, hremove, hb⟩ := h.refines.remove h.ok hx fr
      have h' := h.call hpass hb .done
      have hdata := data_remove h.ok hpass.ok live_remove hpass.inserted_eq
      exact ⟨_, _, by simp [run, hremove], h', h.asSequence h' hdata rfl rfl⟩
  | step i d =>
      obtain ⟨m, hwalk, hb⟩ := h.refines.walk h.ok (h.pinned i) d
      have hpass := Passes.walk h.ok (h.pinned i) d
      have hnext : nextLive s.mem d (s.cursor i) = a.following d (s.cursor i) :=
        h.refines.nextLive_eq h.ok
      have h' := h.move hpass hb (.data ((a.following d (s.cursor i)).bind (a.inserted[·]?)))
      refine ⟨_, _, by rw [run, hwalk, Option.map_some], h', h.asSequence h' ?_ ?_ ?_⟩
      · exact data_congr live_walk hpass.inserted_eq
      · have hmem : ∀ y ∈ a.following d (s.cursor i), y ∈ a.order := fun y hy =>
          (mem_of_following hy).1
        rw [Request.answer, hnext, h.refines.dataAt_eq h.ok hmem]
        rfl
      · rw [Request.cursors, hnext]
  | leave i =>
      obtain ⟨x, hx⟩ := Option.isSome_iff_exists.mp henabled
      have hpins : 0 < a.pins x := h.pinned i x hx
      obtain ⟨m, hleave, hb⟩ := h.refines.unlockDeref h.ok hpins
      have hpass := Passes.unpin h.ok hpins
      rw [← hx] at hpass hb
      have h' := h.move hpass hb .done
      refine ⟨_, _, by simp [run, hx, hleave], h', h.asSequence h' ?_ rfl rfl⟩
      exact data_congr live_unpin hpass.inserted_eq

theorem Inv.new : Inv (deque ι D F).init Pinned.new := by
  refine ⟨.new, .new, fun x => ?_, List.nodup_nil⟩
  have hnone : ∀ i, (deque ι D F).init.cursor i ≠ some x := by
    intro i hcursor
    cases hcursor
  rw [countAt_eq_zero.mpr hnone]
  rfl

end Deque

variable [Fintype ι] [DecidableEq ι] [DecidableEq D]

/-- Whatever iterators are parked where, every run of complete calls goes through, each
call does to the data what it does to a plain sequence, and the nodes are one doubly
linked chain throughout. -/
theorem deque_refines (rs : List (Request ι D F))
    (hvalid : (deque ι D F).Valid (deque ι D F).init rs) :
    (∃ t, (deque ι D F).exec (deque ι D F).init rs = some t) ∧
      (deque ι D F).AllSteps (fun s r => ∀ t ∈ (deque ι D F).step s r, AsSequence s r t)
        (deque ι D F).init rs ∧
      (deque ι D F).AllStates (fun s => Consistent s.mem) (deque ι D F).init rs := by
  have hkeep : ∀ s r, (∃ a, Deque.Inv s a) → (deque ι D F).enabled s r → True →
      ∃ t, (deque ι D F).step s r = some t ∧ ∃ a, Deque.Inv t a := by
    rintro s r ⟨a, h⟩ henabled -
    obtain ⟨t, b, hrun, h', -⟩ := h.step henabled
    exact ⟨t, hrun, b, h'⟩
  have hstep : ∀ s r, (∃ a, Deque.Inv s a) → (deque ι D F).enabled s r → True →
      ∀ t ∈ (deque ι D F).step s r, AsSequence s r t := by
    rintro s r ⟨a, h⟩ henabled - t ht
    obtain ⟨t', b, hrun, -, hsequence⟩ := h.step henabled
    obtain rfl : t' = t := Option.some.inj (hrun.symm.trans ht)
    exact hsequence
  have hguard : (deque ι D F).AllSteps (fun _ _ => True) (deque ι D F).init rs :=
    hvalid.mono fun _ _ _ => trivial
  obtain ⟨⟨t, hexec, -⟩, hall⟩ :=
    Machine.run_invariant hkeep ⟨Pinned.new, .new⟩ hvalid hguard
  exact ⟨⟨t, hexec⟩, Machine.allSteps_of_invariant hkeep hstep ⟨Pinned.new, .new⟩ hvalid hguard,
    hall.mono fun s ⟨a, h⟩ => h.refines.consistent h.ok⟩

/-- Two iterators keep both nodes of an emptied list, and then it is filled again. -/
def emptied : List (Request Bool ℕ ℕ) :=
  [.push 7, .push 7, .step false .fwd, .step true .bwd, .deleteData 7, .items, .pop, .unshift 5,
    .push 6, .step false .fwd, .remove 2 none, .shift, .leave true, .items]

theorem emptied_refines :
    (∃ t, (deque Bool ℕ ℕ).exec (deque Bool ℕ ℕ).init emptied = some t) ∧
      (deque Bool ℕ ℕ).AllSteps (fun s r => ∀ t ∈ (deque Bool ℕ ℕ).step s r, AsSequence s r t)
        (deque Bool ℕ ℕ).init emptied ∧
      (deque Bool ℕ ℕ).AllStates (fun s => Consistent s.mem) (deque Bool ℕ ℕ).init emptied :=
  deque_refines emptied (by decide)

end ThreeW3.LinkedList
