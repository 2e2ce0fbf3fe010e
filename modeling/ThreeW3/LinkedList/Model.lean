/-
# The shared list

`3w3_list.c` over a heap of nodes. Each locked section is one function on the
list's memory; an access to a node that is not allocated gives `none`. The pairs
`list_next` and `list_prev`, `list_push` and `list_unshift`, `list_shift` and
`list_pop` are one definition each, with the direction as a parameter.
-/

import ThreeW3.Lib.Heap
import ThreeW3.Lib.Linked

namespace ThreeW3.LinkedList

open ThreeW3.Lib

universe u v
variable {D : Type u} {F : Type v}

/-! ## Data -/

/-- The fields of `node_t` other than its links. `free` is null or a release
function. The counters are `int`s in the source, and agree with these integers as long as a run
stays in their range. -/
structure Core (D : Type u) (F : Type v) where
  data : D
  free : Option F
  rc : ℤ
  ic : ℤ
  deleted : Bool

/-- `node_t`. -/
structure Node (D : Type u) (F : Type v) extends Core D F where
  next : Ptr
  prev : Ptr

namespace Node

/-- `next` or `prev`. -/
def link (n : Node D F) : Dir → Ptr
  | .fwd => n.next
  | .bwd => n.prev

def setLink (n : Node D F) (d : Dir) (p : Ptr) : Node D F :=
  match d with
  | .fwd => { n with next := p }
  | .bwd => { n with prev := p }

variable {n : Node D F} {d : Dir} {p : Ptr}

@[simp] theorem setLink_core : (n.setLink d p).toCore = n.toCore := by
  cases d <;> rfl

@[simp] theorem link_setLink : (n.setLink d p).link d = p := by
  cases d <;> rfl

theorem link_setLink_of_ne {e : Dir} (he : e ≠ d) : (n.setLink d p).link e = n.link e := by
  cases d <;> cases e <;> first | rfl | exact absurd rfl he

end Node

/-- The counters of `list_t`, where the next node comes from, and a record of what
has happened: the calls of `list_remove` (the last one first), the nodes given to
free(3), and the calls of release functions. -/
structure Ledger (D : Type u) (F : Type v) where
  items : BitVec 64
  deleted : BitVec 64
  fresh : ℕ
  removed : List (ℕ × Option F)
  freed : List ℕ
  released : List (ℕ × F × D)

/-- `list_t` with its nodes. -/
structure State (D : Type u) (F : Type v) extends Ledger D F where
  start : Ptr
  last : Ptr
  node : Heap (Node D F)

/-- `list_new`. -/
def listNew : State D F where
  items := 0
  deleted := 0
  fresh := 0
  removed := []
  freed := []
  released := []
  start := none
  last := none
  node := .empty

/-- `node_new`. -/
def nodeNew (p : D) : Node D F where
  data := p
  free := none
  rc := 1
  ic := 0
  deleted := false
  next := none
  prev := none

namespace State

/-- Where a walk in this direction starts. -/
def first (m : State D F) : Dir → Ptr
  | .fwd => m.start
  | .bwd => m.last

def setFirst (m : State D F) (d : Dir) (p : Ptr) : State D F :=
  match d with
  | .fwd => { m with start := p }
  | .bwd => { m with last := p }

/-- The links in a direction. -/
def link (m : State D F) (d : Dir) : ℕ → Ptr := m.node.field (·.link d)

/-- Change the fields of a node other than its links, through a pointer. -/
def modify (m : State D F) (p : Ptr) (f : Core D F → Core D F) : Option (State D F) :=
  (m.node.writeThrough p fun n => { n with toCore := f n.toCore }).map fun h => { m with node := h }

/-- The data of the node at a pointer. -/
def dataAt (m : State D F) (p : Ptr) : Option D := (p.bind m.node.load).map (·.data)

/-- `*node && (*node)->deleted`. -/
def isDeleted (m : State D F) (cursor : Ptr) : Bool := (cursor.bind m.node.load).any (·.deleted)

end State

/-! ## Locked sections -/

/-- `node->rc++`. -/
def listRef (c : Core D F) : Core D F := { c with rc := c.rc + 1 }

/-- `list_unlink` once the neighbours are joined: the ends, the release function,
the counters, and free(3). -/
def State.dropNode (m : State D F) (x : ℕ) (n : Node D F) (h : Heap (Node D F)) : State D F :=
  { m with
    start := if m.start = some x then n.next else m.start
    last := if m.last = some x then n.prev else m.last
    released := match n.free with
      | none => m.released
      | some f => m.released ++ [(x, f, n.data)]
    deleted := if n.deleted then m.deleted - 1 else m.deleted
    items := m.items - 1
    node := h.free x
    freed := m.freed ++ [x] }

/-- `list_unlink`. -/
def listUnlink (x : ℕ) (m : State D F) : Option (State D F) := do
  let n ← m.node.load x
  let h ← m.node.writeThrough n.prev (·.setLink .fwd n.next)
  let h ← h.writeThrough n.next (·.setLink .bwd n.prev)
  some (m.dropNode x n h)

/-- `list_deref`. -/
def listDeref (x : ℕ) (m : State D F) : Option (State D F) := do
  let m ← m.modify (some x) fun c => { c with rc := c.rc - 1 }
  let n ← m.node.load x
  if n.rc ≤ 0 ∧ n.ic ≤ 0 then listUnlink x m else some m

/-- The body of the loop in `list_next` and `list_prev`. -/
def advance (d : Dir) (cursor : Ptr) (m : State D F) : Option (Ptr × State D F) :=
  match cursor with
  | none => do
    let m ← m.modify (m.first d) listRef
    let m ← m.modify (m.first d) fun c => { c with ic := c.ic + 1 }
    some (m.first d, m)
  | some x => do
    let n ← m.node.load x
    let m ← m.modify (n.link d) listRef
    let m ← m.modify (some x) fun c => { c with ic := c.ic - 1 }
    let m ← listDeref x m
    let m ← m.modify (n.link d) fun c => { c with ic := c.ic + 1 }
    some (n.link d, m)

/-- The loop. The list has at most `fresh` nodes, which bounds its turns. -/
def walkLoop (d : Dir) : ℕ → Ptr → State D F → Option (Ptr × State D F)
  | 0, _, _ => none
  | fuel + 1, cursor, m => do
    let (cursor, m) ← advance d cursor m
    if m.isDeleted cursor then walkLoop d fuel cursor m else some (cursor, m)

/-- What a caller gets: a node and its data, or two null pointers. -/
structure Reply (D : Type u) where
  node : Ptr
  data : Option D
  deriving DecidableEq

/-- `list_next` and `list_prev`: the new value of `*node`, and the data returned. -/
def walk (d : Dir) (cursor : Ptr) (m : State D F) : Option (Reply D × State D F) := do
  let (cursor, m) ← walkLoop d (m.fresh + 1) cursor m
  some (⟨cursor, m.dataAt cursor⟩, m)

def listNext : Ptr → State D F → Option (Reply D × State D F) := walk .fwd

def listPrev : Ptr → State D F → Option (Reply D × State D F) := walk .bwd

/-- The new node in the memory, and the counters. -/
def State.addNode (m : State D F) (n : Node D F) (h : Heap (Node D F)) : State D F :=
  { m with node := h.store m.fresh n, fresh := m.fresh + 1, items := m.items + 1 }

/-- `list_push` and `list_unshift`: the new node comes last in this direction. -/
def insert (d : Dir) (p : D) (m : State D F) : Option (State D F) :=
  let x := m.fresh
  match m.start with
  | none => some ({ m with start := some x, last := some x }.addNode (nodeNew p) m.node)
  | some _ => (m.first d.opp).bind fun e => do
    let h ← m.node.writeThrough (some e) (·.setLink d (some x))
    some ((m.setFirst d.opp (some x)).addNode ((nodeNew p).setLink d.opp (some e)) h)

def listPush : D → State D F → Option (State D F) := insert .fwd

def listUnshift : D → State D F → Option (State D F) := insert .bwd

/-- `list_remove`. -/
def listRemove (x : ℕ) (fr : Option F) (m : State D F) : Option (State D F) := do
  let m ← m.modify (some x) fun c => { c with deleted := true, free := fr }
  listDeref x { m with deleted := m.deleted + 1, removed := (x, fr) :: m.removed }

/-- `list_unlock_deref`. -/
def listUnlockDeref (x : ℕ) (m : State D F) : Option (State D F) := do
  let m ← m.modify (some x) fun c => { c with ic := c.ic - 1 }
  listDeref x m

/-- A read of `node->data`, outside the lock. -/
def nodeData (x : ℕ) (m : State D F) : Option D := m.dataAt (some x)

/-- The nodes that a pointer walk along the links meets. -/
def contents (d : Dir) (m : State D F) : List ℕ := follow (m.link d) m.fresh (m.first d)

/-- `list_remove` has been called for the node. -/
def State.Removed (m : State D F) (x : ℕ) : Prop := x ∈ m.removed.map Prod.fst

/-- The node is in the list and not deleted. -/
def State.Present (m : State D F) (x : ℕ) : Prop :=
  x ∈ contents .fwd m ∧ m.isDeleted (some x) = false

instance (m : State D F) (x : ℕ) : Decidable (m.Present x) := inferInstanceAs (Decidable (_ ∧ _))

/-- `list_items`. -/
def listItems (m : State D F) : BitVec 64 := m.items - m.deleted

end ThreeW3.LinkedList
