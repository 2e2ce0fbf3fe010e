/-
# Clients of a list

Threads that share a list. A client has one iterator, or one call of `list_pop`,
`list_shift` or `list_delete_data` in progress; a thread with several iterators is
several clients. Such a call is a sequence of locked sections with reads of a node's
data between them. Each locked section and each read is one step, and the steps of
all clients interleave in any order.
-/

import Mathlib.Logic.Function.Basic
import ThreeW3.Lib.Machine
import ThreeW3.LinkedList.Model

namespace ThreeW3.LinkedList

open ThreeW3.Lib

universe u v w
variable {D : Type u} {F : Type v} {ι : Type w}

/-! ## Steps on the list -/

/-- A locked section, or a read of `node->data`. -/
inductive Op (D : Type u) (F : Type v)
  | insert (d : Dir) (p : D)
  | walk (d : Dir) (c : Ptr)
  | read (x : ℕ)
  | remove (x : ℕ) (fr : Option F)
  | leave (x : ℕ)

/-- The step, with what the caller gets from it. -/
def Op.run : Op D F → State D F → Option (Reply D × State D F)
  | .insert d p, m => (LinkedList.insert d p m).map fun m => (⟨none, none⟩, m)
  | .walk d c, m => LinkedList.walk d c m
  | .read x, m => (nodeData x m).map fun p => (⟨some x, some p⟩, m)
  | .remove x fr, m => (listRemove x fr m).map fun m => (⟨none, none⟩, m)
  | .leave x, m => (listUnlockDeref x m).map fun m => (⟨none, none⟩, m)

/-! ## Programs of the clients -/

/-- Where a client is. -/
inductive Task (D : Type u)
  /-- Between calls, with its iterator, which may be null. -/
  | walking (c : Ptr)
  /-- In `list_next` or `list_prev`. -/
  | stepping (d : Dir) (c : Ptr)
  /-- In `list_unlock_deref`, at the end of an iteration. -/
  | leaving (x : ℕ)
  /-- In `list_shift` or `list_pop`, looking for a node. -/
  | finding (d : Dir)
  /-- It has found one. -/
  | taking (x : ℕ)
  /-- It has read the data. -/
  | holding (x : ℕ) (p : D)
  /-- It has removed the node. -/
  | taken (x : ℕ) (p : D)
  /-- In `list_delete_data`, at the loop header, with `n` matches so far. -/
  | deleting (p : D) (c : Ptr) (n : ℕ)
  /-- At the comparison. -/
  | matching (p : D) (x : ℕ) (n : ℕ)
  /-- At the call of `list_remove`. -/
  | removing (p : D) (x : ℕ) (n : ℕ)
  deriving DecidableEq

/-- What the clients see. -/
inductive Event (ι : Type w) (D : Type u)
  | visited (i : ι) (d : Dir) (c : Ptr)
  | took (i : ι) (x : ℕ) (p : D)
  | nothing (i : ι)
  | counted (i : ι) (x : ℕ)
  | deletedData (i : ι) (p : D) (n : ℕ)
  | removed (x : ℕ)
  deriving DecidableEq

namespace Task

/-- The node on which the client's iterator, or that of its call, is parked. -/
def pinned : Task D → Ptr
  | walking c => c
  | stepping _ c => c
  | leaving x => some x
  | finding _ => none
  | taking x => some x
  | holding x _ => some x
  | taken x _ => some x
  | deleting _ c _ => c
  | matching _ x _ => some x
  | removing _ x _ => some x

/-- The next step of a call in progress. -/
def op : Task D → Option (Op D F)
  | walking _ => none
  | stepping d c => some (.walk d c)
  | leaving x => some (.leave x)
  | finding d => some (.walk d none)
  | taking x => some (.read x)
  | holding x _ => some (.remove x none)
  | taken x _ => some (.leave x)
  | deleting _ c _ => some (.walk .fwd c)
  | matching _ x _ => some (.read x)
  | removing _ x _ => some (.remove x none)

/-- How the call goes on after the step. -/
def reply [DecidableEq D] (i : ι) : Task D → Reply D → Option (Task D × List (Event ι D))
  | walking _, _ => none
  | stepping d _, r => some (walking r.node, [.visited i d r.node])
  | leaving _, _ => some (walking none, [])
  | finding _, r => match r.node with
    | none => some (walking none, [.nothing i])
    | some x => some (taking x, [])
  | taking x, r => r.data.map fun p => (holding x p, [])
  | holding x p, _ => some (taken x p, [])
  | taken x p, _ => some (walking none, [.took i x p])
  | deleting p _ n, r => match r.node with
    | none => some (walking none, [.deletedData i p n])
    | some x => some (matching p x n, [])
  | matching p x n, r => r.data.map fun q =>
      (if p = q then removing p x n else deleting p (some x) n, [])
  | removing p x n, _ => some (deleting p (some x) (n + 1), [.counted i x])

end Task

/-- The calls that a client makes on its own. -/
inductive Call (D : Type u)
  | walk (d : Dir)
  | leave
  | take (d : Dir)
  | deleteData (p : D)
  deriving DecidableEq

/-- `list_next` and `list_prev` continue an iteration and `list_unlock_deref` ends
one; the other calls have an iterator of their own. -/
def Call.start : Call D → Task D → Option (Task D)
  | walk d, .walking c => some (.stepping d c)
  | leave, .walking (some x) => some (.leaving x)
  | take d, .walking none => some (.finding d)
  | deleteData p, .walking none => some (.deleting p none 0)
  | _, _ => none

/-! ## The system -/

/-- The list, its clients, and what they have seen. -/
structure Sys (ι : Type w) (D : Type u) (F : Type v) where
  mem : State D F
  task : ι → Task D
  trace : List (Event ι D)

/-- A step of somebody. `list_push`, `list_unshift` and `list_remove` are one step
each and need no iterator. -/
inductive Action (ι : Type w) (D : Type u) (F : Type v)
  | insert (d : Dir) (p : D)
  | remove (x : ℕ) (fr : Option F)
  | call (i : ι) (c : Call D)
  | resume (i : ι)
  deriving DecidableEq

/-- The client that makes the step and the call it is in. -/
def Action.runs (s : Sys ι D F) : Action ι D F → Option (ι × Task D)
  | insert _ _ => none
  | remove _ _ => none
  | call i c => (c.start (s.task i)).map fun t => (i, t)
  | resume i => some (i, s.task i)

/-- The step on the list. -/
def Action.op (s : Sys ι D F) : Action ι D F → Option (Op D F)
  | insert d p => some (.insert d p)
  | remove x fr => some (.remove x fr)
  | act => (act.runs s).bind fun r => r.2.op

/-- A client may make the calls that its iterator allows, and go on with a call.
`list_remove` is given a node of the list. -/
def Action.enabled (s : Sys ι D F) : Action ι D F → Prop
  | insert _ _ => True
  | remove x _ => (s.mem.node.load x).isSome = true
  | act => (act.op s).isSome = true

instance (s : Sys ι D F) (act : Action ι D F) : Decidable (act.enabled s) :=
  match act with
  | .insert _ _ => isTrue trivial
  | .remove x _ => inferInstanceAs (Decidable ((s.mem.node.load x).isSome = true))
  | .call i c => inferInstanceAs (Decidable (((Action.call i c).op s).isSome = true))
  | .resume i => inferInstanceAs (Decidable (((Action.resume i).op s).isSome = true))

variable [DecidableEq ι] [DecidableEq D]

/-- A step of a client in a call. -/
def Sys.advance (s : Sys ι D F) (i : ι) (t : Task D) : Option (Sys ι D F) :=
  t.op.bind fun op : Op D F => (op.run s.mem).bind fun (r, m) => (t.reply i r).map fun (t, es) =>
    { mem := m, task := Function.update s.task i t, trace := s.trace ++ es }

def Sys.step (s : Sys ι D F) : Action ι D F → Option (Sys ι D F)
  | .insert d p => ((Op.insert d p).run s.mem).map fun q => { s with mem := q.2 }
  | .remove x fr => ((Op.remove x fr).run s.mem).map fun q =>
      { s with mem := q.2, trace := s.trace ++ [.removed x] }
  | act => (act.runs s).bind fun r => s.advance r.1 r.2

/-- A new list and idle clients. -/
def Sys.new : Sys ι D F := ⟨listNew, fun _ => .walking none, []⟩

/-- The clients of a new list. -/
def clients (ι : Type w) (D : Type u) (F : Type v) [DecidableEq ι] [DecidableEq D] :
    Machine (Sys ι D F) (Action ι D F) where
  init := .new
  enabled := fun s act => act.enabled s
  step := Sys.step

instance (s : Sys ι D F) (act : Action ι D F) : Decidable ((clients ι D F).enabled s act) :=
  inferInstanceAs (Decidable (act.enabled s))

end ThreeW3.LinkedList
