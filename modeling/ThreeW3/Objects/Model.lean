/-
# Counted objects and their attributes

`3w3_alloc.c`: objects with a reference count, a finalizer and a singly linked list of named
attributes. `FREE` of the last reference runs the finalizer and releases the attributes, and
the release of an attribute may be `FREE` again, of another object.

Objects and attributes are records at addresses that are not given out again. An access
that finds no record is a read of freed memory. Loops and the recursion of `FREE` have as
much fuel as there are addresses. What the hooks of other files do is a parameter: they see
the value they are given and a state of their own.
-/

import ThreeW3.Lib.Heap

namespace ThreeW3.Objects

open ThreeW3.Lib

/-! ## Memory -/

/-- A name, without its NUL. -/
abbrev Name := List UInt8

/-- An `attr_ref_t`: `ref` of this file, or a function of another one. -/
inductive RefFn (R : Type)
  | ref
  | other (r : R)
  deriving DecidableEq, Repr

/-- The `free_fn` of an attribute: `FREE` of this file, or a function of another one. -/
inductive FreeFn (F : Type)
  | free
  | other (f : F)
  deriving DecidableEq, Repr

/-- What functions of other files do. -/
structure Hooks (R F W : Type) where
  get : R → Ptr → W → Ptr × W
  call : F → Ptr → W → W

/-- `attri_t`. The name is null if strdup(3) has failed. -/
structure Attri (R F : Type) where
  name : Option Name
  value : Ptr
  ref : Option (RefFn R)
  free : Option (FreeFn F)
  next : Ptr
  deriving DecidableEq, Repr

/-- `alloc_t` -/
structure Alloc (F : Type) where
  rc : ℤ
  ref : Option F
  free : Option F
  attr : Ptr
  deriving DecidableEq, Repr

/-- What has happened to the objects that `allocd` gave out, with their finalizers, and to
the attributes that `attr_set` made, with the objects they are for. -/
structure Ledger (F : Type) where
  given : List (ℕ × Option F)
  made : List (ℕ × ℕ)
  finalized : List ℕ
  released : List ℕ
  freed : List ℕ
  deriving DecidableEq, Repr

/-- Objects, attributes, how many addresses have been given out, and the state of the hooks. -/
structure State (R F W : Type) where
  objects : Heap (Alloc F)
  attris : Heap (Attri R F)
  count : ℕ
  world : W
  ledger : Ledger F

/-- How a call can go wrong. -/
inductive Fault
  | nullPointer
  | freed
  | endless
  deriving DecidableEq, Repr

@[simp] theorem ok_bind {α β : Type} (a : α) (f : α → Except Fault β) :
    (Except.ok a >>= f) = f a := rfl

@[simp] theorem error_bind {α β : Type} (e : Fault) (f : α → Except Fault β) :
    (Except.error e >>= f) = .error e := rfl

variable {R F W : Type}

namespace State

/-- No object yet. -/
def start (w : W) : State R F W := ⟨.empty, .empty, 0, w, ⟨[], [], [], [], []⟩⟩

/-- The object at `p`. -/
def object (s : State R F W) (p : ℕ) : Except Fault (Alloc F) :=
  (s.objects.load p).elim (.error .freed) .ok

/-- The attribute at `a`. -/
def attri (s : State R F W) (a : ℕ) : Except Fault (Attri R F) :=
  (s.attris.load a).elim (.error .freed) .ok

/-- `n->next = x` -/
def setNext (s : State R F W) (n : ℕ) (x : Ptr) : Except Fault (State R F W) := do
  let r ← s.attri n
  .ok { s with attris := s.attris.store n { r with next := x } }

/-- `p->next = x`, or `tca->attr = x` where there is no `p`. -/
def setLink (s : State R F W) (tca : ℕ) (p x : Ptr) : Except Fault (State R F W) :=
  match p with
  | some p => s.setNext p x
  | none => do
      let o ← s.object tca
      .ok { s with objects := s.objects.store tca { o with attr := x } }

end State

/-- `strcmp(name, a->name)`, whether they differ. -/
def strcmp (name : Name) (name' : Option Name) : Except Fault Bool :=
  name'.elim (.error .nullPointer) fun name' => .ok (decide (name ≠ name'))

/-! ## Objects -/

section Hooks

variable (H : Hooks R F W)

/-- `if(f) f(p);` -/
def callHook (f : Option F) (p : Ptr) (w : W) : W := f.elim w fun f => H.call f p w

/-- `allocd`, where malloc(3) succeeds or not. -/
def allocd (s : State R F W) (r f : Option F) (succeeds : Bool) : State R F W × Ptr :=
  if succeeds then
    ({ s with
      objects := s.objects.store s.count ⟨1, r, f, none⟩
      count := s.count + 1
      ledger := { s.ledger with given := s.ledger.given ++ [(s.count, f)] } }, some s.count)
  else (s, none)

/-- `ref` -/
def ref (s : State R F W) (p : Ptr) : Except Fault (State R F W) :=
  match p with
  | none => .error .nullPointer
  | some p => do
      let o ← s.object p
      .ok { s with
        objects := s.objects.store p { o with rc := o.rc + 1 }
        world := callHook H o.ref p s.world }

/-- `attr_free`, given what `FREE` does. -/
def attrFree (free : State R F W → Ptr → Except Fault (State R F W)) (s : State R F W) (a : ℕ) :
    Except Fault (State R F W) := do
  let r ← s.attri a
  let s ← match r.free with
    | none => .ok s
    | some .free => free s r.value
    | some (.other f) => .ok { s with world := H.call f r.value s.world }
  let _ ← s.attri a
  .ok { s with
    attris := s.attris.free a
    ledger := { s.ledger with released := s.ledger.released ++ [a] } }

/-- The loop of `FREE`, which reads `a->next` before it frees `a`. -/
def freeAttrs (free : State R F W → Ptr → Except Fault (State R F W)) :
    ℕ → State R F W → Ptr → Except Fault (State R F W)
  | _, s, none => .ok s
  | 0, _, some _ => .error .endless
  | fuel + 1, s, some a => do
      let r ← s.attri a
      let s ← attrFree H free s a
      freeAttrs free fuel s r.next

/-- `FREE`, with a bound on the depth of its recursion. -/
def freeDepth : ℕ → State R F W → Ptr → Except Fault (State R F W)
  | _, s, none => .ok s
  | 0, _, some _ => .error .endless
  | depth + 1, s, some p => do
      let o ← s.object p
      let s := { s with objects := s.objects.store p { o with rc := o.rc - 1 } }
      if o.rc - 1 ≠ 0 then .ok s
      else
        let s := { s with
          world := callHook H o.free p s.world
          ledger := { s.ledger with
            finalized := s.ledger.finalized ++ (o.free.map fun _ => p).toList } }
        let s ← freeAttrs H (freeDepth depth) s.count s o.attr
        let _ ← s.object p
        .ok { s with
          objects := s.objects.free p
          ledger := { s.ledger with freed := s.ledger.freed ++ [p] } }

/-- `FREE` -/
def FREE (s : State R F W) (p : Ptr) : Except Fault (State R F W) := freeDepth H s.count s p

/-! ## Attributes -/

/-- The loop of `attr_set`: `p` and `a` at its end. -/
def attrSetLoop (s : State R F W) (name : Name) : ℕ → Ptr → Ptr → Except Fault (Ptr × Ptr)
  | _, p, none => .ok (p, none)
  | 0, _, some _ => .error .endless
  | fuel + 1, p, some a => do
      let r ← s.attri a
      if r.next = none then .ok (p, some a)
      else if ← strcmp name r.name then attrSetLoop s name fuel (some a) r.next
      else .ok (p, some a)

/-- Whether calloc(3) and strdup(3) succeed. -/
structure Grant where
  calloc : Bool
  strdup : Bool
  deriving DecidableEq, Repr

/-- The new attribute of `attr_set`. -/
def newAttri (s : State R F W) (tca : ℕ) (name : Name) (val : Ptr) (r : Option (RefFn R))
    (f : Option (FreeFn F)) (g : Grant) : Except Fault (State R F W × ℕ) :=
  if g.calloc then
    .ok ({ s with
      attris := s.attris.store s.count ⟨if g.strdup then some name else none, val, r, f, none⟩
      count := s.count + 1
      ledger := { s.ledger with made := s.ledger.made ++ [(tca, s.count)] } }, s.count)
  else .error .nullPointer

/-- `attr_set`. It always returns 0. -/
def attrSet (s : State R F W) (tca : ℕ) (name : Name) (val : Ptr) (r : Option (RefFn R))
    (f : Option (FreeFn F)) (g : Grant) : Except Fault (State R F W) := do
  let o ← s.object tca
  let (p, a) ← attrSetLoop s name s.count none o.attr
  let (s, n) ← newAttri s tca name val r f g
  match a with
  | none => s.setLink tca none (some n)
  | some a => do
      let ra ← s.attri a
      if ← strcmp name ra.name then s.setNext a (some n)
      else
        let s ← s.setNext n ra.next
        let s ← s.setLink tca p (some n)
        attrFree H (FREE H) s a

/-- `a->ref? a->ref(a->value): a->value` -/
def attrValue (s : State R F W) (r : Attri R F) : Except Fault (State R F W × Ptr) :=
  match r.ref with
  | none => .ok (s, r.value)
  | some .ref => do
      let s ← ref H s r.value
      .ok (s, r.value)
  | some (.other g) =>
      let (v, w) := H.get g r.value s.world
      .ok ({ s with world := w }, v)

/-- The loop of `attr_get`. -/
def attrGetLoop (s : State R F W) (name : Name) : ℕ → Ptr → Except Fault Ptr
  | _, none => .ok none
  | 0, some _ => .error .endless
  | fuel + 1, some a => do
      let r ← s.attri a
      if ← strcmp name r.name then attrGetLoop s name fuel r.next else .ok (some a)

/-- `attr_get` -/
def attrGet (s : State R F W) (tca : ℕ) (name : Name) : Except Fault (State R F W × Ptr) := do
  let o ← s.object tca
  match ← attrGetLoop s name s.count o.attr with
  | none => .ok (s, none)
  | some a => do
      let r ← s.attri a
      attrValue H s r

/-- The loop of `attr_getall` from `i` on: the slots that it fills. -/
def attrGetallLoop (n : ℤ) : ℕ → ℤ → State R F W → Ptr →
    Except Fault (State R F W × List (Option Name × Ptr))
  | _, _, s, none => .ok (s, [])
  | 0, _, _, some _ => .error .endless
  | fuel + 1, i, s, some a =>
      if i < n then do
        let r ← s.attri a
        let (s, v) ← attrValue H s r
        let (s, slots) ← attrGetallLoop n fuel (i + 1) s r.next
        .ok (s, (r.name, v) :: slots)
      else .ok (s, [])

/-- `attr_getall`, which returns the number of slots. -/
def attrGetall (s : State R F W) (tca : ℕ) (n : ℤ) :
    Except Fault (State R F W × List (Option Name × Ptr)) := do
  let o ← s.object tca
  attrGetallLoop H n s.count 0 s o.attr

/-- The loop of `attr_del`: `p` and `a` at its end. -/
def attrDelLoop (s : State R F W) (name : Name) : ℕ → Ptr → Ptr → Except Fault (Ptr × Ptr)
  | _, p, none => .ok (p, none)
  | 0, _, some _ => .error .endless
  | fuel + 1, p, some a => do
      let r ← s.attri a
      if ← strcmp name r.name then attrDelLoop s name fuel (some a) r.next else .ok (p, some a)

/-- `attr_del`. It always returns 0. -/
def attrDel (s : State R F W) (tca : ℕ) (name : Name) : Except Fault (State R F W) := do
  let o ← s.object tca
  let (p, a) ← attrDelLoop s name s.count none o.attr
  match a with
  | none => .ok s
  | some a => do
      let ra ← s.attri a
      let s ← s.setLink tca p ra.next
      attrFree H (FREE H) s a

end Hooks

end ThreeW3.Objects
