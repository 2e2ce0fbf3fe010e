/-
# The hash table

The functions of `3w3_hash.c` over chains of entries whose memory comes from a pool of
`3w3_mpool.c`. Each function is cut where it takes and gives back the lock, so that one
definition serves calls one after another and calls that overlap.

`none` stands for a run that has no defined end: a null or unmapped pointer is followed,
an array is overrun, a `float` is out of the range of its conversion, `hash_size` loops
for ever, or a thread waits for a lock that it holds. The fields of an entry are in
`HashEntry`; the pool reads the first word of a chunk only while the chunk is free.
-/

import Mathlib.Algebra.Order.Field.Rat
import ThreeW3.Pool.Model

namespace ThreeW3.Hash

open ThreeW3.Pool

/-! ## Memory and keys -/

/-- A block of memory: the `n`th that this code has got from malloc(3) or calloc(3), or
one of its callers'. -/
inductive Block
  | own (n : ℕ)
  | foreign (n : ℕ)
  deriving DecidableEq, Repr

/-- An address in a block. -/
structure Address where
  block : Block
  offset : ℕ
  deriving DecidableEq, Repr

/-- The calls of malloc(3), calloc(3) and free(3). -/
structure Malloc where
  /-- How many blocks have been given out. -/
  count : ℕ
  /-- The key copies that have been made for entries, in order. -/
  copied : List Address
  /-- What has been passed to free(3), in order. -/
  freed : List Address
  deriving DecidableEq

namespace Malloc

variable (m : Malloc)

/-- The address of the next block. -/
def next : Address := ⟨.own m.count, 0⟩

/-- malloc(3) and calloc(3). -/
def take : Malloc := { m with count := m.count + 1 }

/-- `free(p)`. -/
def free (p : Option Address) : Malloc := { m with freed := m.freed ++ p.toList }

end Malloc

/-- A key: where it is, and its bytes. -/
structure Key where
  ptr : Address
  bytes : List UInt8
  deriving DecidableEq, Repr

/-- The arguments `key` and `ks`, and the bytes that can be read from `key` on. -/
structure KeyArg where
  key : Address
  memory : List UInt8
  ks : ℕ
  deriving DecidableEq, Repr

def strlen (memory : List UInt8) : ℕ := (memory.takeWhile (· ≠ 0)).length

/-- `if(ks == (size_t) -1) ks = strlen(key) + 1;` -/
def KeyArg.size (a : KeyArg) : ℕ := if a.ks = sizeModulus - 1 then strlen a.memory + 1 else a.ks

/-- The key of a call, if all of it can be read. -/
def KeyArg.resolve (a : KeyArg) : Option Key :=
  if a.size ≤ a.memory.length then some ⟨a.key, a.memory.take a.size⟩ else none

/-! ## The table -/

/-- The `float` arithmetic of the load tests. -/
class FloatOps (R : Type) where
  /-- `(float) n` of a `size_t`. -/
  ofSize : ℕ → R
  add : R → R → R
  div : R → R → R
  lt : R → R → Bool
  /-- The conversion to `unsigned int`, where it is defined. -/
  toUnsigned : R → Option (BitVec 32)
  zero : R
  /-- `0.7` -/
  highMark : R
  /-- `0.3` -/
  lowMark : R

/-- Exact arithmetic in place of `float`. -/
instance : FloatOps ℚ where
  ofSize n := n
  add x y := x + y
  div x y := x / y
  lt x y := decide (x < y)
  toUnsigned x := if 0 ≤ x ∧ x < 0x100000000 then some (BitVec.ofInt 32 x.floor) else none
  zero := 0
  highMark := 7 / 10
  lowMark := 3 / 10

/-- `hash_entry`, in the chunk at `addr`. The next entry is the next one of the list. -/
structure HashEntry (D : Type) where
  addr : ℕ
  key : Option Key
  keySize : ℕ
  data : D
  deriving DecidableEq

/-- `sizeof(hash_entry)` -/
def sizeofHashEntry : ℕ := 4 * ptrSize

/-- `offsetof(alloc_t, data)`: a counter, two functions and the attributes come first. -/
def allocDataOffset : ℕ := 4 * ptrSize

/-- `hash_table_t` at `addr`, with the pool at `mpAddr` and the calls of malloc(3) and
free(3) so far. -/
structure HashTable (R : Type) (D : Type) where
  addr : Address
  hashFunc : List UInt8 → BitVec 32
  size : ℕ
  entries : ℕ
  /-- The bucket array and the chains in it. -/
  buckets : Option (Address × List (List (HashEntry D)))
  flags : BitVec 32
  locking : Bool
  locked : Bool
  highMark : R
  lowMark : R
  mpAddr : Address
  mp : State
  malloc : Malloc

/-- What the system gives to a call: the page if mmap(2) is called, and whether the
allocations of a key copy, a bucket array, a key array and its key copies succeed. Copies
past the end of the list do. -/
structure Alloc where
  page : ℕ
  key : Bool
  buckets : Bool
  keys : Bool
  keyCopies : List Bool

def hashFrozen : BitVec 32 := 1

def hashNocopy : BitVec 32 := 2

/-! ## Hash values and sizes -/

/-- `mix` -/
def mix (a b c : BitVec 32) : BitVec 32 × BitVec 32 × BitVec 32 :=
  let a := (a - b - c) ^^^ (c >>> 13)
  let b := (b - c - a) ^^^ (a <<< 8)
  let c := (c - a - b) ^^^ (b >>> 13)
  let a := (a - b - c) ^^^ (c >>> 12)
  let b := (b - c - a) ^^^ (a <<< 16)
  let c := (c - a - b) ^^^ (b >>> 5)
  let a := (a - b - c) ^^^ (c >>> 3)
  let b := (b - c - a) ^^^ (a <<< 10)
  let c := (c - a - b) ^^^ (b >>> 15)
  (a, b, c)

/-- `(unsigned int) k[i]`, for a signed `char`. -/
def char (k : List UInt8) (i : ℕ) : BitVec 32 := (k.getD i 0).toBitVec.signExtend 32

/-- The loop of `hash_func` over `n` groups of twelve bytes, and what is left of the key. -/
def hashGroups : ℕ → List UInt8 → BitVec 32 × BitVec 32 × BitVec 32 →
    List UInt8 × BitVec 32 × BitVec 32 × BitVec 32
  | 0, k, abc => (k, abc)
  | n + 1, k, (a, b, c) =>
      let a := a + (char k 0 + (char k 1 <<< 8) + (char k 2 <<< 16) + (char k 3 <<< 24))
      let b := b + (char k 4 + (char k 5 <<< 8) + (char k 6 <<< 16) + (char k 7 <<< 24))
      let c := c + (char k 8 + (char k 9 <<< 8) + (char k 10 <<< 16) + (char k 11 <<< 24))
      hashGroups n (k.drop 12) (mix a b c)

/-- `hash_func`. Only the low 32 bits of the length count. -/
def hashFunc (key : List UInt8) : BitVec 32 :=
  let len := key.length % 0x100000000
  let (k, a, b, c) := hashGroups (len / 12) (key.take len) (0x9e3779b9, 0x9e3779b9, 0)
  -- The switch falls through, and `k` has ended where its case would be above `len`.
  let c := c + BitVec.ofNat 32 key.length +
    ((char k 10 <<< 24) + (char k 9 <<< 16) + (char k 8 <<< 8))
  let b := b + ((char k 7 <<< 24) + (char k 6 <<< 16) + (char k 5 <<< 8) + char k 4)
  let a := a + ((char k 3 <<< 24) + (char k 2 <<< 16) + (char k 1 <<< 8) + char k 0)
  (mix a b c).2.2

/-- The loop of `hash_size`. -/
def hashSizeLoop (s : BitVec 32) : ℕ → BitVec 32 → Option (BitVec 32)
  | 0, _ => none
  | fuel + 1, i => if i < s then hashSizeLoop s fuel (i <<< 1) else some i

/-- `hash_size`. After 32 shifts `i` is zero and stays zero. -/
def hashSize (s : BitVec 32) : Option (BitVec 32) := hashSizeLoop s 33 1

section Table

variable {R D : Type}

namespace HashTable

variable (ht : HashTable R D)

/-- `ht->flags & HASH_FROZEN` -/
def frozen : Bool := ht.flags &&& hashFrozen ≠ 0

/-- `ht->flags & HASH_NOCOPY` -/
def nocopy : Bool := ht.flags &&& hashNocopy ≠ 0

/-- `ht->buckets[hv]` -/
def chain (hv : ℕ) : Option (List (HashEntry D)) := ht.buckets.bind fun b => b.2[hv]?

/-- The chain at `ht->buckets[hv]` becomes this one. -/
def setChain (hv : ℕ) (c : List (HashEntry D)) : HashTable R D :=
  { ht with buckets := ht.buckets.map fun b => (b.1, b.2.set hv c) }

/-- `lock_hash` -/
def lockHash : Option (HashTable R D) :=
  if ht.locking then (if ht.locked then none else some { ht with locked := true }) else some ht

/-- `unlock_hash` -/
def unlockHash : HashTable R D := if ht.locking then { ht with locked := false } else ht

end HashTable

/-- `hash_value` -/
def hashValue (ht : HashTable R D) (key : List UInt8) (size : ℕ) : ℕ :=
  (ht.hashFunc key).toNat &&& sizePred size

/-! ## Entries -/

/-- `hash_cmp`, whether the keys differ. -/
def hashCmp (key : Key) (he : HashEntry D) : Option Bool :=
  if key.bytes.length ≠ he.keySize then some true
  else he.key.map fun k => if key.ptr = k.ptr then false else decide (key.bytes ≠ k.bytes)

/-- The loop over a chain that stops at an entry with the key: the entries before it, and
the chain from it on. -/
def walk (key : Key) : List (HashEntry D) → Option (List (HashEntry D) × List (HashEntry D))
  | [] => some ([], [])
  | he :: rest => do
      let differs ← hashCmp key he
      if differs then
        let (before, found) ← walk key rest
        some (he :: before, found)
      else some ([], he :: rest)

/-- `hash_kdup` -/
def hashKdup (succeeds : Bool) (key : Key) (m : Malloc) : Option Key × Malloc :=
  if succeeds then (some ⟨m.next, key.bytes⟩, m.take) else (none, m)

/-- The key of a new entry: the caller's, or a copy. -/
def entryKey (ht : HashTable R D) (key : Key) (succeeds : Bool) : Option Key × Malloc :=
  if ht.nocopy then (some key, ht.malloc)
  else
    let (k, m) := hashKdup succeeds key ht.malloc
    (k, { m with copied := m.copied ++ (k.map Key.ptr).toList })

section Operations

variable {L : Layout} (G : Geometry L)

/-- `hash_addentry` -/
def hashAddentry (ht : HashTable R D) (hv : ℕ) (key : Key) (data : D) (a : Alloc) :
    Option (HashTable R D) := do
  let (mp, addr) ← mempoolGet G a.page ht.mp
  let (k, malloc) := entryKey ht key a.key
  let chain ← ht.chain hv
  some { ht.setChain hv (⟨addr, k, key.bytes.length, data⟩ :: chain) with
    mp := mp
    malloc := malloc
    entries := ht.entries + 1 }

/-! ## The parts under the lock -/

/-- `hash_search` between lock and unlock: whether it inserts, and what it writes through
`r`. -/
def searchSection (ht : HashTable R D) (key : Key) (data : D) (a : Alloc) :
    Option (HashTable R D × Bool × D) := do
  let ht ← ht.lockHash
  let hv := hashValue ht key.bytes ht.size
  let chain ← ht.chain hv
  match ← walk key chain with
  | (_, hr :: _) => some (ht.unlockHash, false, hr.data)
  | (_, []) =>
      let ht ← hashAddentry G ht hv key data a
      some (ht.unlockHash, true, data)

/-- `hash_find` between lock and unlock: what it writes through `r`, if it finds the key. -/
def findSection (ht : HashTable R D) (key : Key) : Option (HashTable R D × Option D) := do
  let ht ← ht.lockHash
  let chain ← ht.chain (hashValue ht key.bytes ht.size)
  let (_, found) ← walk key chain
  some (ht.unlockHash, found.head?.map HashEntry.data)

/-- `hash_replace` between lock and unlock: the data that it replaces. -/
def replaceSection (ht : HashTable R D) (key : Key) (data : D) (a : Alloc) :
    Option (HashTable R D × Option D) := do
  let ht ← ht.lockHash
  let hv := hashValue ht key.bytes ht.size
  let chain ← ht.chain hv
  match ← walk key chain with
  | (before, hr :: after) =>
      let ht := ht.setChain hv (before ++ { hr with data := data } :: after)
      some (ht.unlockHash, some hr.data)
  | (_, []) =>
      let ht ← hashAddentry G ht hv key data a
      some (ht.unlockHash, none)

/-- `hash_delete` between lock and unlock: the data that it deletes. -/
def deleteSection (L : Layout) (ht : HashTable R D) (key : Key) :
    Option (HashTable R D × Option D) := do
  let ht ← ht.lockHash
  let hv := hashValue ht key.bytes ht.size
  let chain ← ht.chain hv
  match ← walk key chain with
  | (before, hr :: after) =>
      let ht := { ht.setChain hv (before ++ after) with
        entries := sizePred ht.entries
        malloc := if ht.nocopy then ht.malloc else ht.malloc.free (hr.key.map Key.ptr) }
      let mp ← mempoolFree L hr.addr ht.mp
      some ({ ht with mp := mp }.unlockHash, some hr.data)
  | (_, []) => some (ht.unlockHash, none)

/-- The body of the loops of `hash_rehash`. Every access to a null `nb` faults. -/
def moveEntry (ht : HashTable R D) (ns : ℕ) (nb : Option (Address × List (List (HashEntry D))))
    (he : HashEntry D) : Option (Option (Address × List (List (HashEntry D)))) := do
  let (addr, bs) ← nb
  let key ← he.key
  let hv := hashValue ht key.bytes ns
  let chain ← bs[hv]?
  some (some (addr, bs.set hv (he :: chain)))

section Rehash

variable [FloatOps R]

/-- `ht->entries * 2 / (ht->high_mark + ht->low_mark)`, as an `unsigned int`. -/
def rehashTarget (ht : HashTable R D) : Option (BitVec 32) :=
  FloatOps.toUnsigned
    (FloatOps.div (FloatOps.ofSize (ht.entries * 2 % sizeModulus))
      (FloatOps.add ht.highMark ht.lowMark))

/-- `hash_rehash`. It always returns 0. -/
def hashRehash (ht : HashTable R D) (a : Alloc) : Option (HashTable R D) := do
  let ht ← ht.lockHash
  let s ← rehashTarget ht
  let ns ← hashSize s
  let ns := ns.toNat
  if ns = ht.size then some ht.unlockHash
  else
    let malloc := if a.buckets then ht.malloc.take else ht.malloc
    let nb := if a.buckets then some (ht.malloc.next, List.replicate ns []) else none
    let (addr, bs) ← ht.buckets
    let nb ← bs.flatten.foldlM (moveEntry ht ns) nb
    let ht := { ht with size := ns, malloc := malloc.free (some addr), buckets := nb }
    some ht.unlockHash

/-- `(float) ht->entries / ht->size` -/
def loadFactor (ht : HashTable R D) : R :=
  FloatOps.div (FloatOps.ofSize ht.entries) (FloatOps.ofSize ht.size)

/-- The tests after an insertion, outside the lock. -/
def crowded (ht : HashTable R D) : Bool := !ht.frozen && FloatOps.lt ht.highMark (loadFactor ht)

/-- The tests after a deletion that finds nothing, outside the lock. -/
def sparse (ht : HashTable R D) : Bool := !ht.frozen && FloatOps.lt (loadFactor ht) ht.lowMark

/-- `if(b) hash_rehash(ht);` -/
def rehashIf (b : Bool) (ht : HashTable R D) (a : Alloc) : Option (HashTable R D) :=
  if b then hashRehash ht a else some ht

end Rehash

/-- The copies that `hash_keys` makes, the first one the `j`th. -/
def copyKeys (a : Alloc) : ℕ → List (HashEntry D) → Malloc → Option (List (Option Key) × Malloc)
  | _, [], m => some ([], m)
  | j, he :: rest, m => do
      let key ← he.key
      let (k, m) := hashKdup (a.keyCopies.getD j true) key m
      let (ks, m) ← copyKeys a (j + 1) rest m
      some (k :: ks, m)

/-- What `hash_keys` writes to its array. -/
def keyArray (fast : Bool) (a : Alloc) (nodes : List (HashEntry D)) (m : Malloc) :
    Option (List (Option Key) × Malloc) :=
  if fast then some (nodes.map HashEntry.key, m) else copyKeys a 0 nodes m

/-- What `hash_keys` gives: the array, and what it writes to `*n`. -/
structure KeysResult where
  keys : Option (List (Option Key))
  n : Option (BitVec 32)
  deriving DecidableEq

/-- `hash_keys` from the lock on. -/
def keysSection (ht : HashTable R D) (fast : Bool) (a : Alloc) :
    Option (HashTable R D × KeysResult) := do
  let ht ← ht.lockHash
  if !a.keys then some (ht, ⟨none, none⟩)
  else
    let (_, bs) ← ht.buckets
    if ht.entries < bs.flatten.length then none
    else
      let (keys, malloc) ← keyArray fast a bs.flatten ht.malloc.take
      let ht := { ht with malloc := malloc }
      some (ht.unlockHash, ⟨some keys, some (BitVec.ofNat 32 ht.entries)⟩)

/-! ## The functions -/

/-- What hash_new is given: whether the table, its buckets and its pool can be allocated. -/
structure NewAlloc where
  table : Bool
  buckets : Bool
  pool : Bool

/-- `hash_new`. The outer `none` is a `hash_size` that does not end and the write through a
null pool, the inner one the null pointer that is returned. `int size` is turned into the
`size_t` of the table with its sign; a product that `size_t` cannot hold makes calloc(3)
fail. The pool is what `mempool_new(sizeof(hash_entry), 0)` gives. -/
def hashNew [FloatOps R] (size : BitVec 32) (lock : Bool) (flags : BitVec 32) (a : NewAlloc) :
    Option (Option (HashTable R D)) := do
  let size ← hashSize size
  if !a.table then some none
  else if !a.pool then none
  else
    let size := (size.signExtend 64).toNat
    let m : Malloc := ⟨0, [], []⟩
    let addr := m.next
    let m := m.take
    let calloc := a.buckets && decide (size * ptrSize < sizeModulus)
    let buckets := if calloc then some (m.next, List.replicate size []) else none
    let m := if calloc then m.take else m
    some <| some
      { addr := addr
        hashFunc := hashFunc
        size := size
        entries := 0
        buckets := buckets
        flags := flags
        locking := lock
        locked := false
        highMark := FloatOps.highMark
        lowMark := FloatOps.lowMark
        mpAddr := { m.next with offset := allocDataOffset }
        mp := State.empty
        malloc := m.take }

/-- `hash_search` -/
def hashSearch [FloatOps R] (ht : HashTable R D) (key : Key) (data : D) (a : Alloc) :
    Option (HashTable R D × Bool × D) := do
  let (ht, hf, written) ← searchSection G ht key data a
  let ht ← rehashIf (hf && crowded ht) ht a
  some (ht, hf, written)

/-- `hash_find` returns whether the key is missing. -/
def hashFind (ht : HashTable R D) (key : Key) : Option (HashTable R D × Option D) :=
  findSection ht key

/-- `hash_replace` -/
def hashReplace [FloatOps R] (ht : HashTable R D) (key : Key) (data : D) (a : Alloc) :
    Option (HashTable R D × Option D) := do
  let (ht, old) ← replaceSection G ht key data a
  let ht ← rehashIf (old.isNone && crowded ht) ht a
  some (ht, old)

/-- `hash_delete` -/
def hashDelete [FloatOps R] (L : Layout) (ht : HashTable R D) (key : Key) (a : Alloc) :
    Option (HashTable R D × Option D) := do
  let (ht, old) ← deleteSection L ht key
  let ht ← rehashIf (old.isNone && sparse ht) ht a
  some (ht, old)

/-- `hash_keys` -/
def hashKeys (ht : HashTable R D) (fast : Bool) (a : Alloc) :
    Option (HashTable R D × KeysResult) :=
  if ht.entries = 0 then some (ht, ⟨none, some 0⟩) else keysSection ht fast a

/-- `hash_sethashfunction`: whether the function is accepted. -/
def hashSethashfunction (ht : HashTable R D) (hf : Option (List UInt8 → BitVec 32)) :
    HashTable R D × Bool :=
  if ht.entries ≠ 0 then (ht, false) else ({ ht with hashFunc := hf.getD hashFunc }, true)

/-- `hash_setthresholds`: whether the marks are accepted. -/
def hashSetthresholds [FloatOps R] (ht : HashTable R D) (low high : R) : HashTable R D × Bool :=
  let h := if FloatOps.lt high FloatOps.zero then ht.highMark else high
  let l := if FloatOps.lt low FloatOps.zero then ht.lowMark else low
  if FloatOps.lt h l then (ht, false) else ({ ht with highMark := h, lowMark := l }, true)

/-- The flags are written under the lock. -/
def writeFlags (ht : HashTable R D) (flags : BitVec 32 → BitVec 32) : Option (HashTable R D) := do
  let ht ← ht.lockHash
  some { ht with flags := flags ht.flags }.unlockHash

/-- `hash_setflags` -/
def hashSetflags (ht : HashTable R D) (flags : BitVec 32) : Option (HashTable R D) :=
  writeFlags ht fun _ => flags

/-- `hash_setflag` -/
def hashSetflag (ht : HashTable R D) (flag : BitVec 32) : Option (HashTable R D) :=
  writeFlags ht (· ||| flag)

/-- `hash_clearflag` -/
def hashClearflag (ht : HashTable R D) (flag : BitVec 32) : Option (HashTable R D) :=
  writeFlags ht (· &&& ~~~flag)

/-- What `hash_destroy` has done so far: the calls of `hf`, the pool, and the calls of
free(3). -/
structure Destroyed (D : Type) where
  released : List D
  mp : State
  malloc : Malloc

/-- The body of the loops of `hash_destroy`. -/
def destroyEntry (L : Layout) (nocopy hf : Bool) (w : Destroyed D) (he : HashEntry D) :
    Option (Destroyed D) := do
  let mp ← mempoolFree L he.addr w.mp
  some
    { released := if hf then w.released ++ [he.data] else w.released
      mp := mp
      malloc := if nocopy then w.malloc else w.malloc.free (he.key.map Key.ptr) }

/-- `hash_destroy`, with or without an `hf`. -/
def hashDestroy (L : Layout) (ht : HashTable R D) (hf : Bool) : Option (Destroyed D) := do
  let (addr, bs) ← ht.buckets
  let w ← bs.flatten.foldlM (destroyEntry L ht.nocopy hf) ⟨[], ht.mp, ht.malloc⟩
  let m := w.malloc.free (some addr)
  let m := m.free (some ht.mpAddr)
  some { w with malloc := m.free (some ht.addr) }

end Operations

end Table

end ThreeW3.Hash
