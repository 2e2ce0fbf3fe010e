/-
# The page pool

`mempool_new`, `mempool_get` and `mempool_free` over a heap of page headers.
A pool hands out chunks of one size from pages that it maps one at a time. The
pages with a free chunk form a doubly linked list that starts at `pages`; a
page outside that list has null links, and the code takes null links for a sign
of being outside. A freed chunk stores the link of its page's free list in its
first word.

Addresses are numbers. A page starts at a multiple of the page size, which is a
power of two, so masking with `~(pagesize - 1)` clears the low bits. Every read
and write of a header or of a chunk's word goes through the mapped pages, and
one that misses them is a fault.
-/

import Mathlib.Data.Nat.Bitwise
import ThreeW3.Lib.Heap
import ThreeW3.Lib.Machine

namespace ThreeW3.Pool

open ThreeW3.Lib

/-- One more than the largest `size_t`. -/
def sizeModulus : ℕ := 2 ^ 64

/-- `sizeof(void *)`. -/
def ptrSize : ℕ := 8

/-- The header of a mapped page. The back pointer to the pool is the pool. -/
structure MempoolPage where
  next : Ptr
  prev : Ptr
  /-- Chunks that were handed out at least once. -/
  used : ℕ
  /-- Chunks that are handed out now. -/
  inuse : ℕ
  /-- The first free chunk among the used ones. -/
  free : Ptr
  deriving DecidableEq, Repr

/-- What the platform fixes: the page size and `offsetof(mempool_page_t, data)`. -/
structure Layout where
  pageBits : ℕ
  dataOffset : ℕ
  header_fits : dataOffset < 2 ^ pageBits

/-- `sysconf(_SC_PAGESIZE)`. -/
def Layout.pagesize (L : Layout) : ℕ := 2 ^ L.pageBits

/-- `p & ~(pagesize - 1)`. -/
def Layout.pageOf (L : Layout) (p : ℕ) : ℕ := (p >>> L.pageBits) <<< L.pageBits

/-- The chunk geometry of a pool, as `mempool_new` leaves it. -/
structure Geometry (L : Layout) where
  size : ℕ
  cpp : ℕ
  size_pos : 0 < size
  cpp_pos : 0 < cpp
  chunks_fit : L.dataOffset + cpp * size ≤ L.pagesize

/-- `align(s, a)` on `size_t`, for a power of two `a`. -/
def align (s a : ℕ) : ℕ := (s + a - 1) % sizeModulus &&& (sizeModulus - a)

/-- `mempool_new`. The outer `none` is the division by a zero size, the inner
one the null pointer for a size that no page can hold. -/
def mempoolNew (L : Layout) (size : ℕ) : Option (Option (Geometry L)) :=
  let size := align size ptrSize
  if hbig : L.pagesize - L.dataOffset < size then some none
  else if hzero : size = 0 then none
  else some <| some
    { size := size
      cpp := (L.pagesize - L.dataOffset) / size
      size_pos := Nat.pos_of_ne_zero hzero
      cpp_pos := Nat.div_pos (Nat.le_of_not_lt hbig) (Nat.pos_of_ne_zero hzero)
      chunks_fit := by
        have hdiv := Nat.div_mul_le_self (L.pagesize - L.dataOffset) size
        have hfits : L.dataOffset < L.pagesize := L.header_fits
        omega }

/-- A pool in memory: `mp->pages`, the page headers and the first word of
every chunk. -/
structure State where
  pages : Ptr
  page : Heap MempoolPage
  word : ℕ → Ptr

namespace State

/-- A new pool: no page is mapped. -/
def empty : State := { pages := none, page := Heap.empty, word := fun _ => none }

/-- `mmap` of a zeroed page that becomes the only page of the list. -/
def mapPage (L : Layout) (m : State) (a : ℕ) : State :=
  { pages := some a
    page := m.page.store a { next := none, prev := none, used := 0, inuse := 0, free := none }
    word := fun p => if L.pageOf p = a then none else m.word p }

/-- `*(void **) p`, a fault outside the mapped pages. -/
def loadWord (L : Layout) (m : State) (p : ℕ) : Option Ptr :=
  (m.page.load (L.pageOf p)).map fun _ => m.word p

end State

section Operations

variable {L : Layout} (G : Geometry L)

/-- The `i`th chunk of the page at `a`. -/
def chunk (a : ℕ) (i : ℕ) : ℕ := a + L.dataOffset + i * G.size

/-- The chunk that `mempool_get` takes from the page at `mpp`, and the header
without it: the head of the free list, or else the first chunk never used. -/
def pickChunk (mpp : ℕ) (m : State) (h : MempoolPage) : Option (ℕ × MempoolPage) :=
  match h.free with
  | some p => (m.loadWord L p).map fun link => (p, { h with free := link })
  | none => some (chunk G mpp h.used, { h with used := h.used + 1 })

/-- The second half of `mempool_get`: take a chunk from the page at `mpp`, and
take the page off the list when that was its last one. -/
def takeChunk (mpp : ℕ) (m : State) : Option (State × ℕ) := do
  let h ← m.page.load mpp
  let (p, h) ← pickChunk G mpp m h
  let h := { h with inuse := h.inuse + 1 }
  -- The page that becomes the head keeps its `prev`.
  if h.inuse = G.cpp then
    some ({ m with
      pages := h.next
      page := m.page.store mpp { h with next := none, prev := none } }, p)
  else
    some ({ m with page := m.page.store mpp h }, p)

/-- `mempool_get`; `fresh` is the page that `mmap` returns if it is called. -/
def mempoolGet (fresh : ℕ) (m : State) : Option (State × ℕ) :=
  match m.pages with
  | some mpp => takeChunk G mpp m
  | none => takeChunk G fresh (m.mapPage L fresh)

/-- `--n` on `size_t`. -/
def sizePred (n : ℕ) : ℕ := if n = 0 then sizeModulus - 1 else n - 1

/-- The branch of `mempool_free` for the last chunk of a page: unlink the page
from the list and unmap it. -/
def releasePage (mpp : ℕ) (h : MempoolPage) (m : State) : Option State := do
  let pages := if m.pages = some mpp then h.next else m.pages
  let page ← m.page.writeThrough h.next fun n => { n with prev := h.prev }
  let page ← page.writeThrough h.prev fun q => { q with next := h.next }
  some { m with pages := pages, page := page.free mpp }

/-- The other branch: put the chunk on the page's free list, and the page on
the list unless its links or the list head say that it is there. -/
def releaseChunk (mpp p : ℕ) (h : MempoolPage) (m : State) : Option State := do
  let word := Function.update m.word p h.free
  let h := { h with free := some p }
  let page := m.page.store mpp h
  if h.next = none ∧ h.prev = none ∧ m.pages ≠ some mpp then
    let page ← page.writeThrough m.pages fun n => { n with prev := some mpp }
    some { pages := some mpp, page := page.store mpp { h with next := m.pages }, word := word }
  else
    some { m with page := page, word := word }

/-- `mempool_free`. -/
def mempoolFree (L : Layout) (p : ℕ) (m : State) : Option State := do
  let mpp := L.pageOf p
  let h ← m.page.load mpp
  let h := { h with inuse := sizePred h.inuse }
  let m := { m with page := m.page.store mpp h }
  if h.inuse = 0 then releasePage mpp h m else releaseChunk mpp p h m

end Operations

/-- A pool together with the chunks its clients hold. -/
structure Client where
  mem : State
  out : List ℕ

/-- What a client can do: take a chunk, give one back, or write its first word. -/
inductive Call
  | get (fresh : ℕ)
  | free (p : ℕ)
  | write (p : ℕ) (v : Ptr)
  deriving DecidableEq

section Machine

variable {L : Layout} (G : Geometry L)

/-- A page that `mmap` may return: aligned and not mapped yet. -/
def Fresh (L : Layout) (m : State) (a : ℕ) : Prop :=
  a ≠ 0 ∧ L.pageOf a = a ∧ m.page.load a = none

instance (L : Layout) (m : State) (a : ℕ) : Decidable (Fresh L m a) :=
  inferInstanceAs (Decidable (a ≠ 0 ∧ L.pageOf a = a ∧ m.page.load a = none))

/-- When `mmap` is called it returns a fresh page; clients free and write only
chunks that they hold. -/
def Call.Enabled (L : Layout) (c : Client) : Call → Prop
  | .get fresh => c.mem.pages = none → Fresh L c.mem fresh
  | .free p => p ∈ c.out
  | .write p _ => p ∈ c.out

instance (L : Layout) (c : Client) (call : Call) : Decidable (call.Enabled L c) :=
  match call with
  | .get fresh =>
      inferInstanceAs (Decidable (c.mem.pages = none → Fresh L c.mem fresh))
  | .free p => inferInstanceAs (Decidable (p ∈ c.out))
  | .write p _ => inferInstanceAs (Decidable (p ∈ c.out))

/-- The effect of a call on the pool and on what is handed out. -/
def Client.step (c : Client) : Call → Option Client
  | .get fresh => (mempoolGet G fresh c.mem).map fun r => { mem := r.1, out := r.2 :: c.out }
  | .free p => (mempoolFree L p c.mem).map fun m => { mem := m, out := c.out.erase p }
  | .write p v => some { c with mem := { c.mem with word := Function.update c.mem.word p v } }

/-- The pool and its clients from `mempool_new` on. -/
def machine : Machine Client Call where
  init := { mem := State.empty, out := [] }
  enabled c call := call.Enabled L c
  step c call := c.step G call

instance (c : Client) (call : Call) : Decidable ((machine G).enabled c call) :=
  inferInstanceAs (Decidable (call.Enabled L c))

end Machine

end ThreeW3.Pool
