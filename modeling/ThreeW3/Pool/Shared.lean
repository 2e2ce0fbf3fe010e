/-
# Pools in one address space

Every pool has pages of its own, and the header of a page names its pool: `mempool_free` is
given an address and nothing else. The pools of one process have one address space, so a page
that one pool unmaps may be mapped by another, and the links of one pool lie beside the pages
of the others. What a pool does on its own pages it does in the shared memory, and what it
does leaves the other pools in order.
-/

import ThreeW3.Lib.Frame
import ThreeW3.Pool.Space

namespace ThreeW3.Pool

open ThreeW3.Lib

/-! ## The shared memory -/

/-- The pools of a process: `mp->pages` of each, the headers of all pages, their field `pool`,
and the first words of the chunks. -/
structure Memory (π : Type) where
  pages : π → Ptr
  page : Heap MempoolPage
  pool : ℕ → Option π
  word : ℕ → Ptr

namespace Memory

variable {π : Type} [DecidableEq π] {L : Layout}

/-- No page is mapped. -/
def empty : Memory π := ⟨fun _ => none, Heap.empty, fun _ => none, fun _ => none⟩

/-- What the functions of the pool work on when they are given this pool. -/
def view (m : Memory π) (mp : π) : State := ⟨m.pages mp, m.page, m.word⟩

/-- What they leave. -/
def set (m : Memory π) (mp : π) (s : State) : Memory π :=
  { m with pages := Function.update m.pages mp s.pages, page := s.page, word := s.word }

/-- `mempool_get(mp)`; a page that is mapped gets the pool: `mpp->pool = mp`. -/
def mempoolGet (G : π → Geometry L) (mp : π) (fresh : ℕ) (m : Memory π) :
    Option (Memory π × ℕ) :=
  (Pool.mempoolGet (G mp) fresh (m.view mp)).map fun r =>
    ({ m.set mp r.1 with
      pool := if m.pages mp = none then Function.update m.pool fresh (some mp) else m.pool }, r.2)

/-- `mempool_free(p)`, with `mp = mpp->pool`. -/
def mempoolFree (L : Layout) (p : ℕ) (m : Memory π) : Option (Memory π) := do
  let mpp := L.pageOf p
  let _ ← m.page.load mpp
  let mp ← m.pool mpp
  let s ← Pool.mempoolFree L p (m.view mp)
  some (m.set mp s)

end Memory

/-! ## Clients -/

namespace Shared

/-- The memory, and the chunks of each pool that clients hold. -/
structure Client (π : Type) where
  mem : Memory π
  out : π → List ℕ

/-- A call of a client. The pool of a chunk that is given back or written is the one that the
client has it from; `mempool_free` is not told. -/
inductive Call (π : Type)
  | get (mp : π) (fresh : ℕ)
  | free (mp : π) (p : ℕ)
  | write (mp : π) (p : ℕ) (v : Ptr)
  deriving DecidableEq

section Machine

variable {π : Type} [DecidableEq π] {L : Layout} (G : π → Geometry L)

/-- When `mmap` is called it returns a page that no pool has mapped; clients give back and
write only chunks that they hold. -/
def Call.Enabled (L : Layout) (c : Client π) : Call π → Prop
  | .get mp fresh => c.mem.pages mp = none → Fresh L (c.mem.view mp) fresh
  | .free mp p => p ∈ c.out mp
  | .write mp p _ => p ∈ c.out mp

/-- No call empties a head page of its pool that has a stale link and a successor. -/
def Call.Orderly (L : Layout) (c : Client π) : Call π → Prop
  | .free mp p => ¬ EmptiesStaleHead L (c.mem.view mp) p
  | _ => True

omit [DecidableEq π] in
instance (c : Client π) : DecidablePred (Call.Enabled L c)
  | .get mp fresh =>
      inferInstanceAs (Decidable (c.mem.pages mp = none → Fresh L (c.mem.view mp) fresh))
  | .free mp p | .write mp p _ => inferInstanceAs (Decidable (p ∈ c.out mp))

instance (c : Client π) : DecidablePred (Call.Orderly L c)
  | .free mp p => inferInstanceAs (Decidable (¬ EmptiesStaleHead L (c.mem.view mp) p))
  | .get _ _ | .write _ _ _ => .isTrue trivial

/-- The effect of a call on the memory and on what is held. -/
def Client.step (c : Client π) : Call π → Option (Client π)
  | .get mp fresh => (c.mem.mempoolGet G mp fresh).map fun r =>
      ⟨r.1, Function.update c.out mp (r.2 :: c.out mp)⟩
  | .free mp p => (c.mem.mempoolFree L p).map fun m =>
      ⟨m, Function.update c.out mp ((c.out mp).erase p)⟩
  | .write _ p v => some { c with mem := { c.mem with word := Function.update c.mem.word p v } }

/-- The pools of a process and their clients, before the first call. -/
def machine : Machine (Client π) (Call π) where
  init := ⟨Memory.empty, fun _ => []⟩
  enabled c call := call.Enabled L c
  step c call := c.step G call

instance (c : Client π) (call : Call π) : Decidable ((machine G).enabled c call) :=
  inferInstanceAs (Decidable (call.Enabled L c))

end Machine

end Shared

/-! ## What a pool does beside others -/

section Part

variable {L : Layout} {G : Geometry L} {s s' S : State} {f : ℕ → Option MempoolPage} {mpp p q : ℕ}
  {fresh : ℕ}

/-- A memory with the pages of `s`, and those of `f` beside them. -/
structure State.Part (s : State) (f : ℕ → Option MempoolPage) (S : State) : Prop where
  pages : S.pages = s.pages
  word : S.word = s.word
  page : s.page.Part f S.page

theorem State.Part.pickChunk {h h' : MempoolPage} (hpart : s.Part f S)
    (hpick : Pool.pickChunk G mpp s h = some (p, h')) :
    Pool.pickChunk G mpp S h = some (p, h') := by
  rw [Pool.pickChunk] at hpick ⊢
  cases hfree : h.free with
  | none =>
      rw [hfree] at hpick
      exact hpick
  | some q =>
      rw [hfree] at hpick
      obtain ⟨link, hlink, heq⟩ := Option.map_eq_some_iff.mp hpick
      obtain ⟨k, hk, rfl⟩ := Option.map_eq_some_iff.mp hlink
      simp only [State.loadWord, hpart.page.load hk, hpart.word, Option.map_some, ← heq]

theorem State.Part.takeChunk (hpart : s.Part f S) (htake : Pool.takeChunk G mpp s = some (s', p)) :
    ∃ S', Pool.takeChunk G mpp S = some (S', p) ∧ s'.Part f S' := by
  obtain ⟨h, hload, hrest⟩ := Option.bind_eq_some_iff.mp htake
  obtain ⟨⟨q, h'⟩, hpick, hrest⟩ := Option.bind_eq_some_iff.mp hrest
  have hbeside := hpart.page.beside hload
  dsimp only at hrest
  simp only [Pool.takeChunk, hpart.page.load hload, hpart.pickChunk hpick, Option.bind_eq_bind,
    Option.bind_some]
  split_ifs at hrest ⊢
  · obtain ⟨rfl, rfl⟩ := Prod.mk.inj (Option.some.inj hrest)
    exact ⟨_, rfl, rfl, hpart.word, hpart.page.store hbeside _⟩
  · obtain ⟨rfl, rfl⟩ := Prod.mk.inj (Option.some.inj hrest)
    exact ⟨_, rfl, hpart.pages, hpart.word, hpart.page.store hbeside _⟩

theorem State.Part.mempoolGet (hpart : s.Part f S) (hfresh : s.pages = none → f fresh = none)
    (hget : Pool.mempoolGet G fresh s = some (s', p)) :
    ∃ S', Pool.mempoolGet G fresh S = some (S', p) ∧ s'.Part f S' := by
  rw [Pool.mempoolGet] at hget ⊢
  rw [hpart.pages]
  cases hpages : s.pages with
  | some mpp =>
      rw [hpages] at hget
      exact hpart.takeChunk hget
  | none =>
      rw [hpages] at hget
      have hmap : (s.mapPage L fresh).Part f (S.mapPage L fresh) := by
        refine ⟨rfl, ?_, hpart.page.store (hfresh hpages) _⟩
        rw [State.mapPage, State.mapPage, hpart.word]
      exact hmap.takeChunk hget

theorem State.Part.releasePage {h : MempoolPage} (hpart : s.Part f S) (hmpp : f mpp = none)
    (hrelease : Pool.releasePage mpp h s = some s') :
    ∃ S', Pool.releasePage mpp h S = some S' ∧ s'.Part f S' := by
  obtain ⟨page, hnext, hrest⟩ := Option.bind_eq_some_iff.mp hrelease
  obtain ⟨page', hprev, hrest⟩ := Option.bind_eq_some_iff.mp hrest
  obtain rfl := Option.some.inj hrest
  obtain ⟨Page, hNext, hpage⟩ := hpart.page.writeThrough hnext
  obtain ⟨Page', hPrev, hpage'⟩ := hpage.writeThrough hprev
  refine ⟨⟨if s.pages = some mpp then h.next else s.pages, Page'.free mpp, s.word⟩, ?_, rfl, rfl,
    hpage'.free hmpp⟩
  simp only [Pool.releasePage, hpart.pages, hpart.word, hNext, hPrev, Option.bind_eq_bind,
    Option.bind_some]

theorem State.Part.releaseChunk {h : MempoolPage} (hpart : s.Part f S) (hmpp : f mpp = none)
    (hrelease : Pool.releaseChunk mpp p h s = some s') :
    ∃ S', Pool.releaseChunk mpp p h S = some S' ∧ s'.Part f S' := by
  have hstore := hpart.page.store hmpp { h with free := some p }
  rw [Pool.releaseChunk] at hrelease ⊢
  rw [hpart.pages, hpart.word]
  dsimp only at hrelease ⊢
  split_ifs at hrelease ⊢ with hoff
  · obtain ⟨page, hwrite, hrest⟩ := Option.bind_eq_some_iff.mp hrelease
    obtain rfl := Option.some.inj hrest
    obtain ⟨Page, hWrite, hpage⟩ := hstore.writeThrough hwrite
    refine ⟨⟨some mpp, Page.store mpp { h with free := some p, next := s.pages },
      Function.update s.word p h.free⟩, by rw [hWrite]; rfl, rfl, rfl, hpage.store hmpp _⟩
  · obtain rfl := Option.some.inj hrelease
    exact ⟨_, rfl, rfl, rfl, hstore⟩

theorem State.Part.mempoolFree (hpart : s.Part f S) (hfree : Pool.mempoolFree L p s = some s') :
    ∃ S', Pool.mempoolFree L p S = some S' ∧ s'.Part f S' := by
  obtain ⟨h, hload, hrest⟩ := Option.bind_eq_some_iff.mp hfree
  have hbeside := hpart.page.beside hload
  have hstore : State.Part { s with page := s.page.store (L.pageOf p) { h with
      inuse := sizePred h.inuse } } f { S with page := S.page.store (L.pageOf p) { h with
      inuse := sizePred h.inuse } } := ⟨hpart.pages, hpart.word, hpart.page.store hbeside _⟩
  simp only [Pool.mempoolFree, hpart.page.load hload, Option.bind_eq_bind, Option.bind_some]
  dsimp only at hrest
  split_ifs at hrest ⊢
  · exact hstore.releasePage hbeside hrest
  · exact hstore.releaseChunk hbeside hrest

theorem takeChunk_word (htake : Pool.takeChunk G mpp s = some (s', p)) : s'.word = s.word := by
  obtain ⟨h, -, hrest⟩ := Option.bind_eq_some_iff.mp htake
  obtain ⟨⟨q, h'⟩, -, hrest⟩ := Option.bind_eq_some_iff.mp hrest
  dsimp only at hrest
  split_ifs at hrest
  all_goals
    obtain ⟨rfl, rfl⟩ := Prod.mk.inj (Option.some.inj hrest)
    rfl

/-- Only a page that is mapped gets other words. -/
theorem mempoolGet_word (hget : Pool.mempoolGet G fresh s = some (s', p))
    (hq : s.pages = none → L.pageOf q ≠ fresh) : s'.word q = s.word q := by
  rw [Pool.mempoolGet] at hget
  cases hpages : s.pages with
  | some mpp =>
      rw [hpages] at hget
      rw [takeChunk_word hget]
  | none =>
      rw [hpages] at hget
      rw [takeChunk_word hget]
      exact if_neg (hq hpages)

theorem mempoolFree_word (hfree : Pool.mempoolFree L p s = some s') (hq : q ≠ p) :
    s'.word q = s.word q := by
  obtain ⟨h, -, hrest⟩ := Option.bind_eq_some_iff.mp hfree
  dsimp only at hrest
  split_ifs at hrest
  · obtain ⟨page, -, hrest⟩ := Option.bind_eq_some_iff.mp hrest
    obtain ⟨page', -, hrest⟩ := Option.bind_eq_some_iff.mp hrest
    obtain rfl := Option.some.inj hrest
    rfl
  · rw [releaseChunk] at hrest
    dsimp only at hrest
    split_ifs at hrest
    · obtain ⟨page, -, hrest⟩ := Option.bind_eq_some_iff.mp hrest
      obtain rfl := Option.some.inj hrest
      exact Function.update_of_ne hq _ _
    · obtain rfl := Option.some.inj hrest
      exact Function.update_of_ne hq _ _

end Part

/-! ## Pools in order -/

variable {π : Type} {L : Layout} {G : π → Geometry L}

/-- A pool in order does not depend on words outside its chunks. -/
theorem Inv.congr_word {G : Geometry L} {s : State} {out l : List ℕ} {stale : Ptr}
    {word : ℕ → Ptr} (hI : Inv G s out l stale)
    (hword : ∀ q, (s.page.load (L.pageOf q)).isSome = true → word q = s.word q) :
    Inv G { s with word := word } out l stale := by
  refine ⟨⟨fun a h ha => ?_, hI.chunks.out_chunk, hI.chunks.out_nodup⟩, hI.inuse_pos, ?_⟩
  · obtain ⟨fl, hok⟩ := hI.chunks.page_ok a h ha
    refine ⟨fl, hok.frame rfl rfl rfl (fun i hi => hword _ ?_) fun _ _ => Iff.rfl⟩
    have hlt := Nat.lt_of_lt_of_le (hok.free_used i hi) hok.used_le
    rw [pageOf_chunk hok.aligned hlt, show s.page.load a = some h from ha]
    rfl
  · exact ⟨hI.list.nodup, hI.list.head, hI.list.next, hI.list.prev, hI.list.mem_iff,
      hI.list.off_list, hI.list.stale_mapped⟩

namespace Shared

variable [DecidableEq π]

/-- The pages of the other pools. -/
def others (m : Memory π) (mp : π) (a : ℕ) : Option MempoolPage :=
  if m.pool a = some mp then none else m.page.load a

/-- Each pool is in order on pages of its own, which are those that name it. -/
structure Ok (G : π → Geometry L) (c : Client π) (own : π → State) : Prop where
  pages : ∀ mp, (own mp).pages = c.mem.pages mp
  word : ∀ mp, (own mp).word = c.mem.word
  page : ∀ mp a, (own mp).page.load a = if c.mem.pool a = some mp then c.mem.page.load a else none
  named : ∀ a, (c.mem.page.load a).isSome = true → (c.mem.pool a).isSome = true
  inv : ∀ mp, ∃ l stale, Inv (G mp) (own mp) (c.out mp) l stale

variable {c c' : Client π} {own : π → State} {mp : π} {a : ℕ} {s' : State}

theorem Ok.part (h : Ok G c own) (mp : π) : (own mp).Part (others c.mem mp) (c.mem.view mp) := by
  refine ⟨(h.pages mp).symm, (h.word mp).symm, fun a => ?_, fun a => ?_⟩
  · rw [h.page, others]
    split_ifs
    · exact .inr rfl
    · exact .inl rfl
  · rw [h.page, others, Memory.view]
    split_ifs
    · rw [Option.or_none]
    · rfl

/-- A page of a pool. -/
theorem Ok.pool_of_load (h : Ok G c own) {k : MempoolPage} (ha : (own mp).page.load a = some k) :
    c.mem.pool a = some mp ∧ c.mem.page.load a = some k := by
  rw [h.page] at ha
  split_ifs at ha with hpool
  exact ⟨hpool, ha⟩

/-- A pool makes a step on its own pages, and the others are as before. -/
theorem Ok.update (h : Ok G c own) (mp : π) (s' : State) {out : List ℕ} {l : List ℕ} {stale : Ptr}
    (hpages : c'.mem.pages = Function.update c.mem.pages mp s'.pages)
    (hword : c'.mem.word = s'.word) (hpart : s'.page.Part (others c.mem mp) c'.mem.page)
    (hout : c'.out = Function.update c.out mp out) (hinv : Inv (G mp) s' out l stale)
    (hown : ∀ a, (s'.page.load a).isSome = true → c'.mem.pool a = some mp)
    (hpool : ∀ a, (c.mem.page.load a).isSome = true → c'.mem.pool a = c.mem.pool a)
    (hwords : ∀ q, (c.mem.page.load (L.pageOf q)).isSome = true →
      c.mem.pool (L.pageOf q) ≠ some mp → s'.word q = c.mem.word q) :
    ∃ own', Ok G c' own' := by
  -- the pages of another pool are neither new nor gone
  have hother : ∀ j a, j ≠ mp → ((if c.mem.pool a = some j then c.mem.page.load a else none) :
      Option MempoolPage) = if c'.mem.pool a = some j then c'.mem.page.load a else none := by
    intro j a hj
    cases hload : c.mem.page.load a with
    | some k =>
        rw [hpool a (by rw [hload]; rfl)]
        split_ifs with hpoolj
        · have hne : c.mem.pool a ≠ some mp := by
            rw [hpoolj]
            exact fun heq => hj (Option.some.inj heq)
          have hbeside : others c.mem mp a = some k := by rw [others, if_neg hne, hload]
          have hnone : s'.page.load a = none := by
            rcases hpart.apart a with hnone | hnone
            · exact hnone
            · rw [hbeside] at hnone
              cases hnone
          rw [hpart.union, hnone, hbeside, Option.none_or]
        · rfl
    | none =>
        have hbeside : others c.mem mp a = none := by
          rw [others, hload, ite_self]
        rw [ite_self]
        split_ifs with hpoolj
        · rw [hpart.union, hbeside, Option.or_none, eq_comm, Option.eq_none_iff_forall_ne_some]
          intro k hk
          have hmp := hown a (by rw [hk]; rfl)
          rw [hpoolj] at hmp
          exact hj (Option.some.inj hmp)
        · rfl
  have hself : ∀ a, s'.page.load a =
      if c'.mem.pool a = some mp then c'.mem.page.load a else none := by
    intro a
    split_ifs with hpoola
    · have hbeside : others c.mem mp a = none := by
        cases hload : c.mem.page.load a with
        | none => rw [others, hload, ite_self]
        | some k => rw [others, if_pos ((hpool a (by rw [hload]; rfl)).symm.trans hpoola)]
      rw [hpart.union, hbeside, Option.or_none]
    · rw [Option.eq_none_iff_forall_ne_some]
      exact fun k hk => hpoola (hown a (by rw [hk]; rfl))
  refine ⟨fun j => if j = mp then s' else { own j with word := s'.word }, fun j => ?_, fun j => ?_,
    fun j a => ?_, fun a ha => ?_, fun j => ?_⟩
  · rw [hpages]
    split_ifs with hj
    · rw [hj, Function.update_self]
    · rw [Function.update_of_ne hj]
      exact h.pages j
  · rw [hword]
    split_ifs <;> rfl
  · by_cases hj : j = mp
    · rw [if_pos hj, hj]
      exact hself a
    · rw [if_neg hj, ← hother j a hj]
      exact h.page j a
  · cases hload : s'.page.load a with
    | some k => rw [hown a (by rw [hload]; rfl)]; rfl
    | none =>
        rw [hpart.union, hload, Option.none_or, others] at ha
        split_ifs at ha
        · cases ha
        · rw [hpool a ha]
          exact h.named a ha
  · rw [hout]
    split_ifs with hj
    · rw [hj, Function.update_self]
      exact ⟨l, stale, hinv⟩
    · rw [Function.update_of_ne hj]
      obtain ⟨l, stale, hI⟩ := h.inv j
      refine ⟨l, stale, hI.congr_word fun q hq => ?_⟩
      obtain ⟨k, hk⟩ := Option.isSome_iff_exists.mp hq
      obtain ⟨hpoolj, hload⟩ := h.pool_of_load hk
      rw [h.word]
      refine hwords q (by rw [hload]; rfl) ?_
      rw [hpoolj]
      exact fun heq => hj (Option.some.inj heq)

/-! ## One step -/

theorem Ok.get (h : Ok G c own) {fresh : ℕ} (henabled : (Call.get mp fresh).Enabled L c) :
    ∃ c' p, c.step G (.get mp fresh) = some c' ∧ (∃ own', Ok G c' own') ∧
      c'.out = Function.update c.out mp (p :: c.out mp) ∧ p ∉ c.out mp := by
  obtain ⟨l, stale, hI⟩ := h.inv mp
  have hnew : (own mp).pages = none → c.mem.page.load fresh = none ∧ Fresh L (own mp) fresh := by
    intro hnone
    obtain ⟨hzero, haligned, hload⟩ := henabled ((h.pages mp).symm.trans hnone)
    refine ⟨hload, hzero, haligned, ?_⟩
    rw [h.page, show c.mem.page.load fresh = none from hload, ite_self]
  obtain ⟨s', p, l', stale', hget, hp, hI', -⟩ := mempoolGet_spec hI fun hnone => (hnew hnone).2
  obtain ⟨S', hGet, hpart⟩ := (h.part mp).mempoolGet (fun hnone => by
    rw [others, (hnew hnone).1, ite_self]) hget
  -- a page that is mapped now names the pool
  have hpool : ∀ a, (c.mem.page.load a).isSome = true →
      (if c.mem.pages mp = none then Function.update c.mem.pool fresh (some mp) else c.mem.pool) a =
        c.mem.pool a := by
    intro a ha
    split_ifs with hnone
    · refine Function.update_of_ne (fun heq => ?_) _ _
      rw [heq, (hnew ((h.pages mp).trans hnone)).1] at ha
      cases ha
    · rfl
  refine ⟨_, p, by rw [Client.step, Memory.mempoolGet, hGet]; rfl, ?_, rfl, hp⟩
  refine h.update mp s' ?_ hpart.word hpart.page rfl hI' (fun a ha => ?_) hpool
    fun q hq hne => ?_
  · exact congrArg (Function.update c.mem.pages mp) hpart.pages
  · rcases mempoolGet_isSome hget ha with ⟨hnone, rfl⟩ | hload
    · exact (if_pos ((h.pages mp).symm.trans hnone) ▸ Function.update_self a (some mp) c.mem.pool)
    · obtain ⟨k, hk⟩ := Option.isSome_iff_exists.mp hload
      obtain ⟨hpoola, hloada⟩ := h.pool_of_load hk
      exact (hpool a (by rw [hloada]; rfl)).trans hpoola
  · rw [← h.word mp]
    refine mempoolGet_word hget fun hnone heq => ?_
    rw [heq, (hnew hnone).1] at hq
    cases hq

theorem Ok.free (h : Ok G c own) {p : ℕ} (hp : p ∈ c.out mp)
    (horderly : (Call.free mp p).Orderly L c) :
    ∃ c', c.step G (.free mp p) = some c' ∧ (∃ own', Ok G c' own') ∧
      c.mem.pool (L.pageOf p) = some mp := by
  obtain ⟨l, stale, hI⟩ := h.inv mp
  obtain ⟨k, -, -, hload, -⟩ := hI.chunks.exists_page hp
  obtain ⟨hpool, hmapped⟩ := h.pool_of_load hload
  have hguard : ¬ EmptiesStaleHead L (own mp) p := by
    rintro ⟨hhead, k', hk', hempties⟩
    obtain ⟨-, hk'⟩ := h.pool_of_load hk'
    exact horderly ⟨(h.pages mp).symm.trans hhead, k', hk', hempties⟩
  obtain ⟨s', l', stale', hfree, hI', -⟩ := mempoolFree_spec hI hp hguard
  obtain ⟨S', hFree, hpart⟩ := (h.part mp).mempoolFree hfree
  refine ⟨⟨c.mem.set mp S', Function.update c.out mp ((c.out mp).erase p)⟩, ?_, ?_, hpool⟩
  · simp only [Client.step, Memory.mempoolFree, hmapped, hpool, hFree, Option.bind_eq_bind,
      Option.bind_some, Option.map_some]
  · refine h.update mp s' ?_ hpart.word hpart.page rfl hI' (fun a ha => ?_)
      (fun a _ => rfl) fun q _ hne => ?_
    · exact congrArg (Function.update c.mem.pages mp) hpart.pages
    · obtain ⟨k', hk'⟩ := Option.isSome_iff_exists.mp (mempoolFree_isSome hfree ha)
      exact (h.pool_of_load hk').1
    · rw [← h.word mp]
      refine mempoolFree_word hfree ?_
      rintro rfl
      exact hne hpool

theorem Ok.write (h : Ok G c own) {p : ℕ} (hp : p ∈ c.out mp) (v : Ptr) :
    ∃ c', c.step G (.write mp p v) = some c' ∧ ∃ own', Ok G c' own' := by
  obtain ⟨l, stale, hI⟩ := h.inv mp
  obtain ⟨k, -, -, hload, -⟩ := hI.chunks.exists_page hp
  have hwrite := hI.chunks.write hp v
  rw [h.word] at hwrite
  let s' : State := { own mp with word := Function.update c.mem.word p v }
  have hI' : Inv (G mp) s' (c.out mp) l stale :=
    ⟨hwrite, hI.inuse_pos, hI.list.nodup, hI.list.head, hI.list.next, hI.list.prev,
      hI.list.mem_iff, hI.list.off_list, hI.list.stale_mapped⟩
  refine ⟨_, rfl, h.update mp s' ?_ rfl (h.part mp).page ?_ hI' (fun a ha => ?_)
    (fun a _ => rfl) fun q _ hne => ?_⟩
  · rw [h.pages, Function.update_eq_self]
  · rw [Function.update_eq_self]
  · obtain ⟨k', hk'⟩ := Option.isSome_iff_exists.mp ha
    exact (h.pool_of_load hk').1
  · refine Function.update_of_ne ?_ _ _
    rintro rfl
    exact hne (h.pool_of_load hload).1

/-! ## Runs -/

/-- The chunk lies in a mapped page that names the pool. -/
def InPool (G : π → Geometry L) (m : Memory π) (mp : π) (p : ℕ) : Prop :=
  ∃ a k i, m.page.load a = some k ∧ m.pool a = some mp ∧ i < (G mp).cpp ∧ p = chunk (G mp) a i

/-- Chunks of two pools have no byte in common. -/
def Clear (G : π → Geometry L) (i : π) (p : ℕ) (j : π) (q : ℕ) : Prop :=
  p + (G i).size ≤ q ∨ q + (G j).size ≤ p

theorem Ok.inPool (h : Ok G c own) {p : ℕ} (hp : p ∈ c.out mp) :
    InPool G c.mem mp p ∧ c.mem.pool (L.pageOf p) = some mp := by
  obtain ⟨l, stale, hI⟩ := h.inv mp
  obtain ⟨k, fl, i, hload, hok, hi, -, hchunk⟩ := hI.chunks.exists_page hp
  obtain ⟨hpool, hmapped⟩ := h.pool_of_load hload
  exact ⟨⟨_, k, i, hmapped, hpool, Nat.lt_of_lt_of_le hi hok.used_le, hchunk⟩, hpool⟩

/-- Chunks that are held are apart, in one pool or in two. -/
theorem Ok.clear (h : Ok G c own) {i j : π} {p q : ℕ} (hp : p ∈ c.out i) (hq : q ∈ c.out j)
    (hne : i = j → p ≠ q) : Clear G i p j q := by
  obtain ⟨l, stale, hI⟩ := h.inv i
  by_cases hij : i = j
  · subst hij
    exact hI.chunks.apart (hI.chunks.inData hp) (hI.chunks.inData hq) (hne rfl)
  · obtain ⟨l', stale', hJ⟩ := h.inv j
    obtain ⟨k, fl, x, -, hok, hx, -, hchunk⟩ := hI.chunks.exists_page hp
    obtain ⟨k', fl', y, -, hok', hy, -, hchunk'⟩ := hJ.chunks.exists_page hq
    have hpages : L.pageOf p ≠ L.pageOf q := by
      intro heq
      have hpool := (h.inPool hp).2
      rw [heq, (h.inPool hq).2] at hpool
      exact hij (Option.some.inj hpool).symm
    rw [hchunk, hchunk']
    rcases Nat.lt_or_gt_of_ne hpages with hlt | hlt
    · exact .inl (chunk_apart_of_page_lt hok.aligned hok'.aligned
        (Nat.lt_of_lt_of_le hx hok.used_le) hlt)
    · exact .inr (chunk_apart_of_page_lt hok'.aligned hok.aligned
        (Nat.lt_of_lt_of_le hy hok'.used_le) hlt)

/-- A call does for its pool what it is there for. -/
def Serves (G : π → Geometry L) (c : Client π) : Call π → Prop
  | .get mp fresh => ∃ c' p, c.step G (.get mp fresh) = some c' ∧
      c'.out = Function.update c.out mp (p :: c.out mp) ∧ InPool G c'.mem mp p ∧
      ∀ j, ∀ q ∈ c.out j, Clear G mp p j q
  | .free mp p => c.mem.pool (L.pageOf p) = some mp
  | .write _ _ _ => True

theorem Ok.step (h : Ok G c own) {call : Call π} (henabled : call.Enabled L c)
    (horderly : call.Orderly L c) :
    ∃ c', c.step G call = some c' ∧ (∃ own', Ok G c' own') ∧ Serves G c call := by
  cases call with
  | write mp p v =>
      obtain ⟨c', hstep, hok⟩ := h.write henabled v
      exact ⟨c', hstep, hok, trivial⟩
  | free mp p => exact h.free henabled horderly
  | get mp fresh =>
      obtain ⟨c', p, hstep, ⟨own', hok⟩, hout, hp⟩ := h.get henabled
      have hself : p ∈ c'.out mp := by
        rw [hout, Function.update_self]
        exact List.mem_cons_self
      refine ⟨c', hstep, ⟨own', hok⟩, c', p, hstep, hout, (hok.inPool hself).1, fun j q hq => ?_⟩
      have hstill : q ∈ c'.out j := by
        rw [hout]
        by_cases hj : j = mp
        · subst hj
          rw [Function.update_self]
          exact List.mem_cons_of_mem p hq
        · rwa [Function.update_of_ne hj]
      refine hok.clear hself hstill ?_
      rintro rfl rfl
      exact hp hq

theorem Ok.init : Ok G (machine G).init fun _ => State.empty where
  pages _ := rfl
  word _ := rfl
  page _ _ := rfl
  named _ ha := by cases ha
  inv _ := ⟨[], none, Inv.init⟩

/-- Any number of pools with chunks of any sizes, in a run that never empties a stale head: no
call faults, every chunk lies in a page of the pool that gives it, apart from all chunks of
all pools that are held, and a chunk that is given back goes to the pool that it came from. -/
theorem pools_serve (calls : List (Call π)) (hvalid : (machine G).Valid (machine G).init calls)
    (hguard : (machine G).AllSteps (fun c call => call.Orderly L c) (machine G).init calls) :
    (∃ c, (machine G).exec (machine G).init calls = some c) ∧
      (machine G).AllSteps (Serves G) (machine G).init calls := by
  have hkeep : ∀ c call, (∃ own, Ok G c own) → (machine G).enabled c call → call.Orderly L c →
      ∃ c', (machine G).step c call = some c' ∧ ∃ own, Ok G c' own := by
    rintro c call ⟨own, h⟩ henabled horderly
    obtain ⟨c', hstep, hok, -⟩ := h.step henabled horderly
    exact ⟨c', hstep, hok⟩
  obtain ⟨⟨c, hexec, -⟩, -⟩ := Machine.run_invariant hkeep ⟨_, Ok.init⟩ hvalid hguard
  refine ⟨⟨c, hexec⟩, Machine.allSteps_of_invariant hkeep ?_ ⟨_, Ok.init⟩ hvalid hguard⟩
  rintro c call ⟨own, h⟩ henabled horderly
  obtain ⟨-, -, -, hserves⟩ := h.step henabled horderly
  exact hserves

/-- Two chunks a page in one pool, three in the other. -/
def twoPools : Bool → Geometry lp64
  | false => twoAPage
  | true => threeAPage

/-- The second pool maps the page that the first one has unmapped. -/
def handover : List (Call Bool) :=
  [.get false 4096, .get true 8192, .get true 0, .get false 0,
    .write true (chunk threeAPage 8192 1) (some 7), .free false (chunk twoAPage 4096 0),
    .free false (chunk twoAPage 4096 1), .get true 0, .get true 4096, .get false 12288,
    .free true (chunk threeAPage 8192 1), .free true (chunk threeAPage 4096 0)]

theorem handover_serves :
    (∃ c, (machine twoPools).exec (machine twoPools).init handover = some c) ∧
      (machine twoPools).AllSteps (Serves twoPools) (machine twoPools).init handover :=
  pools_serve handover (by decide) (by decide)

end Shared

end ThreeW3.Pool
