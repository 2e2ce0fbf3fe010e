/-
# Who frees the keys

A key copy belongs to its entry until the entry leaves the table, and a key that a caller
keeps belongs to the caller. The account of a table says so: each copy is either the key of
one entry or has been freed once. Insertion settles by `HASH_NOCOPY` which kind of key an
entry gets, and removal asks the flag again, so the account holds as long as the flag then
says the same.
-/

import ThreeW3.Hash.Changes

namespace ThreeW3.Hash

open ThreeW3.Lib ThreeW3.Pool HashTable

/-! ## Accounts -/

/-- Whether a block has been given out to this code. -/
def Block.isOwn : Block → Bool
  | .own _ => true
  | .foreign _ => false

/-- The address is one that malloc(3) or calloc(3) has returned. -/
def Address.GivenOut (m : Malloc) (p : Address) : Prop := ∃ n < m.count, p = ⟨.own n, 0⟩

/-- The account of the blocks: `held` are the keys of the entries, and `objects` are blocks
for other uses. -/
structure Account (objects held : List Address) (m : Malloc) : Prop where
  counted : ∀ p ∈ m.copied, m.freed.count p + held.count p = 1
  held : ∀ p ∈ held, p.block.isOwn = true → p ∈ m.copied
  copied : ∀ p ∈ m.copied, p.GivenOut m
  freed : ∀ p ∈ m.freed, p.GivenOut m
  objects : ∀ p ∈ objects, p.GivenOut m ∧ p ∉ m.copied

section Account

variable {objects objects' held held' : List Address} {m m' : Malloc} {p : Address}

theorem Address.GivenOut.isOwn (h : p.GivenOut m) : p.block.isOwn = true := by
  obtain ⟨n, -, rfl⟩ := h
  rfl

theorem Address.GivenOut.mono (h : p.GivenOut m) (hcount : m.count ≤ m'.count) : p.GivenOut m' := by
  obtain ⟨n, hlt, hn⟩ := h
  exact ⟨n, hlt.trans_le hcount, hn⟩

/-- The next block has not been given out. -/
theorem Malloc.next_notGivenOut (m : Malloc) : ¬ m.next.GivenOut m := by
  rintro ⟨n, hlt, hn⟩
  obtain rfl := Block.own.inj (congrArg Address.block hn)
  exact lt_irrefl _ hlt

theorem Malloc.next_givenOut (m : Malloc) : m.next.GivenOut m.take :=
  ⟨m.count, Nat.lt_succ_self _, rfl⟩

namespace Account

theorem perm (h : Account objects held m) (hperm : held'.Perm held) : Account objects held' m where
  counted p hp := by rw [hperm.count_eq, h.counted p hp]
  held p hp := h.held p (hperm.mem_iff.mp hp)
  copied := h.copied
  freed := h.freed
  objects := h.objects

theorem mono (objects' : List Address) (h : Account objects held m) (hsub : objects' ⊆ objects) :
    Account objects' held m :=
  { h with objects := fun p hp => h.objects p (hsub hp) }

/-- Blocks are given out for other uses. -/
theorem grow (h : Account objects held m) (hgrown : m.Grown m') : Account objects held m' where
  counted p hp := by
    rw [hgrown.copied] at hp
    rw [hgrown.freed, h.counted p hp]
  held p hp hown := by
    rw [hgrown.copied]
    exact h.held p hp hown
  copied p hp := by
    rw [hgrown.copied] at hp
    exact (h.copied p hp).mono hgrown.count
  freed p hp := by
    rw [hgrown.freed] at hp
    exact (h.freed p hp).mono hgrown.count
  objects p hp := by
    rw [hgrown.copied]
    exact ⟨(h.objects p hp).1.mono hgrown.count, (h.objects p hp).2⟩

/-- A caller's memory is no copy. -/
theorem ne_copied (h : Account objects held m) {q : Address} (hp : p.block.isOwn = false)
    (hq : q ∈ m.copied) : p ≠ q := by
  rintro rfl
  rw [(h.copied p hq).isOwn] at hp
  cases hp

/-- One more object. -/
theorem allot (h : Account objects held m) : Account (m.next :: objects) held m.take := by
  have hgrown := h.grow m.grown_take
  refine { hgrown with objects := fun p hp => ?_ }
  rcases List.mem_cons.mp hp with rfl | hp
  · exact ⟨m.next_givenOut, fun hcopied => m.next_notGivenOut (h.copied _ hcopied)⟩
  · exact hgrown.objects p hp

/-- An entry gets a copy. -/
theorem copy (h : Account objects held m) :
    Account objects (m.next :: held) { m.take with copied := m.copied ++ [m.next] } where
  counted p hp := by
    have hfresh : ∀ q : Address, q.GivenOut m → q ≠ m.next := by
      rintro q hq rfl
      exact m.next_notGivenOut hq
    rcases List.mem_append.mp hp with hp | hp
    · rw [List.count_cons_of_ne (hfresh p (h.copied p hp)).symm]
      exact h.counted p hp
    · obtain rfl := List.mem_singleton.mp hp
      have hfreed : m.next ∉ m.freed := fun hin => hfresh _ (h.freed _ hin) rfl
      have hheld : m.next ∉ held := fun hin =>
        hfresh _ (h.copied _ (h.held _ hin rfl)) rfl
      rw [List.count_cons_self, List.count_eq_zero_of_not_mem hheld]
      simp [Malloc.take, List.count_eq_zero_of_not_mem hfreed]
  held p hp hown := by
    rcases List.mem_cons.mp hp with rfl | hp
    · simp
    · exact List.mem_append_left _ (h.held p hp hown)
  copied p hp := by
    rcases List.mem_append.mp hp with hp | hp
    · exact (h.copied p hp).mono (Nat.le_succ _)
    · obtain rfl := List.mem_singleton.mp hp
      exact m.next_givenOut
  freed p hp := (h.freed p hp).mono (Nat.le_succ _)
  objects p hp := by
    obtain ⟨hgiven, hcopied⟩ := h.objects p hp
    refine ⟨hgiven.mono (Nat.le_succ _), fun hin => ?_⟩
    rcases List.mem_append.mp hin with hin | hin
    · exact hcopied hin
    · obtain rfl := List.mem_singleton.mp hin
      exact m.next_notGivenOut hgiven

/-- An entry gets the key of a caller. -/
theorem borrow (h : Account objects held m) (hp : p.block.isOwn = false) :
    Account objects (p :: held) m where
  counted q hq := by
    rw [List.count_cons_of_ne (h.ne_copied hp hq), h.counted q hq]
  held q hq hown := by
    rcases List.mem_cons.mp hq with rfl | hq
    · rw [hp] at hown
      cases hown
    · exact h.held q hq hown
  copied := h.copied
  freed := h.freed
  objects := h.objects

/-- An entry goes, and its copy is freed. -/
theorem release (h : Account objects (p :: held) m) (hp : p.block.isOwn = true) :
    Account objects held (m.free (some p)) where
  counted q hq := by
    have hcount := h.counted q hq
    rw [List.count_cons] at hcount
    simp only [Malloc.free, Option.toList_some, List.count_append, List.count_cons, List.count_nil]
    omega
  held q hq := h.held q (List.mem_cons_of_mem p hq)
  copied := h.copied
  freed q hq := by
    rcases List.mem_append.mp hq with hq | hq
    · exact h.freed q hq
    · obtain rfl := List.mem_singleton.mp hq
      exact h.copied q (h.held q List.mem_cons_self hp)
  objects := h.objects

/-- An entry goes, and its key stays with the caller. -/
theorem hand (h : Account objects (p :: held) m) (hp : p.block.isOwn = false) :
    Account objects held m where
  counted q hq := by
    have hcount := h.counted q hq
    rwa [List.count_cons_of_ne (h.ne_copied hp hq)] at hcount
  held q hq := h.held q (List.mem_cons_of_mem p hq)
  copied := h.copied
  freed := h.freed
  objects := h.objects

/-- An object is freed. -/
theorem discard (h : Account (p :: objects) held m) : Account objects held (m.free (some p)) where
  counted q hq := by
    have hne : p ≠ q := by
      rintro rfl
      exact (h.objects p List.mem_cons_self).2 hq
    have hcount := h.counted q hq
    simp only [Malloc.free, Option.toList_some, List.count_append, List.count_singleton]
    simpa [hne] using hcount
  held := h.held
  copied := h.copied
  freed q hq := by
    rcases List.mem_append.mp hq with hq | hq
    · exact h.freed q hq
    · obtain rfl := List.mem_singleton.mp hq
      exact (h.objects q List.mem_cons_self).1
  objects q hq := h.objects q (List.mem_cons_of_mem p hq)

end Account

end Account

/-! ## Tables -/

variable {R D : Type} {L : Layout} {G : Geometry L} {ht ht₁ ht' : HashTable R D} {key : Key}
  {a : Alloc} {op : Op R D}

/-- The account of a table. The pool is in a block of `allocd`, past its header. -/
structure HashTable.Accounted (ht : HashTable R D) : Prop where
  account : Account (ht.array.toList ++ [ht.addr]) (keyPtrs ht.nodes) ht.malloc
  pool : ∃ n, ht.mpAddr = ⟨.own n, allocDataOffset⟩

/-- `HASH_NOCOPY` says of the entry what it said when the entry was inserted: copies are
blocks of this code, and other keys are not. -/
def HashEntry.AsInserted (nocopy : Bool) (he : HashEntry D) : Prop :=
  ∀ k ∈ he.key, k.ptr.block.isOwn = !nocopy

instance decidableAsInserted (nocopy : Bool) (he : HashEntry D) :
    Decidable (he.AsInserted nocopy) :=
  inferInstanceAs (Decidable (∀ k ∈ he.key, k.ptr.block.isOwn = !nocopy))

section Entries

variable {objects : List Address} {m : Malloc} {N : List (HashEntry D)} {he : HashEntry D}

theorem keyPtrs_perm {N N' : List (HashEntry D)} (h : N.Perm N') : (keyPtrs N).Perm (keyPtrs N') :=
  h.filterMap _

theorem keyPtrs_cons_some {k : Key} (hk : he.key = some k) :
    keyPtrs (he :: N) = k.ptr :: keyPtrs N :=
  List.filterMap_cons_some (by rw [hk, Option.map_some])

theorem keyPtrs_cons_none (hk : he.key = none) : keyPtrs (he :: N) = keyPtrs N :=
  List.filterMap_cons_none (by rw [hk, Option.map_none])

/-- An insertion, whether or not the copy can be allocated. -/
theorem Account.enter {b : Bool} (h : Account objects (keyPtrs N) ht.malloc)
    (hforeign : key.ptr.block.isOwn = false) (hkey : he.key = (entryKey ht key b).1) :
    Account objects (keyPtrs (he :: N)) (entryKey ht key b).2 := by
  rw [entryKey] at hkey ⊢
  split_ifs at hkey ⊢ with hnocopy
  · rw [keyPtrs_cons_some hkey]
    exact h.borrow hforeign
  · cases b with
    | true =>
        rw [keyPtrs_cons_some hkey]
        exact h.copy
    | false =>
        rw [keyPtrs_cons_none hkey]
        simpa [hashKdup] using h

/-- A removal. -/
theorem Account.leave {nocopy : Bool} (h : Account objects (keyPtrs (he :: N)) m)
    (hflag : he.AsInserted nocopy) :
    Account objects (keyPtrs N) (if nocopy then m else m.free (he.key.map Key.ptr)) := by
  cases hkey : he.key with
  | none =>
      rw [keyPtrs_cons_none hkey] at h
      have hsame : m.free none = m := by simp [Malloc.free]
      rw [Option.map_none, hsame, ite_self]
      exact h
  | some k =>
      rw [keyPtrs_cons_some hkey] at h
      have hown := hflag k hkey
      cases nocopy with
      | true => exact h.hand hown
      | false => exact h.release hown

/-- The account of the table that is left behind. -/
theorem HashTable.Left.accounted {array : Option Address} {mp : State}
    (hleft : Left ht N array mp m ht')
    (hpool : ∃ n, ht.mpAddr = ⟨.own n, allocDataOffset⟩)
    (h : Account (array.toList ++ [ht.addr]) (keyPtrs N) m) : ht'.Accounted where
  account := by
    rw [hleft.array, hleft.malloc, hleft.addr]
    exact h.perm (keyPtrs_perm hleft.nodes)
  pool := by
    rw [hleft.mpAddr]
    exact hpool

theorem HashTable.Left.poolOf {array : Option Address} {mp : State}
    (hleft : Left ht N array mp m ht') (h : PoolOf G mp N) : PoolOf G ht'.mp ht'.nodes := by
  rw [hleft.mp]
  exact h.perm hleft.nodes.symm

end Entries

/-! ## Calls -/

/-- A deletion asks the flag and gets the answer of the insertion, and the pool takes the
chunk back. -/
def Op.Settles (L : Layout) (ht : HashTable R D) : Op R D → Prop
  | .delete arg => ∀ key ∈ arg.resolve, ∀ he ∈ ht.nodes, hashCmp key he = some false →
      he.AsInserted ht.nocopy ∧ ¬ EmptiesStaleHead L ht.mp he.addr
  | _ => True

/-- mmap(2) gives a page that is not in use, and the key is memory of the caller. -/
structure Lends (L : Layout) (ht : HashTable R D) (a : Alloc) (op : Op R D) : Prop where
  page : a.Maps L ht
  foreign : ∀ arg ∈ op.arg, arg.key.block.isOwn = false

instance decidableSettles (ht : HashTable R D) : (op : Op R D) → Decidable (op.Settles L ht)
  | .delete arg =>
      inferInstanceAs (Decidable (∀ key ∈ arg.resolve, ∀ he ∈ ht.nodes,
        hashCmp key he = some false → he.AsInserted ht.nocopy ∧ ¬ EmptiesStaleHead L ht.mp he.addr))
  | .search _ _ | .find _ | .replace _ _ | .rehash | .keys _ | .sethashfunction _
  | .setthresholds _ _ | .setflags _ | .setflag _ | .clearflag _ => isTrue trivial

instance decidableLends (ht : HashTable R D) (a : Alloc) (op : Op R D) :
    Decidable (Lends L ht a op) :=
  decidable_of_iff (a.Maps L ht ∧ ∀ arg ∈ op.arg, arg.key.block.isOwn = false)
    ⟨fun ⟨hpage, hforeign⟩ => ⟨hpage, hforeign⟩, fun h => ⟨h.page, h.foreign⟩⟩

/-- A table and its calls. Every flag may change, and allocations may fail. -/
def lender [FloatOps R] (G : Geometry L) (ht : HashTable R D) :
    Machine (HashTable R D) (Op R D × Alloc) where
  init := ht
  enabled ht call := Lends L ht call.2 call.1
  step ht call := (perform G ht call.2 call.1).map Prod.fst

instance decidableLenderEnabled [FloatOps R] {G : Geometry L} (ht₀ ht : HashTable R D)
    (call : Op R D × Alloc) : Decidable ((lender G ht₀).enabled ht call) :=
  inferInstanceAs (Decidable (Lends L ht call.2 call.1))

/-- The account is right, and the pool has the chunks of the entries handed out. -/
structure HashTable.Held (G : Geometry L) (ht : HashTable R D) : Prop where
  accounted : ht.Accounted
  pool : PoolOf G ht.mp ht.nodes

theorem resolve_ptr {arg : KeyArg} (hkey : key ∈ arg.resolve) : key.ptr = arg.key := by
  rw [Option.mem_def, KeyArg.resolve] at hkey
  split_ifs at hkey
  obtain rfl := Option.some.inj hkey
  rfl

/-- Every call keeps the account and the pool, up to its resizing. -/
theorem Change.held (hchange : Change G ht a op ht₁) (h : ht.Held G) (hlends : Lends L ht a op)
    (hsettles : op.Settles L ht) : ht₁.Held G := by
  obtain ⟨⟨haccount, hobject⟩, hpool⟩ := h
  cases hchange with
  | grown m hgrown hleft =>
      exact ⟨hleft.accounted hobject (haccount.grow hgrown), hleft.poolOf hpool⟩
  | inserted arg key harg hkey hinserted =>
      obtain ⟨he, mp, hget, hstored, hleft⟩ := hinserted
      have hforeign : key.ptr.block.isOwn = false := by
        rw [resolve_ptr hkey]
        exact hlends.foreign arg harg
      obtain ⟨mp', p, hget', hpool'⟩ := hpool.get hlends.page
      obtain ⟨rfl, hp⟩ := Prod.mk.inj (Option.some.inj (hget.symm.trans hget'))
      exact ⟨hleft.accounted hobject (haccount.enter hforeign hstored), hleft.poolOf (hpool' he hp)⟩
  | updated data hupdated =>
      obtain ⟨he, rest, hrest, hleft⟩ := hupdated
      refine ⟨hleft.accounted hobject (haccount.perm (keyPtrs_perm hrest).symm), hleft.poolOf ?_⟩
      obtain ⟨out, l, stale, hout, hinv⟩ := hpool
      exact ⟨out, l, stale, hout.trans (hrest.map HashEntry.addr), hinv⟩
  | removed arg key hkey hremoved =>
      obtain ⟨he, rest, mp, hrest, hcmp, hgive, hleft⟩ := hremoved
      obtain ⟨hflag, horderly⟩ :=
        hsettles key hkey he (hrest.mem_iff.mpr List.mem_cons_self) hcmp
      obtain ⟨mp', hgive', hpool'⟩ := (hpool.perm hrest).give horderly
      obtain rfl := Option.some.inj (hgive.symm.trans hgive')
      exact ⟨hleft.accounted hobject ((haccount.perm (keyPtrs_perm hrest).symm).leave hflag),
        hleft.poolOf hpool'⟩
  | flagged flags hleft => exact ⟨hleft.accounted hobject haccount, hleft.poolOf hpool⟩

/-- So does a resizing. -/
theorem Resized.held (hresized : Resized ht a ht') (h : ht.Held G) : ht'.Held G := by
  obtain ⟨⟨haccount, hobject⟩, hpool⟩ := h
  cases hresized with
  | kept hleft => exact ⟨hleft.accounted hobject haccount, hleft.poolOf hpool⟩
  | moved addr harray halloc hleft =>
      rw [harray] at haccount
      have hmoved := haccount.allot.mono [addr, ht.malloc.next, ht.addr]
        (by simp [List.subset_def])
      exact ⟨hleft.accounted hobject hmoved.discard, hleft.poolOf hpool⟩
  | lost addr harray halloc hnodes hleft =>
      rw [harray] at haccount
      exact ⟨hleft.accounted hobject haccount.discard, hleft.poolOf hpool⟩

/-- A new table has an account without keys. -/
theorem hashNew_held [FloatOps R] {size : BitVec 32} {lock : Bool} {flags : BitVec 32}
    {boot : NewAlloc} (hnew : hashNew size lock flags boot = some (some ht)) : ht.Held G := by
  rw [hashNew] at hnew
  obtain ⟨ns, -, hrest⟩ := Option.bind_eq_some_iff.mp hnew
  split_ifs at hrest with htable hpool
  · simp at hrest
  obtain rfl := Option.some.inj (Option.some.inj hrest)
  have hnodes : ∀ b : Bool, keyPtrs (((if b then some (Malloc.next (Malloc.take ⟨0, [], []⟩),
      List.replicate (ns.signExtend 64).toNat ([] : List (HashEntry D))) else none).map
        Prod.snd).getD []).flatten = [] := by
    rintro (_ | _) <;> simp [keyPtrs]
  refine ⟨⟨?_, _, rfl⟩, ?_⟩
  · rw [nodes, chains, HashTable.array]
    dsimp only
    rw [hnodes]
    generalize (boot.buckets && decide ((ns.signExtend 64).toNat * ptrSize < sizeModulus)) = calloc
    cases calloc
    all_goals
      refine ⟨by simp [Malloc.take], by simp, by simp [Malloc.take], by simp [Malloc.take], ?_⟩
      simp [Address.GivenOut, Malloc.take, Malloc.next]
  · refine ⟨[], [], none, ?_, .init⟩
    rw [nodes, chains]
    dsimp only
    generalize (boot.buckets && decide ((ns.signExtend 64).toNat * ptrSize < sizeModulus)) = calloc
    cases calloc <;> simp

/-! ## Destruction -/

/-- The chunks can be given back in this order: none of them empties a stale head. -/
def Drains (L : Layout) : State → List ℕ → Prop
  | _, [] => True
  | mp, p :: ps => ¬ EmptiesStaleHead L mp p ∧ ∀ mp' ∈ mempoolFree L p mp, Drains L mp' ps

instance decidableDrains : ∀ (mp : State) (ps : List ℕ), Decidable (Drains L mp ps)
  | _, [] => isTrue trivial
  | mp, p :: ps =>
      have : ∀ mp', Decidable (Drains L mp' ps) := fun mp' => decidableDrains mp' ps
      have : Decidable (∀ mp' ∈ mempoolFree L p mp, Drains L mp' ps) :=
        match hgive : mempoolFree L p mp with
        | none => isTrue (by simp)
        | some mp' => decidable_of_iff (Drains L mp' ps) (by simp)
      inferInstanceAs (Decidable (_ ∧ _))

theorem destroyEntries_spec (nocopy hf : Bool) {N : List (HashEntry D)} (w : Destroyed D)
    (hpool : PoolOf G w.mp N) (hdrains : Drains L w.mp (N.map HashEntry.addr)) :
    ∃ w', N.foldlM (destroyEntry L nocopy hf) w = some w' ∧
      PoolOf G w'.mp ([] : List (HashEntry D)) := by
  induction N generalizing w with
  | nil => exact ⟨w, rfl, hpool⟩
  | cons he N ih =>
      obtain ⟨horderly, hrest⟩ := hdrains
      obtain ⟨mp, hgive, hpool'⟩ := hpool.give horderly
      let w₁ : Destroyed D :=
        { released := if hf then w.released ++ [he.data] else w.released
          mp := mp
          malloc := if nocopy then w.malloc else w.malloc.free (he.key.map Key.ptr) }
      obtain ⟨w', hfold, hempty⟩ := ih (w := w₁) hpool' (hrest mp hgive)
      refine ⟨w', ?_, hempty⟩
      rw [List.foldlM_cons, destroyEntry, hgive]
      exact hfold

/-- `hash_destroy` ends, and no page stays mapped. -/
theorem hashDestroy_spec (hpool : PoolOf G ht.mp ht.nodes) (harray : ht.array ≠ none)
    (hdrains : Drains L ht.mp (ht.nodes.map HashEntry.addr)) (hf : Bool) :
    ∃ w, hashDestroy L ht hf = some w ∧ ∀ b, w.mp.page.load b = none := by
  obtain ⟨⟨addr, bs⟩, hbuckets⟩ : ∃ b, ht.buckets = some b := by
    rw [← Option.ne_none_iff_exists']
    simpa [HashTable.array] using harray
  have hnodes : bs.flatten = ht.nodes := by
    rw [nodes, chains, hbuckets]
    rfl
  obtain ⟨w, hfold, out, l, stale, hout, hinv⟩ :=
    destroyEntries_spec ht.nocopy hf ⟨[], ht.mp, ht.malloc⟩ hpool hdrains
  rw [List.map_nil, List.perm_nil] at hout
  subst hout
  let m := ((w.malloc.free (some addr)).free (some ht.mpAddr)).free (some ht.addr)
  refine ⟨{ w with malloc := m }, ?_, hinv.unmapped⟩
  rw [hashDestroy, hbuckets]
  simp only [Option.bind_eq_bind, Option.bind_some]
  rw [hnodes, hfold, Option.bind_some]

/-! ## Runs -/

/-- Between two calls: no copy that is the key of an entry has been freed, none has been
freed twice, and no memory of a caller has been freed. -/
structure KeysKept (ht : HashTable R D) : Prop where
  held : ∀ p ∈ ht.malloc.copied, p ∈ keyPtrs ht.nodes → p ∉ ht.malloc.freed
  once : ∀ p ∈ ht.malloc.copied, ht.malloc.freed.count p ≤ 1
  foreign : ∀ p ∈ ht.malloc.freed, p.block.isOwn = true

/-- At the end: each copy has been freed once, and no memory of a caller has been freed. -/
structure KeysReleased (m : Malloc) : Prop where
  once : ∀ p ∈ m.copied, m.freed.count p = 1
  foreign : ∀ p ∈ m.freed, p.block.isOwn = true

/-- `hash_destroy` settles the owner of every key as its insertion did, and the pool takes
every chunk back. -/
structure HashTable.Settled (L : Layout) (ht : HashTable R D) : Prop where
  flag : ∀ he ∈ ht.nodes, he.AsInserted ht.nocopy
  drains : Drains L ht.mp (ht.nodes.map HashEntry.addr)

instance decidableSettled (ht : HashTable R D) : Decidable (ht.Settled L) :=
  decidable_of_iff ((∀ he ∈ ht.nodes, he.AsInserted ht.nocopy) ∧
      Drains L ht.mp (ht.nodes.map HashEntry.addr))
    ⟨fun h => ⟨h.1, h.2⟩, fun h => ⟨h.flag, h.drains⟩⟩

theorem HashTable.Accounted.keysKept (h : ht.Accounted) : KeysKept ht where
  held p hp hheld hfreed := by
    have hcount := h.account.counted p hp
    have hheld' := List.count_pos_iff.mpr hheld
    have hfreed' := List.count_pos_iff.mpr hfreed
    omega
  once p hp := by
    have hcount := h.account.counted p hp
    omega
  foreign p hp := (h.account.freed p hp).isOwn

/-- A key that `hash_destroy` frees is a copy. -/
theorem HashTable.Accounted.mem_copied {p : Address} (h : ht.Accounted)
    (hflag : ∀ he ∈ ht.nodes, he.AsInserted ht.nocopy)
    (hp : p ∈ if ht.nocopy then [] else keyPtrs ht.nodes) : p ∈ ht.malloc.copied := by
  split_ifs at hp with hnocopy
  · cases hp
  obtain ⟨he, hhe, hptr⟩ := List.mem_filterMap.mp hp
  obtain ⟨k, hk, rfl⟩ := Option.map_eq_some_iff.mp hptr
  refine h.account.held _ hp ?_
  rw [hflag he hhe k hk, Bool.not_eq_true _ |>.mp hnocopy]
  rfl

/-- A copy that is the key of an entry is freed. -/
theorem HashTable.Accounted.count_keys {p : Address} (h : ht.Accounted)
    (hflag : ∀ he ∈ ht.nodes, he.AsInserted ht.nocopy) (hp : p ∈ ht.malloc.copied) :
    (if ht.nocopy then [] else keyPtrs ht.nodes).count p = (keyPtrs ht.nodes).count p := by
  split_ifs with hnocopy
  · rw [List.count_nil, eq_comm, List.count_eq_zero]
    intro hin
    obtain ⟨he, hhe, hptr⟩ := List.mem_filterMap.mp hin
    obtain ⟨k, hk, rfl⟩ := Option.map_eq_some_iff.mp hptr
    have hforeign := hflag he hhe k hk
    rw [(h.account.copied _ hp).isOwn, hnocopy] at hforeign
    cases hforeign
  · rfl

/-- The calls of free(3) of `hash_destroy` close the account. -/
theorem HashTable.Accounted.keysReleased {hf : Bool} {w : Destroyed D} (h : ht.Accounted)
    (hflag : ∀ he ∈ ht.nodes, he.AsInserted ht.nocopy) (hdestroy : hashDestroy L ht hf = some w) :
    KeysReleased w.malloc := by
  obtain ⟨addr, harray, -, hmalloc⟩ := hashDestroy_cases hdestroy
  obtain ⟨n, hobject⟩ := h.pool
  have hobjects := h.account.objects
  rw [harray] at hobjects
  rw [hmalloc]
  refine ⟨fun p hp => ?_, fun p hp => ?_⟩
  · have hrest : ([addr, ht.mpAddr, ht.addr] : List Address).count p = 0 := by
      rw [List.count_eq_zero]
      intro hin
      obtain ⟨k, -, hk⟩ := h.account.copied p hp
      have hne : p ≠ ht.mpAddr := by
        rw [hobject, hk]
        simp [allocDataOffset, ptrSize]
      refine (hobjects p ?_).2 hp
      simpa [hne] using hin
    have hcount := h.account.counted p hp
    simp only [List.count_append, h.count_keys hflag hp, hrest]
    omega
  · rcases List.mem_append.mp hp with hp | hp
    · exact (h.account.freed p hp).isOwn
    rcases List.mem_append.mp hp with hp | hp
    · exact (h.account.copied p (h.mem_copied hflag hp)).isOwn
    · simp only [List.mem_cons, List.not_mem_nil, or_false] at hp
      rcases hp with rfl | rfl | rfl
      · exact (hobjects p (by simp)).1.isOwn
      · rw [hobject]
        rfl
      · exact (hobjects _ (by simp)).1.isOwn

/-- The tables that calls make of a new one have their keys and their chunks in order. -/
theorem lender_held [FloatOps R] {size : BitVec 32} {lock : Bool} {flags : BitVec 32}
    {boot : NewAlloc} (hnew : hashNew size lock flags boot = some (some ht))
    {calls : List (Op R D × Alloc)} (hvalid : (lender G ht).Valid ht calls)
    (hsettles : (lender G ht).AllSteps (fun ht call => call.1.Settles L ht) ht calls) :
    (lender G ht).AllStates (HashTable.Held G) ht calls := by
  refine Machine.allStates_of_keeps ?_ (hashNew_held hnew) hvalid hsettles
  intro ht call ht' h hlends hsettles hstep
  obtain ⟨⟨ht'', reply⟩, hperform, rfl⟩ := Option.map_eq_some_iff.mp hstep
  obtain ⟨ht₁, hchange, hresized⟩ := perform_cases hperform
  exact hresized.held (hchange.held h hlends hsettles)

/-- Any calls on a new table, with changes of `HASH_NOCOPY` between them: if the flag says
of each entry that is removed what it said when the entry was inserted, then no copy is
freed while it is a key of the table, and when the table is destroyed each copy has been
freed once and no key of a caller has been freed. -/
theorem keys_owned [FloatOps R] {size : BitVec 32} {lock : Bool} {flags : BitVec 32}
    {boot : NewAlloc} (hnew : hashNew size lock flags boot = some (some ht))
    (calls : List (Op R D × Alloc)) (hvalid : (lender G ht).Valid ht calls)
    (hsettles : (lender G ht).AllSteps (fun ht call => call.1.Settles L ht) ht calls) :
    (lender G ht).AllStates KeysKept ht calls ∧
      ∀ ht', (lender G ht).exec ht calls = some ht' → ht'.array ≠ none → ht'.Settled L →
        ∀ hf, ∃ w, hashDestroy L ht' hf = some w ∧ KeysReleased w.malloc := by
  have hheld := lender_held hnew hvalid hsettles
  refine ⟨hheld.mono fun ht h => h.accounted.keysKept, ?_⟩
  intro ht' hexec harray hsettled hf
  have h := hheld.last hexec
  obtain ⟨w, hdestroy, -⟩ := hashDestroy_spec h.pool harray hsettled.drains hf
  exact ⟨w, hdestroy, h.accounted.keysReleased hsettled.flag hdestroy⟩

/-! ## Concrete runs -/

/-- A copied key goes before the flag is set, and a key of the caller stays to the end. -/
def loans : List (Op ℚ ℕ × Alloc) :=
  [(.search (text [97]) 1, served 4096), (.delete (text [97]), served 0),
    (.setflag hashNocopy, served 8192), (.search (text [98]) 2, served 8192),
    (.replace (text [98]) 3, served 0), (.rehash, served 0)]

/-- The table that they leave. -/
def lentTable : HashTable ℚ ℕ :=
  ((lender entryGeometry smallTable).exec smallTable loans).get (by decide +kernel)

theorem loans_owned :
    (lender entryGeometry smallTable).AllStates KeysKept smallTable loans ∧
      ∀ hf, ∃ w, hashDestroy lp64 lentTable hf = some w ∧ KeysReleased w.malloc := by
  obtain ⟨hkept, hdestroy⟩ :=
    keys_owned (G := entryGeometry) smallTable_new loans (by decide +kernel) (by decide +kernel)
  exact ⟨hkept, hdestroy lentTable (Option.some_get _).symm (by decide +kernel)
    (by decide +kernel)⟩

/-- A copy is made, and then the flag is set. -/
def forgotten : List (Op ℚ ℕ × Alloc) :=
  [(.search (text [97]) 1, served 4096), (.setflag hashNocopy, served 0)]

/-- The caller keeps a key, and then the flag is cleared. -/
def taken : List (Op ℚ ℕ × Alloc) :=
  [(.setflag hashNocopy, served 4096), (.search (text [97]) 1, served 4096),
    (.clearflag hashNocopy, served 0)]

/-- What is copied and what is freed by the calls and `hash_destroy`. -/
def accountOf (calls : List (Op ℚ ℕ × Alloc)) : Option (List Address × List Address) := do
  let ht ← (lender entryGeometry smallTable).exec smallTable calls
  let w ← hashDestroy lp64 ht true
  some (w.malloc.copied, w.malloc.freed)

/-- The copy is never freed, and the key of the caller is. -/
theorem flag_changes_not_owned :
    (lender entryGeometry smallTable).Valid smallTable forgotten ∧
      (∃ ht w, (lender entryGeometry smallTable).exec smallTable forgotten = some ht ∧
        hashDestroy lp64 ht true = some w ∧ ∃ p ∈ w.malloc.copied, p ∉ w.malloc.freed) ∧
    (lender entryGeometry smallTable).Valid smallTable taken ∧
      ∃ ht w, (lender entryGeometry smallTable).exec smallTable taken = some ht ∧
        hashDestroy lp64 ht true = some w ∧ (text [97]).key ∈ w.malloc.freed := by
  have hforgotten : accountOf forgotten = some ([⟨.own 3, 0⟩],
      [⟨.own 1, 0⟩, ⟨.own 4, 0⟩, ⟨.own 2, allocDataOffset⟩, ⟨.own 0, 0⟩]) := by decide +kernel
  have htaken : accountOf taken = some ([],
      [⟨.own 1, 0⟩, ⟨.foreign 0, 0⟩, ⟨.own 3, 0⟩, ⟨.own 2, allocDataOffset⟩, ⟨.own 0, 0⟩]) := by
    decide +kernel
  obtain ⟨ht, hexec, hrest⟩ := Option.bind_eq_some_iff.mp hforgotten
  obtain ⟨w, hdestroy, haccount⟩ := Option.bind_eq_some_iff.mp hrest
  obtain ⟨hcopied, hfreed⟩ := Prod.mk.inj (Option.some.inj haccount)
  obtain ⟨ht', hexec', hrest'⟩ := Option.bind_eq_some_iff.mp htaken
  obtain ⟨w', hdestroy', haccount'⟩ := Option.bind_eq_some_iff.mp hrest'
  obtain ⟨-, hfreed'⟩ := Prod.mk.inj (Option.some.inj haccount')
  refine ⟨by decide +kernel, ⟨ht, w, hexec, hdestroy, ⟨.own 3, 0⟩, ?_, ?_⟩, by decide +kernel,
    ht', w', hexec', hdestroy', ?_⟩
  · rw [hcopied]
    decide
  · rw [hfreed]
    decide
  · rw [hfreed']
    decide

end ThreeW3.Hash
