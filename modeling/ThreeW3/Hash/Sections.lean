/-
# The parts under the lock

What each locked part of a call does to a table when its allocations succeed: it ends,
leaves a table with its shape, and changes the entries and the pool as its name says. A
table in order stays in order, and the map that it stores changes with the entries.
-/

import ThreeW3.Hash.Table

namespace ThreeW3.Hash

open ThreeW3.Lib ThreeW3.Pool HashTable

variable {R D : Type} {L : Layout} {G : Geometry L} {ht ht' : HashTable R D} {key : Key} {data : D}
  {a : Alloc} {he : HashEntry D}

/-! ## Entries and pools -/

/-- The table has become one with these entries and this pool. -/
structure HashTable.Turned (ht : HashTable R D) (N : List (HashEntry D)) (mp : State)
    (ht' : HashTable R D) : Prop where
  shape : ht'.Shape
  nodes : ht'.nodes.Perm N
  mp : ht'.mp = mp
  same : SameSettings ht ht'

theorem HashTable.Turned.became {N : List (HashEntry D)} {mp : State} (h : Turned ht N mp ht')
    (hpool : PoolOf G mp N) :
    Became G ht (asMap HashEntry.bytes HashEntry.data N) ht' where
  ok := ⟨h.shape, by rw [h.mp]; exact hpool.perm h.nodes.symm⟩
  contents := asMap_perm h.shape.nodup h.nodes
  same := h.same

/-- The end of a part that has worked under the lock. -/
theorem HashTable.Turned.unlock {N : List (HashEntry D)} {mp : State} (hfree : ht.locked = false)
    (h : Turned { ht with locked := ht.locking } N mp ht') : Turned ht N mp ht'.unlockHash := by
  have hheld : ht'.locked = ht'.locking := h.same.locked.trans h.same.locking.symm
  rw [unlockHash_eq hheld]
  exact ⟨h.shape.relock false, h.nodes, h.mp,
    ⟨h.same.hashFunc, h.same.flags, h.same.locking, hfree.symm, h.same.highMark, h.same.lowMark⟩⟩

/-- One chain is changed, and the table holds these entries now. -/
theorem HashTable.Shape.setChain (ht' : HashTable R D) (h : ht.Shape) {hv : ℕ}
    {d N : List (HashEntry D)}
    (hbuckets : ht'.buckets = (ht.setChain hv d).buckets) (hhash : ht'.hashFunc = ht.hashFunc)
    (hsize : ht'.size = ht.size) (hd : ∀ he ∈ d, hashValue ht he.bytes ht.size = hv)
    (hN : (ht.setChain hv d).nodes.Perm N) (hkeyed : ∀ he ∈ N, he.Keyed)
    (hnodup : (N.map HashEntry.bytes).Nodup) (hentries : ht'.entries = N.length) :
    ht'.Shape ∧ ht'.nodes.Perm N := by
  have hchains : ht'.chains = ht.chains.set hv d := by
    rw [← chains_setChain, chains, hbuckets]
    rfl
  have hN' : ht'.nodes.Perm N := by
    rwa [nodes, hchains, ← chains_setChain]
  have hvalue : ∀ b n, hashValue ht' b n = hashValue ht b n := by
    intro b n
    rw [hashValue, hashValue, hhash]
  refine ⟨?_, hN'⟩
  refine
    { buckets := ?_
      length := by rw [hchains, List.length_set, hsize, h.length]
      pow := by rw [hsize]; exact h.pow
      placed := ?_
      keyed := fun he hhe => hkeyed he (hN'.mem_iff.mp hhe)
      nodup := (hN'.map _).nodup_iff.mpr hnodup
      entries := by rw [hentries, hN'.length_eq] }
  · rw [hbuckets]
    simpa [HashTable.setChain] using h.buckets
  · simp only [hvalue, hsize, hchains]
    exact h.placed.set hd

/-- The entries of one chain, and the others. -/
theorem HashTable.exists_nodes {hv : ℕ} {c : List (HashEntry D)} (hc : ht.chain hv = some c) :
    ∃ others, ht.nodes.Perm (c ++ others) ∧
      ∀ d, (ht.setChain hv d).nodes.Perm (d ++ others) := by
  rw [chain_eq] at hc
  obtain ⟨others, hnodes, hset⟩ := exists_others hc
  refine ⟨others, hnodes, fun d => ?_⟩
  rw [nodes, chains_setChain]
  exact hset d

theorem HashTable.Shape.chain_placed (h : ht.Shape) {hv : ℕ} {c : List (HashEntry D)}
    (hc : ht.chain hv = some c) : ∀ he ∈ c, hashValue ht he.bytes ht.size = hv := by
  rw [chain_eq] at hc
  exact h.placed hv c hc

/-- An entry in the middle of its chain, and all others. -/
theorem perm_middle_append (before after others : List (HashEntry D)) :
    (before ++ he :: after ++ others).Perm (he :: (before ++ after ++ others)) := by
  rw [List.append_assoc, List.append_assoc, List.cons_append]
  exact List.perm_middle

/-! ## Looking for a key -/

theorem HashTable.Shape.look_found (h : ht.Shape) (hkey : ht.Unmutated key) (hhe : he ∈ ht.nodes)
    (hbytes : he.bytes = key.bytes) :
    ∃ before after, ht.chain (hashValue ht key.bytes ht.size) = some (before ++ he :: after) ∧
      walk key (before ++ he :: after) = some (before, he :: after) := by
  obtain ⟨c, hc, ⟨-, hnone⟩ | ⟨before, hr, after, rfl, hwalk, hfound, hhr⟩⟩ := h.look hkey
  · exact absurd (mem_asMap.mpr ⟨he, hhe, hbytes⟩) hnone
  · obtain rfl := h.entry_unique hhr hhe (hfound.trans hbytes.symm)
    exact ⟨before, after, hc, hwalk⟩

theorem HashTable.Shape.look_missing (h : ht.Shape) (hkey : ht.Unmutated key)
    (hmiss : key.bytes ∉ ht.contents) :
    ∃ c, ht.chain (hashValue ht key.bytes ht.size) = some c ∧ walk key c = some (c, []) := by
  obtain ⟨c, hc, ⟨hwalk, -⟩ | ⟨before, hr, after, -, -, hfound, hhr⟩⟩ := h.look hkey
  · exact ⟨c, hc, hwalk⟩
  · exact absurd (mem_asMap.mpr ⟨hr, hhr, hfound⟩) hmiss

/-! ## Insertion -/

/-- The key of a new entry has the bytes of the key, and it is a copy unless the caller
keeps the keys. -/
theorem entryKey_spec (ht : HashTable R D) (key : Key) (hcopy : ht.nocopy = false → a.key = true) :
    ∃ k m, entryKey ht key a.key = (some k, m) ∧ k.bytes = key.bytes ∧
      (ht.nocopy = false → k.ptr = ht.malloc.next) := by
  rw [entryKey]
  split_ifs with hnocopy
  · exact ⟨key, ht.malloc, rfl, rfl, by simp [hnocopy]⟩
  · rw [hashKdup, hcopy (by simpa using hnocopy)]
    exact ⟨_, _, rfl, rfl, fun _ => rfl⟩

/-- The entry that `hash_addentry` makes. -/
structure NewEntry (ht : HashTable R D) (key : Key) (data : D) (p : ℕ) (he : HashEntry D) :
    Prop where
  addr : he.addr = p
  bytes : he.bytes = key.bytes
  data : he.data = data
  copied : ht.nocopy = false → ∃ k, he.key = some k ∧ k.ptr = ht.malloc.next

theorem hashAddentry_spec (data : D) (h : ht.Shape) (hmiss : key.bytes ∉ ht.contents)
    {mp : State} {p : ℕ}
    (hget : mempoolGet G a.page ht.mp = some (mp, p)) (hcopy : ht.nocopy = false → a.key = true) :
    ∃ ht' he, hashAddentry G ht (hashValue ht key.bytes ht.size) key data a = some ht' ∧
      NewEntry ht key data p he ∧ Turned ht (he :: ht.nodes) mp ht' := by
  obtain ⟨c, hc⟩ := h.exists_chain key.bytes
  obtain ⟨k, m, hstored, hbytes, hptr⟩ := entryKey_spec ht key hcopy
  obtain ⟨others, hnodes, hset⟩ := exists_nodes hc
  let he : HashEntry D := ⟨p, some k, key.bytes.length, data⟩
  have hhe : he.bytes = key.bytes := hbytes
  have hN : (ht.setChain (hashValue ht key.bytes ht.size) (he :: c)).nodes.Perm (he :: ht.nodes) :=
    (hset (he :: c)).trans (hnodes.symm.cons he)
  let ht' : HashTable R D := { ht.setChain (hashValue ht key.bytes ht.size) (he :: c) with
    mp := mp, malloc := m, entries := ht.entries + 1 }
  have hshape : ht'.Shape ∧ ht'.nodes.Perm (he :: ht.nodes) := by
    refine h.setChain ht' rfl rfl rfl ?_ hN ?_ ?_ ?_
    · intro x hx
      rcases List.mem_cons.mp hx with rfl | hx
      · rw [hhe]
      · exact h.chain_placed hc x hx
    · intro x hx
      rcases List.mem_cons.mp hx with rfl | hx
      · exact ⟨k, rfl, by rw [hbytes]⟩
      · exact h.keyed x hx
    · rw [List.map_cons, List.nodup_cons, hhe]
      refine ⟨fun hin => hmiss ?_, h.nodup⟩
      obtain ⟨x, hx, heq⟩ := List.mem_map.mp hin
      exact mem_asMap.mpr ⟨x, hx, heq⟩
    · rw [List.length_cons, ← h.entries]
  refine ⟨ht', he, ?_, ⟨rfl, hhe, rfl, fun hnocopy => ⟨k, rfl, hptr hnocopy⟩⟩,
    hshape.1, hshape.2, rfl, ⟨rfl, rfl, rfl, rfl, rfl, rfl⟩⟩
  simp only [hashAddentry, hget, hstored, hc, Option.bind_eq_bind, Option.bind_some]
  rfl

/-! ## `hash_search` -/

theorem searchSection_found (data : D) (h : ht.Shape) (hfree : ht.locked = false)
    (hkey : ht.Unmutated key) (hhe : he ∈ ht.nodes) (hbytes : he.bytes = key.bytes) :
    searchSection G ht key data a = some (ht, false, he.data) := by
  obtain ⟨before, after, hc, hwalk⟩ := (h.relock ht.locking).look_found hkey hhe hbytes
  rw [searchSection, lockHash_eq hfree]
  simp only [hc, hwalk, Option.bind_eq_bind, Option.bind_some, unlockHash_locked hfree]

theorem searchSection_missing (data : D) (h : ht.Shape) (hfree : ht.locked = false)
    (hkey : ht.Unmutated key) (hmiss : key.bytes ∉ ht.contents) {mp : State} {p : ℕ}
    (hget : mempoolGet G a.page ht.mp = some (mp, p)) (hcopy : ht.nocopy = false → a.key = true) :
    ∃ ht' he, searchSection G ht key data a = some (ht', true, data) ∧
      NewEntry ht key data p he ∧ Turned ht (he :: ht.nodes) mp ht' := by
  have h₁ := h.relock ht.locking
  obtain ⟨c, hc, hwalk⟩ := h₁.look_missing hkey hmiss
  obtain ⟨ht', he, hadd, hnew, hturned⟩ := hashAddentry_spec data h₁ hmiss hget hcopy
  refine ⟨ht'.unlockHash, he, ?_, ⟨hnew.addr, hnew.bytes, hnew.data, hnew.copied⟩,
    hturned.unlock hfree⟩
  rw [searchSection, lockHash_eq hfree]
  simp only [hc, hwalk, hadd, Option.bind_eq_bind, Option.bind_some]

/-! ## `hash_find` -/

theorem findSection_spec (h : ht.Shape) (hfree : ht.locked = false) (hkey : ht.Unmutated key) :
    findSection ht key = some (ht, ht.contents.lookup key.bytes) := by
  have h₁ := h.relock ht.locking
  rw [findSection, lockHash_eq hfree]
  by_cases hmem : key.bytes ∈ ht.contents
  · obtain ⟨he, hhe, hbytes⟩ := exists_entry hmem
    obtain ⟨before, after, hc, hwalk⟩ := h₁.look_found hkey hhe hbytes
    have hlookup := h.lookup hhe
    rw [hbytes] at hlookup
    simp [hc, hwalk, unlockHash_locked hfree, hlookup]
  · obtain ⟨c, hc, hwalk⟩ := h₁.look_missing hkey hmem
    have hlookup := Finmap.lookup_eq_none.mpr hmem
    simp [hc, hwalk, unlockHash_locked hfree, hlookup]

/-! ## `hash_replace` -/

theorem replaceSection_found (data : D) (h : ht.Shape) (hfree : ht.locked = false)
    (hkey : ht.Unmutated key) (hhe : he ∈ ht.nodes) (hbytes : he.bytes = key.bytes) :
    ∃ ht' rest, replaceSection G ht key data a = some (ht', some he.data) ∧
      ht.nodes.Perm (he :: rest) ∧ Turned ht ({ he with data := data } :: rest) ht.mp ht' := by
  have h₁ := h.relock ht.locking
  obtain ⟨before, after, hc, hwalk⟩ := h₁.look_found hkey hhe hbytes
  set ht₁ : HashTable R D := { ht with locked := ht.locking } with hht₁
  set hv := hashValue ht₁ key.bytes ht₁.size with hhv
  let new : HashEntry D := { he with data := data }
  obtain ⟨others, hnodes, hset⟩ := exists_nodes hc
  have hrest := hnodes.trans (perm_middle_append before after others)
  have hN := (hset (before ++ new :: after)).trans (perm_middle_append before after others)
  have hshape := h₁.setChain (ht₁.setChain hv (before ++ new :: after)) rfl rfl rfl
    (by
      have hplaced := h₁.chain_placed hc
      intro x hx
      rcases List.mem_append.mp hx with hx | hx
      · exact hplaced x (by simp [hx])
      · rcases List.mem_cons.mp hx with rfl | hx
        · exact hplaced he (by simp)
        · exact hplaced x (by simp [hx]))
    hN
    (by
      intro x hx
      rcases List.mem_cons.mp hx with rfl | hx
      · exact h₁.keyed he hhe
      · exact h₁.keyed x (hrest.mem_iff.mpr (List.mem_cons_of_mem he hx)))
    ((hrest.map HashEntry.bytes).nodup_iff.mp h₁.nodup)
    (h₁.entries.trans hrest.length_eq)
  refine ⟨(ht₁.setChain hv (before ++ new :: after)).unlockHash, before ++ after ++ others, ?_,
    hrest, Turned.unlock hfree ⟨hshape.1, hshape.2, rfl, ⟨rfl, rfl, rfl, rfl, rfl, rfl⟩⟩⟩
  rw [replaceSection, lockHash_eq hfree, ← hht₁]
  simp only [← hhv, hc, hwalk, Option.bind_eq_bind, Option.bind_some]
  rfl

/-- A key that is missing is inserted as `hash_search` inserts it. -/
theorem replaceSection_of_missing (data : D) (h : ht.Shape) (hfree : ht.locked = false)
    (hkey : ht.Unmutated key) (hmiss : key.bytes ∉ ht.contents) :
    replaceSection G ht key data a =
      (searchSection G ht key data a).map fun r => (r.1, none) := by
  obtain ⟨c, hc, hwalk⟩ := (h.relock ht.locking).look_missing hkey hmiss
  rw [replaceSection, searchSection, lockHash_eq hfree]
  simp only [hc, hwalk, Option.bind_eq_bind, Option.bind_some, Option.map_bind]
  rfl

theorem replaceSection_missing (data : D) (h : ht.Shape) (hfree : ht.locked = false)
    (hkey : ht.Unmutated key) (hmiss : key.bytes ∉ ht.contents) {mp : State} {p : ℕ}
    (hget : mempoolGet G a.page ht.mp = some (mp, p)) (hcopy : ht.nocopy = false → a.key = true) :
    ∃ ht' he, replaceSection G ht key data a = some (ht', none) ∧
      NewEntry ht key data p he ∧ Turned ht (he :: ht.nodes) mp ht' := by
  obtain ⟨ht', he, hsection, hnew, hturned⟩ :=
    searchSection_missing data h hfree hkey hmiss hget hcopy
  refine ⟨ht', he, ?_, hnew, hturned⟩
  rw [replaceSection_of_missing data h hfree hkey hmiss, hsection, Option.map_some]

/-! ## `hash_delete` -/

theorem deleteSection_missing (h : ht.Shape) (hfree : ht.locked = false) (hkey : ht.Unmutated key)
    (hmiss : key.bytes ∉ ht.contents) : deleteSection L ht key = some (ht, none) := by
  obtain ⟨c, hc, hwalk⟩ := (h.relock ht.locking).look_missing hkey hmiss
  rw [deleteSection, lockHash_eq hfree]
  simp only [hc, hwalk, Option.bind_eq_bind, Option.bind_some, unlockHash_locked hfree]

/-- A deletion ends exactly if the pool takes the chunk back. -/
theorem deleteSection_found (h : ht.Shape) (hfree : ht.locked = false) (hkey : ht.Unmutated key)
    (hhe : he ∈ ht.nodes) (hbytes : he.bytes = key.bytes) :
    ∃ rest, ht.nodes.Perm (he :: rest) ∧
      (mempoolFree L he.addr ht.mp = none → deleteSection L ht key = none) ∧
      ∀ mp, mempoolFree L he.addr ht.mp = some mp →
        ∃ ht', deleteSection L ht key = some (ht', some he.data) ∧ Turned ht rest mp ht' := by
  have h₁ := h.relock ht.locking
  obtain ⟨before, after, hc, hwalk⟩ := h₁.look_found hkey hhe hbytes
  set ht₁ : HashTable R D := { ht with locked := ht.locking } with hht₁
  set hv := hashValue ht₁ key.bytes ht₁.size with hhv
  obtain ⟨others, hnodes, hset⟩ := exists_nodes hc
  have hrest := hnodes.trans (perm_middle_append before after others)
  have hnodup := (hrest.map HashEntry.bytes).nodup_iff.mp h₁.nodup
  refine ⟨before ++ after ++ others, hrest, fun hgive => ?_, fun mp hgive => ?_⟩
  · rw [deleteSection, lockHash_eq hfree, ← hht₁]
    simp only [← hhv, hc, hwalk, Option.bind_eq_bind, Option.bind_some]
    have hmp : mempoolFree L he.addr ht₁.mp = none := hgive
    simp only [HashTable.setChain, hmp, Option.bind_none]
  let ht₂ : HashTable R D := { ht₁.setChain hv (before ++ after) with
    entries := sizePred ht₁.entries
    malloc := if ht₁.nocopy then ht₁.malloc else ht₁.malloc.free (he.key.map Key.ptr)
    mp := mp }
  have hshape := h₁.setChain ht₂ rfl rfl rfl
    (by
      intro x hx
      refine h₁.chain_placed hc x ?_
      rcases List.mem_append.mp hx with hx | hx <;> simp [hx])
    (hset (before ++ after))
    (fun x hx => h₁.keyed x (hrest.mem_iff.mpr (List.mem_cons_of_mem he hx)))
    (List.nodup_cons.mp hnodup).2
    (by
      have hentries : ht₁.entries = (before ++ after ++ others).length + 1 :=
        h₁.entries.trans hrest.length_eq
      simp [ht₂, sizePred, hentries])
  refine ⟨ht₂.unlockHash, ?_,
    Turned.unlock hfree ⟨hshape.1, hshape.2, rfl, ⟨rfl, rfl, rfl, rfl, rfl, rfl⟩⟩⟩
  rw [deleteSection, lockHash_eq hfree, ← hht₁]
  simp only [← hhv, hc, hwalk, Option.bind_eq_bind, Option.bind_some]
  have hmp : mempoolFree L he.addr ht₁.mp = some mp := hgive
  simp only [HashTable.setChain, hmp, Option.bind_some, ht₂]

/-! ## `hash_rehash` -/

/-- The size that `hash_rehash` computes is one that `hash_size` can reach. -/
def RehashOk [FloatOps R] (ht : HashTable R D) : Prop := ∃ s ∈ rehashTarget ht, s.toNat ≤ 2 ^ 31

instance decidableRehashOk [FloatOps R] (ht : HashTable R D) : Decidable (RehashOk ht) :=
  match htarget : rehashTarget ht with
  | none => isFalse (by simp [RehashOk, htarget])
  | some s => decidable_of_iff (s.toNat ≤ 2 ^ 31) (by simp [RehashOk, htarget])

/-- The loops of `hash_rehash` put every entry into its new bucket. -/
theorem moveEntry_spec (ht : HashTable R D) {n : ℕ} (addr : Address) {c : List (HashEntry D)}
    (hkeyed : ∀ he ∈ c, he.Keyed) {bs : List (List (HashEntry D))} (hlength : bs.length = 2 ^ n)
    (hplaced : Placed (fun he => hashValue ht he.bytes (2 ^ n)) bs) :
    ∃ bs', c.foldlM (moveEntry ht (2 ^ n)) (some (addr, bs)) = some (some (addr, bs')) ∧
      bs'.length = 2 ^ n ∧ Placed (fun he => hashValue ht he.bytes (2 ^ n)) bs' ∧
      bs'.flatten.Perm (c ++ bs.flatten) := by
  induction c generalizing bs with
  | nil => exact ⟨bs, rfl, hlength, hplaced, .refl _⟩
  | cons he c ih =>
      obtain ⟨k, hk, -⟩ := hkeyed he List.mem_cons_self
      have hbytes : he.bytes = k.bytes := by
        rw [HashEntry.bytes, hk]
        rfl
      have hlt : hashValue ht k.bytes (2 ^ n) < bs.length := by
        rw [hlength]
        exact hashValue_lt ht k.bytes n
      have hget := List.getElem?_eq_getElem hlt
      set hv := hashValue ht k.bytes (2 ^ n) with hhv
      set d := bs[hv] with hd
      have hplaced' : Placed (fun he => hashValue ht he.bytes (2 ^ n)) (bs.set hv (he :: d)) := by
        refine hplaced.set fun x hx => ?_
        rcases List.mem_cons.mp hx with rfl | hx
        · rw [hbytes]
        · exact hplaced hv d hget x hx
      obtain ⟨bs', hfold, hlength', hplaced'', hperm⟩ :=
        ih (fun x hx => hkeyed x (List.mem_cons_of_mem he hx)) (by rwa [List.length_set]) hplaced'
      obtain ⟨others, hbs, hset⟩ := exists_others hget
      refine ⟨bs', ?_, hlength', hplaced'', ?_⟩
      · rw [List.foldlM_cons]
        simp only [moveEntry, hk, ← hhv, Option.bind_eq_bind, Option.bind_some]
        rw [hget]
        exact hfold
      · calc bs'.flatten.Perm (c ++ (bs.set hv (he :: d)).flatten) := hperm
          _ |>.Perm (c ++ (he :: bs.flatten)) :=
              ((hset (he :: d)).trans (hbs.symm.cons he)).append_left c
          _ |>.Perm (he :: (c ++ bs.flatten)) := List.perm_middle

theorem hashRehash_spec [FloatOps R] (h : ht.Shape) (hfree : ht.locked = false)
    (htarget : RehashOk ht) (ha : a.buckets = true) :
    ∃ ht', hashRehash ht a = some ht' ∧ Turned ht ht.nodes ht.mp ht' := by
  obtain ⟨s, hs, hle⟩ := htarget
  obtain ⟨n, -, ns, hns, hpow⟩ := hashSize_spec hle
  have hs' : rehashTarget { ht with locked := ht.locking } = some s := hs
  have h₁ := h.relock ht.locking
  rw [hashRehash, lockHash_eq hfree]
  simp only [hs', hns, hpow, Option.bind_eq_bind, Option.bind_some]
  split_ifs with hsize
  · rw [unlockHash_locked hfree]
    exact ⟨ht, rfl, h, .refl _, rfl, .refl ht⟩
  obtain ⟨⟨addr, bs⟩, hbuckets⟩ := Option.ne_none_iff_exists'.mp h₁.buckets
  have hnodes : ht.nodes = bs.flatten := by
    have hb : ht.buckets = some (addr, bs) := hbuckets
    rw [nodes, chains, hb]
    rfl
  set ht₁ : HashTable R D := { ht with locked := ht.locking } with hht₁
  obtain ⟨bs', hfold, hlength, hplaced, hperm⟩ := moveEntry_spec ht₁ ht₁.malloc.next
    (fun he hhe => h.keyed he (by rwa [hnodes])) (List.length_replicate (a := [])) (.replicate _ _)
  have hperm' : bs'.flatten.Perm ht.nodes := by
    rw [hnodes]
    simpa using hperm
  let ht₂ : HashTable R D := { ht₁ with
    size := 2 ^ n
    malloc := ht₁.malloc.take.free (some addr)
    buckets := some (ht₁.malloc.next, bs') }
  have hshape : ht₂.Shape :=
    { buckets := by simp [ht₂]
      length := hlength
      pow := ⟨n, rfl⟩
      placed := hplaced
      keyed := fun he hhe => h.keyed he (hperm'.mem_iff.mp hhe)
      nodup := (hperm'.map _).nodup_iff.mpr h.nodup
      entries := h.entries.trans hperm'.length_eq.symm }
  refine ⟨ht₂.unlockHash, ?_,
    Turned.unlock hfree ⟨hshape, hperm', rfl, ⟨rfl, rfl, rfl, rfl, rfl, rfl⟩⟩⟩
  have hb : ht₁.buckets = some (addr, bs) := hbuckets
  have hfold' : bs.flatten.foldlM (moveEntry ht₁ (2 ^ n))
      (some (ht.malloc.next, List.replicate (2 ^ n) [])) = _ := hfold
  rw [hb, Option.bind_some, hfold', Option.bind_some]

/-- `hash_rehash` asks for another bucket array. -/
def resizes [FloatOps R] (ht : HashTable R D) : Bool :=
  ((rehashTarget ht).bind hashSize).any fun ns => decide (ns.toNat ≠ ht.size)

/-- `hash_rehash` ends, and it gets a bucket array if it asks for one. -/
structure Regrows [FloatOps R] (ht : HashTable R D) (a : Alloc) : Prop where
  target : RehashOk ht
  buckets : resizes ht = true → a.buckets = true

theorem hashRehash_same [FloatOps R] (hfree : ht.locked = false) (htarget : RehashOk ht)
    (hsame : resizes ht = false) : hashRehash ht a = some ht := by
  obtain ⟨s, hs, hle⟩ := htarget
  obtain ⟨n, -, ns, hns, -⟩ := hashSize_spec hle
  have hs' : rehashTarget { ht with locked := ht.locking } = some s := hs
  have hsize : ns.toNat = ht.size := by
    rw [Option.mem_def] at hs
    simpa [resizes, hs, hns] using hsame
  rw [hashRehash, lockHash_eq hfree]
  simp only [hs', hns, hsize, Option.bind_eq_bind, Option.bind_some, if_true]
  rw [unlockHash_locked hfree]

/-! ## `hash_keys` -/

theorem copyKeys_spec (hcopies : ∀ b ∈ a.keyCopies, b = true) {c : List (HashEntry D)}
    (hkeyed : ∀ he ∈ c, he.Keyed) (j : ℕ) (m : Malloc) :
    ∃ (ks : List Key) (m' : Malloc), copyKeys a j c m = some (ks.map some, m') ∧
      ks.map Key.bytes = c.map HashEntry.bytes := by
  induction c generalizing j m with
  | nil => exact ⟨[], m, rfl, rfl⟩
  | cons he c ih =>
      obtain ⟨k, hk, -⟩ := hkeyed he List.mem_cons_self
      obtain ⟨ks, m', hcopy, hbytes⟩ :=
        ih (fun x hx => hkeyed x (List.mem_cons_of_mem he hx)) (j + 1) m.take
      have hcopied : a.keyCopies[j]?.getD true = true := by
        cases hj : a.keyCopies[j]? with
        | none => rfl
        | some b => exact hcopies b (List.mem_of_getElem? hj)
      refine ⟨⟨m.next, k.bytes⟩ :: ks, m', ?_, ?_⟩
      · simp [copyKeys, hk, hashKdup, hcopied, hcopy]
      · rw [List.map_cons, hbytes, List.map_cons, HashEntry.bytes, hk]
        rfl

theorem map_key_eq {c : List (HashEntry D)} (hkeyed : ∀ he ∈ c, he.Keyed) :
    ∃ ks : List Key, c.map HashEntry.key = ks.map some ∧
      ks.map Key.bytes = c.map HashEntry.bytes := by
  induction c with
  | nil => exact ⟨[], rfl, rfl⟩
  | cons he c ih =>
      obtain ⟨k, hk, -⟩ := hkeyed he List.mem_cons_self
      obtain ⟨ks, hks, hbytes⟩ := ih fun x hx => hkeyed x (List.mem_cons_of_mem he hx)
      refine ⟨k :: ks, by simp [hk, hks], ?_⟩
      rw [List.map_cons, hbytes, List.map_cons, HashEntry.bytes, hk]
      rfl

theorem keyArray_spec (hcopies : ∀ b ∈ a.keyCopies, b = true) {c : List (HashEntry D)}
    (hkeyed : ∀ he ∈ c, he.Keyed) (fast : Bool) (m : Malloc) :
    ∃ (ks : List Key) (m' : Malloc), keyArray fast a c m = some (ks.map some, m') ∧
      ks.map Key.bytes = c.map HashEntry.bytes := by
  rw [keyArray]
  split_ifs
  · obtain ⟨ks, hks, hbytes⟩ := map_key_eq hkeyed
    exact ⟨ks, m, by rw [hks], hbytes⟩
  · exact copyKeys_spec hcopies hkeyed 0 m

/-- The array holds the key of every entry. -/
theorem keysSection_spec (h : ht.Shape) (hfree : ht.locked = false) (fast : Bool)
    (hkeys : a.keys = true) (hcopies : ∀ b ∈ a.keyCopies, b = true) :
    ∃ (ht' : HashTable R D) (ks : List Key), keysSection ht fast a =
        some (ht', ⟨some (ks.map some), some (BitVec.ofNat 32 ht.nodes.length)⟩) ∧
      ks.map Key.bytes = ht.nodes.map HashEntry.bytes ∧ Turned ht ht.nodes ht.mp ht' := by
  obtain ⟨⟨addr, bs⟩, hbuckets⟩ := Option.ne_none_iff_exists'.mp h.buckets
  have hnodes : bs.flatten = ht.nodes := by
    rw [nodes, chains, hbuckets]
    rfl
  obtain ⟨ks, m, hks, hbytes⟩ := keyArray_spec hcopies h.keyed fast ht.malloc.take
  let ht₂ : HashTable R D := { ht with locked := ht.locking, malloc := m }
  have hshape : ht₂.Shape :=
    ⟨h.buckets, h.length, h.pow, h.placed, h.keyed, h.nodup, h.entries⟩
  refine ⟨ht₂.unlockHash, ks, ?_, hbytes,
    Turned.unlock hfree ⟨hshape, .refl _, rfl, ⟨rfl, rfl, rfl, rfl, rfl, rfl⟩⟩⟩
  rw [keysSection, lockHash_eq hfree]
  simp only [hkeys, hbuckets, hnodes, hks, Option.bind_eq_bind, Option.bind_some,
    Bool.not_true, Bool.false_eq_true, if_false, h.entries, ht₂, lt_irrefl]

/-! ## The setters -/

/-- The map is empty exactly if there are no entries. -/
theorem HashTable.Shape.contents_eq_empty_iff (h : ht.Shape) :
    ht.contents = ∅ ↔ ht.entries = 0 := by
  rw [h.entries, List.length_eq_zero_iff]
  constructor
  · intro hempty
    rw [List.eq_nil_iff_forall_not_mem]
    intro he hhe
    have hmem : he.bytes ∈ ht.contents := mem_asMap.mpr ⟨he, hhe, rfl⟩
    rw [hempty] at hmem
    exact Finmap.notMem_empty hmem
  · intro hnil
    rw [contents, hnil, asMap_nil]

/-- The flags are written. -/
theorem writeFlags_eq (hfree : ht.locked = false) (flags : BitVec 32 → BitVec 32) :
    writeFlags ht flags = some { ht with flags := flags ht.flags } := by
  rw [writeFlags, lockHash_eq hfree, Option.bind_eq_bind, Option.bind_some, unlockHash_eq rfl,
    ← hfree]

theorem HashTable.Ok.withFlags (h : ht.Ok G) (flags : BitVec 32) :
    ({ ht with flags := flags } : HashTable R D).Ok G :=
  ⟨⟨h.buckets, h.length, h.pow, h.placed, h.keyed, h.nodup, h.entries⟩, h.pool⟩

/-- Another hash function may be taken while there are no entries. -/
theorem HashTable.Shape.withHashFunc (h : ht.Shape) (hentries : ht.entries = 0)
    (hf : List UInt8 → BitVec 32) : ({ ht with hashFunc := hf } : HashTable R D).Shape := by
  have hnone : ht.nodes = [] := by
    rw [← List.length_eq_zero_iff, ← h.entries, hentries]
  refine ⟨h.buckets, h.length, h.pow, ?_, h.keyed, h.nodup, h.entries⟩
  intro i c hc he hhe
  have hmem : he ∈ ht.nodes := List.mem_flatten_of_mem (List.mem_of_getElem? hc) hhe
  rw [hnone] at hmem
  cases hmem

/-! ## Tables in order -/

/-- mmap(2) gives a page that is not in use. -/
def Alloc.Maps (L : Layout) (ht : HashTable R D) (a : Alloc) : Prop :=
  ht.mp.pages = none → Fresh L ht.mp a.page

/-- Giving back the chunk of the entry with this key does not empty a stale head. -/
def HashTable.Orderly (L : Layout) (ht : HashTable R D) (key : List UInt8) : Prop :=
  ∀ he ∈ ht.nodes, he.bytes = key → ¬ EmptiesStaleHead L ht.mp he.addr

instance decidableMaps (ht : HashTable R D) (a : Alloc) : Decidable (a.Maps L ht) :=
  inferInstanceAs (Decidable (ht.mp.pages = none → Fresh L ht.mp a.page))

instance decidableOrderly (ht : HashTable R D) (key : List UInt8) : Decidable (ht.Orderly L key) :=
  inferInstanceAs (Decidable
    (∀ he ∈ ht.nodes, he.bytes = key → ¬ EmptiesStaleHead L ht.mp he.addr))

/-- The pool gives a chunk for a new entry. -/
theorem PoolOf.get {mp : State} {N : List (HashEntry D)} (h : PoolOf G mp N) {page : ℕ}
    (hpage : mp.pages = none → Fresh L mp page) :
    ∃ mp' p, mempoolGet G page mp = some (mp', p) ∧
      ∀ he : HashEntry D, he.addr = p → PoolOf G mp' (he :: N) := by
  obtain ⟨out, l, stale, hout, hinv⟩ := h
  obtain ⟨mp', p, l', stale', hget, -, hinv', -⟩ := mempoolGet_spec hinv hpage
  refine ⟨mp', p, hget, fun he hhe => ⟨p :: out, l', stale', ?_, hinv'⟩⟩
  rw [List.map_cons, hhe]
  exact hout.cons p

/-- The pool takes the chunk of an entry back. -/
theorem PoolOf.give {mp : State} {N : List (HashEntry D)} (h : PoolOf G mp (he :: N))
    (horderly : ¬ EmptiesStaleHead L mp he.addr) :
    ∃ mp', mempoolFree L he.addr mp = some mp' ∧ PoolOf G mp' N := by
  obtain ⟨out, l, stale, hout, hinv⟩ := h
  rw [List.map_cons] at hout
  obtain ⟨mp', l', stale', hgive, hinv', -⟩ :=
    mempoolFree_spec hinv (hout.mem_iff.mpr List.mem_cons_self) horderly
  refine ⟨mp', hgive, out.erase he.addr, l', stale', ?_, hinv'⟩
  have herase := hout.erase he.addr
  rwa [List.erase_cons_head] at herase

theorem HashTable.Ok.exists_get (h : ht.Ok G) (hpage : a.Maps L ht) :
    ∃ mp p, mempoolGet G a.page ht.mp = some (mp, p) ∧
      ∀ he : HashEntry D, he.addr = p → PoolOf G mp (he :: ht.nodes) :=
  h.pool.get hpage

theorem HashTable.Ok.exists_free (h : ht.Ok G) {rest : List (HashEntry D)}
    (hrest : ht.nodes.Perm (he :: rest)) (horderly : ¬ EmptiesStaleHead L ht.mp he.addr) :
    ∃ mp, mempoolFree L he.addr ht.mp = some mp ∧ PoolOf G mp rest :=
  (h.pool.perm hrest).give horderly

/-- A new entry in a table in order. -/
theorem HashTable.Turned.inserted {mp : State} {p : ℕ} (hturned : Turned ht (he :: ht.nodes) mp ht')
    (hnew : NewEntry ht key data p he)
    (hpool : ∀ he : HashEntry D, he.addr = p → PoolOf G mp (he :: ht.nodes)) :
    Became G ht (ht.contents.insert key.bytes data) ht' := by
  have hbecame := hturned.became (hpool he hnew.addr)
  rwa [asMap_cons, hnew.bytes, hnew.data] at hbecame

theorem HashTable.Ok.search_missing (data : D) (h : ht.Ok G) (hfree : ht.locked = false)
    (hkey : ht.Unmutated key) (hmiss : key.bytes ∉ ht.contents) (hpage : a.Maps L ht)
    (hcopy : ht.nocopy = false → a.key = true) :
    ∃ ht', searchSection G ht key data a = some (ht', true, data) ∧
      Became G ht (ht.contents.insert key.bytes data) ht' := by
  obtain ⟨mp, p, hget, hpool⟩ := h.exists_get hpage
  obtain ⟨ht', he, hsection, hnew, hturned⟩ :=
    searchSection_missing data h.toShape hfree hkey hmiss hget hcopy
  exact ⟨ht', hsection, hturned.inserted hnew hpool⟩

theorem HashTable.Ok.replace (data : D) (h : ht.Ok G) (hfree : ht.locked = false)
    (hkey : ht.Unmutated key) (hpage : a.Maps L ht)
    (hcopy : key.bytes ∉ ht.contents → ht.nocopy = false → a.key = true) :
    ∃ ht', replaceSection G ht key data a = some (ht', ht.contents.lookup key.bytes) ∧
      Became G ht (ht.contents.insert key.bytes data) ht' := by
  by_cases hmem : key.bytes ∈ ht.contents
  · obtain ⟨he, hhe, hbytes⟩ := exists_entry hmem
    obtain ⟨ht', rest, hsection, hrest, hturned⟩ :=
      replaceSection_found (G := G) (a := a) data h.toShape hfree hkey hhe hbytes
    refine ⟨ht', by rw [hsection, ← hbytes, h.lookup hhe], ?_⟩
    have hpool : PoolOf G ht.mp ({ he with data := data } :: rest) := by
      obtain ⟨out, l, stale, hout, hinv⟩ := h.pool
      exact ⟨out, l, stale, hout.trans (hrest.map HashEntry.addr), hinv⟩
    have hbecame := hturned.became hpool
    have hkeeps : HashEntry.bytes { he with data := data } = he.bytes := rfl
    rwa [asMap_replace hkeeps, ← asMap_perm h.nodup hrest, hbytes] at hbecame
  · obtain ⟨mp, p, hget, hpool⟩ := h.exists_get hpage
    obtain ⟨ht', he, hsection, hnew, hturned⟩ :=
      replaceSection_missing data h.toShape hfree hkey hmem hget (hcopy hmem)
    exact ⟨ht', by rw [hsection, Finmap.lookup_eq_none.mpr hmem], hturned.inserted hnew hpool⟩

theorem HashTable.Ok.delete (h : ht.Ok G) (hfree : ht.locked = false) (hkey : ht.Unmutated key)
    (horderly : ht.Orderly L key.bytes) :
    ∃ ht', deleteSection L ht key = some (ht', ht.contents.lookup key.bytes) ∧
      Became G ht (ht.contents.erase key.bytes) ht' := by
  by_cases hmem : key.bytes ∈ ht.contents
  · obtain ⟨he, hhe, hbytes⟩ := exists_entry hmem
    obtain ⟨rest, hrest, -, hsection⟩ :=
      deleteSection_found (L := L) h.toShape hfree hkey hhe hbytes
    obtain ⟨mp, hgive, hpool⟩ := h.exists_free hrest (horderly he hhe hbytes)
    obtain ⟨ht', hsection, hturned⟩ := hsection mp hgive
    refine ⟨ht', by rw [hsection, ← hbytes, h.lookup hhe], ?_⟩
    have hbecame := hturned.became hpool
    have hnodup := (hrest.map HashEntry.bytes).nodup_iff.mp h.nodup
    rwa [asMap_erase hnodup, ← asMap_perm h.nodup hrest, hbytes] at hbecame
  · refine ⟨ht, ?_, ?_⟩
    · rw [deleteSection_missing h.toShape hfree hkey hmem, Finmap.lookup_eq_none.mpr hmem]
    · rw [erase_of_notMem hmem]
      exact h.became

theorem HashTable.Ok.rehash [FloatOps R] (h : ht.Ok G) (hfree : ht.locked = false)
    (hregrows : Regrows ht a) :
    ∃ ht', hashRehash ht a = some ht' ∧ Became G ht ht.contents ht' := by
  cases hresizes : resizes ht with
  | false => exact ⟨ht, hashRehash_same hfree hregrows.target hresizes, h.became⟩
  | true =>
      obtain ⟨ht', hrehash, hturned⟩ :=
        hashRehash_spec h.toShape hfree hregrows.target (hregrows.buckets hresizes)
      exact ⟨ht', hrehash, hturned.became h.pool⟩

end ThreeW3.Hash
