/-
# What a call changes

The converse of the specifications. Whatever a table is like, if a call of it ends then
its entries, its bucket array, its pool and its calls of malloc(3) and free(3) have changed
in one of few ways: nothing, an entry more, other data in an entry, an entry less, other
flags, and then perhaps a resizing.
-/

import ThreeW3.Hash.Refinement

namespace ThreeW3.Hash

open ThreeW3.Lib ThreeW3.Pool HashTable

variable {R D : Type} {L : Layout} {G : Geometry L} {ht ht₁ ht' : HashTable R D} {key : Key}
  {data : D} {a : Alloc}

/-! ## Tables left behind -/

/-- `ht->buckets` -/
def HashTable.array (ht : HashTable R D) : Option Address := ht.buckets.map Prod.fst

/-- A table is left with these entries, this bucket array, this pool and these calls of
malloc(3) and free(3). It is the same object with the same flags. -/
structure HashTable.Left (ht : HashTable R D) (N : List (HashEntry D)) (array : Option Address)
    (mp : State) (m : Malloc) (ht' : HashTable R D) : Prop where
  nodes : ht'.nodes.Perm N
  array : ht'.array = array
  mp : ht'.mp = mp
  malloc : ht'.malloc = m
  flags : ht'.flags = ht.flags
  addr : ht'.addr = ht.addr
  mpAddr : ht'.mpAddr = ht.mpAddr

section Left

variable {N : List (HashEntry D)} {array : Option Address} {mp : State} {m : Malloc}

theorem HashTable.Left.refl (ht : HashTable R D) : Left ht ht.nodes ht.array ht.mp ht.malloc ht :=
  ⟨.refl _, rfl, rfl, rfl, rfl, rfl, rfl⟩

theorem lockHash_cases (hlock : ht.lockHash = some ht₁) : ∃ b, ht₁ = { ht with locked := b } := by
  rw [lockHash] at hlock
  split_ifs at hlock
  · exact ⟨true, (Option.some.inj hlock).symm⟩
  · exact ⟨ht.locked, (Option.some.inj hlock).symm⟩

theorem unlockHash_cases (ht : HashTable R D) : ∃ b, ht.unlockHash = { ht with locked := b } := by
  rw [unlockHash]
  split_ifs
  · exact ⟨false, rfl⟩
  · exact ⟨ht.locked, rfl⟩

theorem HashTable.Left.unlock (h : Left ht N array mp m ht') :
    Left ht N array mp m ht'.unlockHash := by
  obtain ⟨b, hb⟩ := unlockHash_cases ht'
  rw [hb]
  exact ⟨h.nodes, h.array, h.mp, h.malloc, h.flags, h.addr, h.mpAddr⟩

/-- The lock of the table before does not matter. -/
theorem HashTable.Left.of_lock (hlock : ht.lockHash = some ht₁) (h : Left ht₁ N array mp m ht') :
    Left ht N array mp m ht' := by
  obtain ⟨b, rfl⟩ := lockHash_cases hlock
  exact ⟨h.nodes, h.array, h.mp, h.malloc, h.flags, h.addr, h.mpAddr⟩

/-- Another chain is put into a bucket. -/
theorem HashTable.Left.setChain {hv : ℕ} {c : List (HashEntry D)}
    (hnodes : (ht.setChain hv c).nodes.Perm N) :
    Left ht N ht.array ht.mp ht.malloc (ht.setChain hv c) := by
  refine ⟨hnodes, ?_, rfl, rfl, rfl, rfl, rfl⟩
  rw [HashTable.array, HashTable.setChain, HashTable.array]
  cases ht.buckets <;> rfl

end Left

/-! ## The parts under the lock -/

/-- Where the loop over a chain stops. -/
theorem walk_cases {c before found : List (HashEntry D)}
    (hwalk : walk key c = some (before, found)) :
    c = before ++ found ∧ ∀ hr ∈ found.head?, hashCmp key hr = some false := by
  induction c generalizing before with
  | nil =>
      obtain ⟨rfl, rfl⟩ := Prod.mk.inj (Option.some.inj hwalk)
      simp
  | cons he c ih =>
      rw [walk] at hwalk
      obtain ⟨differs, hcmp, hrest⟩ := Option.bind_eq_some_iff.mp hwalk
      cases differs with
      | false =>
          obtain ⟨rfl, rfl⟩ := Prod.mk.inj (Option.some.inj hrest)
          simpa using hcmp
      | true =>
          obtain ⟨⟨before', found'⟩, hwalk', hresult⟩ := Option.bind_eq_some_iff.mp hrest
          obtain ⟨rfl, rfl⟩ := Prod.mk.inj (Option.some.inj hresult)
          obtain ⟨rfl, hhead⟩ := ih hwalk'
          exact ⟨rfl, hhead⟩

/-- A new entry, whose key is a copy or the caller's. -/
inductive Inserted (G : Geometry L) (ht : HashTable R D) (key : Key) (a : Alloc)
    (ht' : HashTable R D) : Prop
  | intro (he : HashEntry D) (mp : State)
      (hget : mempoolGet G a.page ht.mp = some (mp, he.addr))
      (hkey : he.key = (entryKey ht key a.key).1)
      (hleft : Left ht (he :: ht.nodes) ht.array mp (entryKey ht key a.key).2 ht')

/-- An entry less, that of the key. -/
inductive Removed (L : Layout) (ht : HashTable R D) (key : Key) (ht' : HashTable R D) : Prop
  | intro (he : HashEntry D) (rest : List (HashEntry D)) (mp : State)
      (hrest : ht.nodes.Perm (he :: rest))
      (hcmp : hashCmp key he = some false)
      (hgive : mempoolFree L he.addr ht.mp = some mp)
      (hleft : Left ht rest ht.array mp
        (if ht.nocopy then ht.malloc else ht.malloc.free (he.key.map Key.ptr)) ht')

/-- Other data in an entry. -/
inductive Updated (ht : HashTable R D) (data : D) (ht' : HashTable R D) : Prop
  | intro (he : HashEntry D) (rest : List (HashEntry D))
      (hrest : ht.nodes.Perm (he :: rest))
      (hleft : Left ht ({ he with data := data } :: rest) ht.array ht.mp ht.malloc ht')

/-- Nothing that counts. -/
abbrev Kept (ht ht' : HashTable R D) : Prop := Left ht ht.nodes ht.array ht.mp ht.malloc ht'

theorem kept_unlock (hlock : ht.lockHash = some ht₁) : Kept ht ht₁.unlockHash := by
  have hkept := (Left.refl ht₁).of_lock hlock
  obtain ⟨b, rfl⟩ := lockHash_cases hlock
  exact hkept.unlock

theorem hashAddentry_cases {hv : ℕ} (hadd : hashAddentry G ht hv key data a = some ht') :
    Inserted G ht key a ht' := by
  obtain ⟨⟨mp, addr⟩, hget, hrest⟩ := Option.bind_eq_some_iff.mp hadd
  obtain ⟨c, hc, hresult⟩ := Option.bind_eq_some_iff.mp hrest
  obtain rfl := Option.some.inj hresult
  obtain ⟨others, hnodes, hset⟩ := exists_nodes hc
  let he : HashEntry D := ⟨addr, (entryKey ht key a.key).1, key.bytes.length, data⟩
  have hN : (ht.setChain hv (he :: c)).nodes.Perm (he :: ht.nodes) :=
    (hset (he :: c)).trans (hnodes.symm.cons he)
  have h := Left.setChain hN
  exact ⟨he, mp, hget, rfl, h.nodes, h.array, rfl, rfl, h.flags, h.addr, h.mpAddr⟩

theorem Inserted.of_lock (hlock : ht.lockHash = some ht₁) (h : Inserted G ht₁ key a ht') :
    Inserted G ht key a ht'.unlockHash := by
  obtain ⟨b, rfl⟩ := lockHash_cases hlock
  obtain ⟨he, mp, hget, hkey, hleft⟩ := h
  exact ⟨he, mp, hget, hkey, (hleft.of_lock hlock).unlock⟩

theorem searchSection_cases {hf : Bool} {written : D}
    (hsection : searchSection G ht key data a = some (ht', hf, written)) :
    (hf = false ∧ Kept ht ht') ∨ (hf = true ∧ Inserted G ht key a ht') := by
  obtain ⟨ht₁, hlock, hrest⟩ := Option.bind_eq_some_iff.mp hsection
  obtain ⟨c, -, hrest⟩ := Option.bind_eq_some_iff.mp hrest
  obtain ⟨⟨before, found⟩, -, hrest⟩ := Option.bind_eq_some_iff.mp hrest
  cases found with
  | cons hr after =>
      obtain ⟨rfl, hpair⟩ := Prod.mk.inj (Option.some.inj hrest)
      obtain ⟨rfl, -⟩ := Prod.mk.inj hpair
      exact .inl ⟨rfl, kept_unlock hlock⟩
  | nil =>
      obtain ⟨ht₂, hadd, hresult⟩ := Option.bind_eq_some_iff.mp hrest
      obtain ⟨rfl, hpair⟩ := Prod.mk.inj (Option.some.inj hresult)
      obtain ⟨rfl, -⟩ := Prod.mk.inj hpair
      exact .inr ⟨rfl, (hashAddentry_cases hadd).of_lock hlock⟩

theorem findSection_cases {found : Option D} (hsection : findSection ht key = some (ht', found)) :
    Kept ht ht' := by
  obtain ⟨ht₁, hlock, hrest⟩ := Option.bind_eq_some_iff.mp hsection
  obtain ⟨c, -, hrest⟩ := Option.bind_eq_some_iff.mp hrest
  obtain ⟨⟨before, found⟩, -, hresult⟩ := Option.bind_eq_some_iff.mp hrest
  obtain ⟨rfl, -⟩ := Prod.mk.inj (Option.some.inj hresult)
  exact kept_unlock hlock

theorem replaceSection_cases {old : Option D}
    (hsection : replaceSection G ht key data a = some (ht', old)) :
    (old ≠ none ∧ Updated ht data ht') ∨ (old = none ∧ Inserted G ht key a ht') := by
  obtain ⟨ht₁, hlock, hlocked⟩ := Option.bind_eq_some_iff.mp hsection
  obtain ⟨c, hc, hchained⟩ := Option.bind_eq_some_iff.mp hlocked
  obtain ⟨⟨before, found⟩, hwalk, hrest⟩ := Option.bind_eq_some_iff.mp hchained
  obtain ⟨rfl, -⟩ := walk_cases hwalk
  cases found with
  | cons hr after =>
      obtain ⟨rfl, rfl⟩ := Prod.mk.inj (Option.some.inj hrest)
      obtain ⟨others, hnodes, hset⟩ := exists_nodes hc
      have hN := (hset (before ++ { hr with data := data } :: after)).trans
        (perm_middle_append before after others)
      obtain ⟨b, rfl⟩ := lockHash_cases hlock
      exact .inl ⟨by simp, hr, before ++ after ++ others,
        hnodes.trans (perm_middle_append before after others),
        ((Left.setChain hN).of_lock hlock).unlock⟩
  | nil =>
      obtain ⟨ht₂, hadd, hresult⟩ := Option.bind_eq_some_iff.mp hrest
      obtain ⟨rfl, rfl⟩ := Prod.mk.inj (Option.some.inj hresult)
      exact .inr ⟨rfl, (hashAddentry_cases hadd).of_lock hlock⟩

theorem deleteSection_cases {old : Option D} (hsection : deleteSection L ht key = some (ht', old)) :
    (old ≠ none ∧ Removed L ht key ht') ∨ (old = none ∧ Kept ht ht') := by
  obtain ⟨ht₁, hlock, hlocked⟩ := Option.bind_eq_some_iff.mp hsection
  obtain ⟨c, hc, hchained⟩ := Option.bind_eq_some_iff.mp hlocked
  obtain ⟨⟨before, found⟩, hwalk, hrest⟩ := Option.bind_eq_some_iff.mp hchained
  obtain ⟨rfl, hfound⟩ := walk_cases hwalk
  cases found with
  | cons hr after =>
      obtain ⟨mp, hgive, hresult⟩ := Option.bind_eq_some_iff.mp hrest
      obtain ⟨rfl, rfl⟩ := Prod.mk.inj (Option.some.inj hresult)
      obtain ⟨others, hnodes, hset⟩ := exists_nodes hc
      have hleft := (Left.setChain (hset (before ++ after))).of_lock hlock
      obtain ⟨b, rfl⟩ := lockHash_cases hlock
      refine .inl ⟨by simp, hr, before ++ after ++ others, mp,
        hnodes.trans (perm_middle_append before after others), hfound hr rfl, hgive, Left.unlock ?_⟩
      exact ⟨hleft.nodes, hleft.array, rfl, rfl, hleft.flags, hleft.addr, hleft.mpAddr⟩
  | nil =>
      obtain ⟨rfl, rfl⟩ := Prod.mk.inj (Option.some.inj hrest)
      exact .inr ⟨rfl, kept_unlock hlock⟩

/-! ## Resizing -/

/-- What `hash_rehash` leaves: the table as it is, its entries in another bucket array, or no
bucket array if it could not be allocated. -/
inductive Resized (ht : HashTable R D) (a : Alloc) (ht' : HashTable R D) : Prop
  | kept (h : Kept ht ht')
  | moved (addr : Address) (harray : ht.array = some addr) (halloc : a.buckets = true)
      (h : Left ht ht.nodes (some ht.malloc.next) ht.mp (ht.malloc.take.free (some addr)) ht')
  | lost (addr : Address) (harray : ht.array = some addr) (halloc : a.buckets = false)
      (hnodes : ht.nodes = [])
      (h : Left ht ht.nodes none ht.mp (ht.malloc.free (some addr)) ht')

/-- The loops move every entry. -/
theorem moveEntries_cases {ns : ℕ} {addr : Address} {bs : List (List (HashEntry D))}
    {nb : Option (Address × List (List (HashEntry D)))} {c : List (HashEntry D)}
    (hfold : c.foldlM (moveEntry ht ns) (some (addr, bs)) = some nb) :
    ∃ bs', nb = some (addr, bs') ∧ bs'.flatten.Perm (c ++ bs.flatten) := by
  induction c generalizing bs with
  | nil =>
      obtain rfl := Option.some.inj hfold
      exact ⟨bs, rfl, .refl _⟩
  | cons he c ih =>
      rw [List.foldlM_cons] at hfold
      obtain ⟨nb₁, hmove, hrest⟩ := Option.bind_eq_some_iff.mp hfold
      obtain ⟨k, -, hkeyed⟩ := Option.bind_eq_some_iff.mp hmove
      obtain ⟨d, hget, hresult⟩ := Option.bind_eq_some_iff.mp hkeyed
      obtain rfl := Option.some.inj hresult
      obtain ⟨bs', hnb, hperm⟩ := ih hrest
      obtain ⟨others, hbs, hset⟩ := exists_others hget
      refine ⟨bs', hnb, hperm.trans ?_⟩
      calc (c ++ (bs.set (hashValue ht k.bytes ns) (he :: d)).flatten).Perm
            (c ++ (he :: bs.flatten)) :=
            ((hset (he :: d)).trans (hbs.symm.cons he)).append_left c
        _ |>.Perm (he :: (c ++ bs.flatten)) := List.perm_middle

/-- Without a new bucket array they end only if there are no entries. -/
theorem moveEntries_none {ns : ℕ} {nb : Option (Address × List (List (HashEntry D)))}
    {c : List (HashEntry D)} (hfold : c.foldlM (moveEntry ht ns) none = some nb) :
    c = [] ∧ nb = none := by
  cases c with
  | nil => exact ⟨rfl, (Option.some.inj hfold).symm⟩
  | cons he c =>
      rw [List.foldlM_cons] at hfold
      obtain ⟨nb₁, hmove, -⟩ := Option.bind_eq_some_iff.mp hfold
      cases hmove

theorem Resized.of_lock (hlock : ht.lockHash = some ht₁) (h : Resized ht₁ a ht') :
    Resized ht a ht'.unlockHash := by
  obtain ⟨b, rfl⟩ := lockHash_cases hlock
  cases h with
  | kept h => exact .kept (h.of_lock hlock).unlock
  | moved addr harray halloc h => exact .moved addr harray halloc (h.of_lock hlock).unlock
  | lost addr harray halloc hnodes h =>
      exact .lost addr harray halloc hnodes (h.of_lock hlock).unlock

theorem hashRehash_cases [FloatOps R] (hrehash : hashRehash ht a = some ht') :
    Resized ht a ht' := by
  obtain ⟨ht₁, hlock, hlocked⟩ := Option.bind_eq_some_iff.mp hrehash
  obtain ⟨s, -, htarget⟩ := Option.bind_eq_some_iff.mp hlocked
  obtain ⟨ns, -, hsized⟩ := Option.bind_eq_some_iff.mp htarget
  dsimp only at hsized
  split_ifs at hsized with hsize halloc
  · obtain rfl := Option.some.inj hsized
    exact (Resized.kept (Left.refl ht₁)).of_lock hlock
  all_goals
    obtain ⟨⟨addr, bs⟩, hbuckets, hfolded⟩ := Option.bind_eq_some_iff.mp hsized
    obtain ⟨nb, hfold, hresult⟩ := Option.bind_eq_some_iff.mp hfolded
    obtain rfl := Option.some.inj hresult
    have harray : ht₁.array = some addr := by rw [HashTable.array, hbuckets, Option.map_some]
    have hnodes : ht₁.nodes = bs.flatten := by
      rw [nodes, chains, hbuckets]
      rfl
    refine Resized.of_lock hlock ?_
  · obtain ⟨bs', rfl, hperm⟩ := moveEntries_cases hfold
    refine .moved addr harray halloc ⟨?_, rfl, rfl, rfl, rfl, rfl, rfl⟩
    rw [List.flatten_replicate_nil, List.append_nil] at hperm
    rw [hnodes]
    exact hperm
  · obtain ⟨hnone, rfl⟩ := moveEntries_none hfold
    have hempty : ht₁.nodes = [] := hnodes.trans hnone
    refine .lost addr harray (by simpa using halloc) hempty ⟨?_, rfl, rfl, rfl, rfl, rfl, rfl⟩
    rw [hempty]
    exact .refl _

theorem rehashIf_cases [FloatOps R] {b : Bool} (hrehash : rehashIf b ht a = some ht') :
    Resized ht a ht' := by
  cases b with
  | false =>
      obtain rfl := Option.some.inj hrehash
      exact .kept (Left.refl ht)
  | true => exact hashRehash_cases hrehash

/-- The entries stay, whatever becomes of the bucket array. -/
theorem Resized.nodes (h : Resized ht a ht') : ht'.nodes.Perm ht.nodes := by
  cases h with
  | kept hleft => exact hleft.nodes
  | moved addr harray halloc hleft => exact hleft.nodes
  | lost addr harray halloc hnodes hleft => exact hleft.nodes

/-! ## Lists of keys -/

/-- Blocks have been given out, but none for the key of an entry, and none is given back. -/
structure Malloc.Grown (m m' : Malloc) : Prop where
  count : m.count ≤ m'.count
  copied : m'.copied = m.copied
  freed : m'.freed = m.freed

theorem Malloc.Grown.refl (m : Malloc) : m.Grown m := ⟨le_rfl, rfl, rfl⟩

theorem Malloc.Grown.trans {m m' m'' : Malloc} (h : m.Grown m') (h' : m'.Grown m'') : m.Grown m'' :=
  ⟨h.count.trans h'.count, h'.copied.trans h.copied, h'.freed.trans h.freed⟩

theorem Malloc.grown_take (m : Malloc) : m.Grown m.take := ⟨Nat.le_succ _, rfl, rfl⟩

theorem hashKdup_cases (succeeds : Bool) (key : Key) (m : Malloc) :
    m.Grown (hashKdup succeeds key m).2 := by
  cases succeeds with
  | false => exact .refl m
  | true => exact m.grown_take

theorem copyKeys_cases {j : ℕ} {c : List (HashEntry D)} {m m' : Malloc} {ks : List (Option Key)}
    (hcopy : copyKeys a j c m = some (ks, m')) : m.Grown m' := by
  induction c generalizing j m ks with
  | nil =>
      obtain ⟨-, rfl⟩ := Prod.mk.inj (Option.some.inj hcopy)
      exact .refl m
  | cons he c ih =>
      obtain ⟨k, -, hkeyed⟩ := Option.bind_eq_some_iff.mp hcopy
      obtain ⟨⟨ks', m''⟩, hcopy', hresult⟩ := Option.bind_eq_some_iff.mp hkeyed
      obtain ⟨-, rfl⟩ := Prod.mk.inj (Option.some.inj hresult)
      exact (hashKdup_cases _ k m).trans (ih hcopy')

theorem keyArray_cases {fast : Bool} {c : List (HashEntry D)} {m m' : Malloc}
    {ks : List (Option Key)} (hkeys : keyArray fast a c m = some (ks, m')) : m.Grown m' := by
  rw [keyArray] at hkeys
  split_ifs at hkeys
  · obtain ⟨-, rfl⟩ := Prod.mk.inj (Option.some.inj hkeys)
    exact .refl m
  · exact copyKeys_cases hkeys

theorem hashKeys_cases {fast : Bool} {result : KeysResult}
    (hkeys : hashKeys ht fast a = some (ht', result)) :
    ∃ m, ht.malloc.Grown m ∧ Left ht ht.nodes ht.array ht.mp m ht' := by
  rw [hashKeys] at hkeys
  split_ifs at hkeys
  · obtain ⟨rfl, -⟩ := Prod.mk.inj (Option.some.inj hkeys)
    exact ⟨ht.malloc, .refl _, .refl ht⟩
  obtain ⟨ht₁, hlock, hlocked⟩ := Option.bind_eq_some_iff.mp hkeys
  split_ifs at hlocked
  · obtain ⟨rfl, -⟩ := Prod.mk.inj (Option.some.inj hlocked)
    obtain ⟨b, rfl⟩ := lockHash_cases hlock
    exact ⟨ht.malloc, .refl _, (Left.refl _).of_lock hlock⟩
  obtain ⟨⟨addr, bs⟩, -, hbuckets⟩ := Option.bind_eq_some_iff.mp hlocked
  dsimp only at hbuckets
  split_ifs at hbuckets
  obtain ⟨⟨ks, m⟩, harray, hresult⟩ := Option.bind_eq_some_iff.mp hbuckets
  obtain ⟨rfl, -⟩ := Prod.mk.inj (Option.some.inj hresult)
  have hgrown := (Malloc.grown_take _).trans (keyArray_cases harray)
  obtain ⟨b, rfl⟩ := lockHash_cases hlock
  exact ⟨m, hgrown, Left.unlock ⟨.refl _, rfl, rfl, rfl, rfl, rfl, rfl⟩⟩

/-! ## Calls -/

/-- What a call does before it may resize. -/
inductive Change (G : Geometry L) (ht : HashTable R D) (a : Alloc) :
    Op R D → HashTable R D → Prop
  | grown {op : Op R D} {ht' : HashTable R D} (m : Malloc) (hgrown : ht.malloc.Grown m)
      (h : Left ht ht.nodes ht.array ht.mp m ht') : Change G ht a op ht'
  | inserted {op : Op R D} {ht' : HashTable R D} (arg : KeyArg) (key : Key)
      (harg : op.arg = some arg) (hkey : key ∈ arg.resolve) (h : Inserted G ht key a ht') :
      Change G ht a op ht'
  | updated {op : Op R D} {ht' : HashTable R D} (data : D) (h : Updated ht data ht') :
      Change G ht a op ht'
  | removed {ht' : HashTable R D} (arg : KeyArg) (key : Key) (hkey : key ∈ arg.resolve)
      (h : Removed L ht key ht') : Change G ht a (.delete arg) ht'
  | flagged {op : Op R D} {ht' : HashTable R D} (flags : BitVec 32)
      (h : Kept { ht with flags := flags } ht') : Change G ht a op ht'

theorem Kept.change {op : Op R D} (h : Kept ht ht') : Change G ht a op ht' :=
  .grown ht.malloc (.refl _) h

theorem writeFlags_cases {flags : BitVec 32 → BitVec 32} (hwrite : writeFlags ht flags = some ht') :
    ∃ f, Kept { ht with flags := f } ht' := by
  obtain ⟨ht₁, hlock, hresult⟩ := Option.bind_eq_some_iff.mp hwrite
  obtain rfl := Option.some.inj hresult
  obtain ⟨b, rfl⟩ := lockHash_cases hlock
  exact ⟨flags ht.flags, Left.unlock ⟨.refl _, rfl, rfl, rfl, rfl, rfl, rfl⟩⟩

theorem hashSetthresholds_cases [FloatOps R] (ht : HashTable R D) (low high : R) :
    Kept ht (hashSetthresholds ht low high).1 := by
  rw [hashSetthresholds]
  generalize (if FloatOps.lt high FloatOps.zero then ht.highMark else high) = highMark
  generalize (if FloatOps.lt low FloatOps.zero then ht.lowMark else low) = lowMark
  split_ifs
  · exact .refl ht
  · exact ⟨.refl _, rfl, rfl, rfl, rfl, rfl, rfl⟩

section Insertions

variable [FloatOps R]

/-- A search, cut into its section and the load test after it. -/
theorem perform_search_cases {arg : KeyArg} {reply : Reply D}
    (hperform : perform G ht a (.search arg data) = some (ht', reply)) :
    ∃ key ht₁ hf written, arg.resolve = some key ∧
      searchSection G ht key data a = some (ht₁, hf, written) ∧
      rehashIf (hf && crowded ht₁) ht₁ a = some ht' ∧ reply = .value hf.toInt (some written) := by
  obtain ⟨key, hkey, hcall⟩ := Option.bind_eq_some_iff.mp hperform
  obtain ⟨⟨ht₂, hf, written⟩, hsearch, hresult⟩ := Option.bind_eq_some_iff.mp hcall
  obtain ⟨rfl, rfl⟩ := Prod.mk.inj (Option.some.inj hresult)
  obtain ⟨⟨ht₁, hf', written'⟩, hsection, hrest⟩ := Option.bind_eq_some_iff.mp hsearch
  obtain ⟨ht₃, hrehash, hresult⟩ := Option.bind_eq_some_iff.mp hrest
  obtain ⟨rfl, hpair⟩ := Prod.mk.inj (Option.some.inj hresult)
  obtain ⟨rfl, rfl⟩ := Prod.mk.inj hpair
  exact ⟨key, ht₁, hf', written', hkey, hsection, hrehash, rfl⟩

theorem perform_replace_cases {arg : KeyArg} {reply : Reply D}
    (hperform : perform G ht a (.replace arg data) = some (ht', reply)) :
    ∃ key ht₁ old, arg.resolve = some key ∧ replaceSection G ht key data a = some (ht₁, old) ∧
      rehashIf (old.isNone && crowded ht₁) ht₁ a = some ht' ∧
      reply = .value old.isNone.toInt old := by
  obtain ⟨key, hkey, hcall⟩ := Option.bind_eq_some_iff.mp hperform
  obtain ⟨⟨ht₂, old⟩, hreplace, hresult⟩ := Option.bind_eq_some_iff.mp hcall
  obtain ⟨rfl, rfl⟩ := Prod.mk.inj (Option.some.inj hresult)
  obtain ⟨⟨ht₁, old'⟩, hsection, hrest⟩ := Option.bind_eq_some_iff.mp hreplace
  obtain ⟨ht₃, hrehash, hresult⟩ := Option.bind_eq_some_iff.mp hrest
  obtain ⟨rfl, rfl⟩ := Prod.mk.inj (Option.some.inj hresult)
  exact ⟨key, ht₁, old', hkey, hsection, hrehash, rfl⟩

theorem perform_delete_cases {arg : KeyArg} {reply : Reply D}
    (hperform : perform G ht a (.delete arg : Op R D) = some (ht', reply)) :
    ∃ key ht₁ old, arg.resolve = some key ∧ deleteSection L ht key = some (ht₁, old) ∧
      rehashIf (old.isNone && sparse ht₁) ht₁ a = some ht' ∧
      reply = .value old.isNone.toInt old := by
  obtain ⟨key, hkey, hcall⟩ := Option.bind_eq_some_iff.mp hperform
  obtain ⟨⟨ht₂, old⟩, hdelete, hresult⟩ := Option.bind_eq_some_iff.mp hcall
  obtain ⟨rfl, rfl⟩ := Prod.mk.inj (Option.some.inj hresult)
  obtain ⟨⟨ht₁, old'⟩, hsection, hrest⟩ := Option.bind_eq_some_iff.mp hdelete
  obtain ⟨ht₃, hrehash, hresult⟩ := Option.bind_eq_some_iff.mp hrest
  obtain ⟨rfl, rfl⟩ := Prod.mk.inj (Option.some.inj hresult)
  exact ⟨key, ht₁, old', hkey, hsection, hrehash, rfl⟩

end Insertions

/-- Every call that ends does one such thing, and then it may resize. -/
theorem perform_cases [FloatOps R] {op : Op R D} {reply : Reply D}
    (hperform : perform G ht a op = some (ht', reply)) :
    ∃ ht₁, Change G ht a op ht₁ ∧ Resized ht₁ a ht' := by
  cases op with
  | search arg data =>
      obtain ⟨key, ht₁, hf, written, hkey, hsection, hrehash, -⟩ := perform_search_cases hperform
      have hresized := rehashIf_cases hrehash
      rcases searchSection_cases hsection with ⟨-, h⟩ | ⟨-, h⟩
      · exact ⟨ht₁, Kept.change h, hresized⟩
      · exact ⟨ht₁, .inserted arg key rfl hkey h, hresized⟩
  | find arg =>
      obtain ⟨key, -, hfind⟩ := Option.bind_eq_some_iff.mp hperform
      obtain ⟨⟨ht₁, found⟩, hsection, hresult⟩ := Option.bind_eq_some_iff.mp hfind
      obtain ⟨rfl, -⟩ := Prod.mk.inj (Option.some.inj hresult)
      exact ⟨ht₁, Kept.change (findSection_cases hsection), .kept (.refl ht₁)⟩
  | replace arg data =>
      obtain ⟨key, ht₁, old, hkey, hsection, hrehash, -⟩ := perform_replace_cases hperform
      have hresized := rehashIf_cases hrehash
      rcases replaceSection_cases hsection with ⟨-, h⟩ | ⟨-, h⟩
      · exact ⟨ht₁, .updated data h, hresized⟩
      · exact ⟨ht₁, .inserted arg key rfl hkey h, hresized⟩
  | delete arg =>
      obtain ⟨key, ht₁, old, hkey, hsection, hrehash, -⟩ := perform_delete_cases hperform
      have hresized := rehashIf_cases hrehash
      rcases deleteSection_cases hsection with ⟨-, h⟩ | ⟨-, h⟩
      · exact ⟨ht₁, .removed arg key hkey h, hresized⟩
      · exact ⟨ht₁, Kept.change h, hresized⟩
  | rehash =>
      obtain ⟨ht₁, hrehash, hresult⟩ := Option.bind_eq_some_iff.mp hperform
      obtain ⟨rfl, -⟩ := Prod.mk.inj (Option.some.inj hresult)
      exact ⟨ht, Kept.change (.refl ht), hashRehash_cases hrehash⟩
  | keys fast =>
      obtain ⟨⟨ht₁, result⟩, hkeys, hresult⟩ := Option.bind_eq_some_iff.mp hperform
      obtain ⟨rfl, -⟩ := Prod.mk.inj (Option.some.inj hresult)
      obtain ⟨m, hgrown, h⟩ := hashKeys_cases hkeys
      exact ⟨ht₁, .grown m hgrown h, .kept (.refl ht₁)⟩
  | sethashfunction hf =>
      rw [perform, hashSethashfunction] at hperform
      refine ⟨ht', Kept.change ?_, .kept (.refl ht')⟩
      split_ifs at hperform
      · obtain ⟨rfl, -⟩ := Prod.mk.inj (Option.some.inj hperform)
        exact .refl ht
      · obtain ⟨rfl, -⟩ := Prod.mk.inj (Option.some.inj hperform)
        exact ⟨.refl _, rfl, rfl, rfl, rfl, rfl, rfl⟩
  | setthresholds low high =>
      obtain ⟨rfl, -⟩ := Prod.mk.inj (Option.some.inj hperform)
      exact ⟨_, Kept.change (hashSetthresholds_cases ht low high), .kept (.refl _)⟩
  | setflags _ | setflag _ | clearflag _ =>
      obtain ⟨ht₁, hwrite, hresult⟩ := Option.bind_eq_some_iff.mp hperform
      obtain ⟨rfl, -⟩ := Prod.mk.inj (Option.some.inj hresult)
      obtain ⟨f, h⟩ := writeFlags_cases hwrite
      exact ⟨ht₁, .flagged f h, .kept (.refl ht₁)⟩

/-! ## `hash_destroy` -/

/-- The keys of entries. -/
def keyPtrs (N : List (HashEntry D)) : List Address := N.filterMap fun he => he.key.map Key.ptr

/-- What the loops have done to all entries. -/
theorem destroyEntries_cases {nocopy hf : Bool} {c : List (HashEntry D)} {w w' : Destroyed D}
    (hfold : c.foldlM (destroyEntry L nocopy hf) w = some w') :
    w'.released = w.released ++ (if hf then c.map HashEntry.data else []) ∧
      w'.malloc = { w.malloc with freed := w.malloc.freed ++
        if nocopy then [] else keyPtrs c } := by
  induction c generalizing w with
  | nil =>
      obtain rfl := Option.some.inj hfold
      simp [keyPtrs]
  | cons he c ih =>
      rw [List.foldlM_cons] at hfold
      obtain ⟨w₁, hentry, hrest⟩ := Option.bind_eq_some_iff.mp hfold
      obtain ⟨mp, -, hresult⟩ := Option.bind_eq_some_iff.mp hentry
      obtain rfl := Option.some.inj hresult
      obtain ⟨hreleased, hmalloc⟩ := ih hrest
      refine ⟨?_, ?_⟩
      · rw [hreleased]
        cases hf <;> simp
      · rw [hmalloc]
        cases nocopy with
        | true => simp
        | false => cases hkey : he.key <;> simp [Malloc.free, keyPtrs, hkey]

/-- `hash_destroy` calls the release function for every entry, and gives back the keys, the
bucket array, the pool and the table. -/
theorem hashDestroy_cases {hf : Bool} {w : Destroyed D} (hdestroy : hashDestroy L ht hf = some w) :
    ∃ addr, ht.array = some addr ∧
      w.released = (if hf then ht.nodes.map HashEntry.data else []) ∧
      w.malloc = { ht.malloc with freed := ht.malloc.freed ++
        ((if ht.nocopy then [] else keyPtrs ht.nodes) ++ [addr, ht.mpAddr, ht.addr]) } := by
  obtain ⟨⟨addr, bs⟩, hbuckets, hfolded⟩ := Option.bind_eq_some_iff.mp hdestroy
  obtain ⟨w₁, hfold, hresult⟩ := Option.bind_eq_some_iff.mp hfolded
  obtain rfl := Option.some.inj hresult
  obtain ⟨hreleased, hmalloc⟩ := destroyEntries_cases hfold
  have hnodes : ht.nodes = bs.flatten := by
    rw [nodes, chains, hbuckets]
    rfl
  refine ⟨addr, by rw [HashTable.array, hbuckets, Option.map_some], ?_, ?_⟩
  · rw [hnodes]
    simpa using hreleased
  · rw [hnodes]
    simp [Malloc.free, hmalloc]

end ThreeW3.Hash
