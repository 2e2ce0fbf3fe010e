/-
# When allocations fail

A call whose allocations fail should do all that it does or nothing, and give back the lock.
The allocations whose failure the code does not answer are the copy of a key at an
insertion, the bucket array of a resizing, and the key array of a listing under the lock.
A call is atomic exactly if those that it makes succeed.
-/

import ThreeW3.Hash.Changes

namespace ThreeW3.Hash

open ThreeW3.Lib ThreeW3.Pool HashTable

variable {R D : Type} {L : Layout} {G : Geometry L} {ht ht₁ ht' : HashTable R D} {key : Key}
  {data : D} {a : Alloc} {op : Op R D}

/-! ## Which allocations matter -/

/-- No entry has the key. -/
def HashTable.Lacks (ht : HashTable R D) (key : List UInt8) : Prop :=
  ∀ he ∈ ht.nodes, he.bytes ≠ key

/-- What an insertion counts before its load test. -/
def HashTable.counted (ht : HashTable R D) : HashTable R D := { ht with entries := ht.entries + 1 }

section Conditions

variable [FloatOps R]

/-- The allocations of an insertion succeed. -/
structure InsertionBacked (ht : HashTable R D) (a : Alloc) : Prop where
  key : ht.nocopy = false → a.key = true
  buckets : (crowded ht.counted && resizes ht.counted) = true → a.buckets = true

/-- The allocations that the call makes and does not test succeed. -/
def Op.Backed (ht : HashTable R D) (a : Alloc) : Op R D → Prop
  | .search arg _ => ∀ key ∈ arg.resolve, ht.Lacks key.bytes → InsertionBacked ht a
  | .replace arg _ => ∀ key ∈ arg.resolve, ht.Lacks key.bytes → InsertionBacked ht a
  | .delete arg => ∀ key ∈ arg.resolve, ht.Lacks key.bytes →
      (sparse ht && resizes ht) = true → a.buckets = true
  | .rehash => resizes ht = true → a.buckets = true
  | .keys _ => ht.entries ≠ 0 → ht.locking = true → a.keys = true
  | _ => True

/-- The size that the call computes, if it does, is one that `hash_size` can reach. -/
def Op.Reaches (ht : HashTable R D) : Op R D → Prop
  | .search arg _ => ∀ key ∈ arg.resolve, ht.Lacks key.bytes → crowded ht.counted = true →
      RehashOk ht.counted
  | .replace arg _ => ∀ key ∈ arg.resolve, ht.Lacks key.bytes → crowded ht.counted = true →
      RehashOk ht.counted
  | .delete arg => ∀ key ∈ arg.resolve, ht.Lacks key.bytes → sparse ht = true → RehashOk ht
  | .rehash => RehashOk ht
  | _ => True

/-- A deletion does not empty a stale head of the pool. -/
def Op.Orderly (L : Layout) (ht : HashTable R D) : Op R D → Prop
  | .delete arg => ∀ key ∈ arg.resolve, ht.Orderly L key.bytes
  | _ => True

/-- mmap(2) gives a page that is not in use, and the key can be read. -/
structure Serves (L : Layout) (ht : HashTable R D) (a : Alloc) (op : Op R D) : Prop where
  page : a.Maps L ht
  reads : ∀ arg ∈ op.arg, ht.Reads arg

/-- What a call should leave: the lock as it was, all of its effect or none, every entry with
its key, and a bucket array. -/
structure Effect (ht : HashTable R D) (op : Op R D) (ht' : HashTable R D) (reply : Reply D) :
    Prop where
  lock : ht'.locked = ht.locked
  whole : (ht'.Shape ∧ MapSpec ht.contents op reply ht'.contents) ∨
    (ht'.contents = ht.contents ∧ ht'.size = ht.size ∧ ht'.entries = ht.entries)
  keys : ∀ he ∈ ht'.nodes, he.key ≠ none
  buckets : ht'.buckets ≠ none

/-- Whenever the call returns it has left what it should, and it returns unless it makes
`hash_size` loop for ever. -/
structure Atomic (G : Geometry L) (ht : HashTable R D) (a : Alloc) (op : Op R D) : Prop where
  effect : ∀ ht' reply, perform G ht a op = some (ht', reply) → Effect ht op ht' reply
  returns : op.Reaches ht → perform G ht a op ≠ none

/-- A table and its calls, whose allocations may fail. -/
def server (G : Geometry L) (ht : HashTable R D) : Machine (HashTable R D) (Op R D × Alloc) where
  init := ht
  enabled ht call := Serves L ht call.2 call.1
  step ht call := (perform G ht call.2 call.1).map Prod.fst

instance decidableLacks (ht : HashTable R D) (b : List UInt8) : Decidable (ht.Lacks b) :=
  inferInstanceAs (Decidable (∀ he ∈ ht.nodes, he.bytes ≠ b))

instance decidableInsertionBacked (ht : HashTable R D) (a : Alloc) :
    Decidable (InsertionBacked ht a) :=
  decidable_of_iff ((ht.nocopy = false → a.key = true) ∧
      ((crowded ht.counted && resizes ht.counted) = true → a.buckets = true))
    ⟨fun ⟨hkey, hbuckets⟩ => ⟨hkey, hbuckets⟩, fun h => ⟨h.key, h.buckets⟩⟩

instance decidableBacked (ht : HashTable R D) (a : Alloc) :
    (op : Op R D) → Decidable (op.Backed ht a)
  | .search arg _ | .replace arg _ =>
      inferInstanceAs (Decidable (∀ key ∈ arg.resolve, ht.Lacks key.bytes → InsertionBacked ht a))
  | .delete arg =>
      inferInstanceAs (Decidable (∀ key ∈ arg.resolve, ht.Lacks key.bytes →
        (sparse ht && resizes ht) = true → a.buckets = true))
  | .rehash => inferInstanceAs (Decidable (resizes ht = true → a.buckets = true))
  | .keys _ =>
      inferInstanceAs (Decidable (ht.entries ≠ 0 → ht.locking = true → a.keys = true))
  | .find _ | .sethashfunction _ | .setthresholds _ _ | .setflags _ | .setflag _ | .clearflag _ =>
      isTrue trivial

instance decidableOpOrderly (ht : HashTable R D) : (op : Op R D) → Decidable (op.Orderly L ht)
  | .delete arg => inferInstanceAs (Decidable (∀ key ∈ arg.resolve, ht.Orderly L key.bytes))
  | .search _ _ | .find _ | .replace _ _ | .rehash | .keys _ | .sethashfunction _
  | .setthresholds _ _ | .setflags _ | .setflag _ | .clearflag _ => isTrue trivial

instance decidableServes (ht : HashTable R D) (a : Alloc) (op : Op R D) :
    Decidable (Serves L ht a op) :=
  decidable_of_iff (a.Maps L ht ∧ ∀ arg ∈ op.arg, ht.Reads arg)
    ⟨fun ⟨hpage, hreads⟩ => ⟨hpage, hreads⟩, fun h => ⟨h.page, h.reads⟩⟩

instance decidableServerEnabled (ht₀ ht : HashTable R D) (call : Op R D × Alloc) :
    Decidable ((server G ht₀).enabled ht call) :=
  inferInstanceAs (Decidable (Serves L ht call.2 call.1))

end Conditions

theorem lacks_iff {b : List UInt8} : ht.Lacks b ↔ b ∉ ht.contents := by
  rw [contents, mem_asMap, Lacks]
  simp only [not_exists, not_and, ne_eq]

/-! ## The load tests -/

/-- What the load tests and the size of a resizing depend on. -/
structure SameLoad (ht ht' : HashTable R D) : Prop where
  entries : ht'.entries = ht.entries
  size : ht'.size = ht.size
  flags : ht'.flags = ht.flags
  highMark : ht'.highMark = ht.highMark
  lowMark : ht'.lowMark = ht.lowMark

section Load

variable [FloatOps R]

theorem SameLoad.crowded (h : SameLoad ht ht') : crowded ht' = crowded ht := by
  rw [Hash.crowded, Hash.crowded, loadFactor, loadFactor, frozen, frozen, h.entries, h.size,
    h.flags, h.highMark]

theorem SameLoad.rehashTarget (h : SameLoad ht ht') : rehashTarget ht' = rehashTarget ht := by
  rw [Hash.rehashTarget, Hash.rehashTarget, h.entries, h.highMark, h.lowMark]

theorem SameLoad.resizes (h : SameLoad ht ht') : resizes ht' = resizes ht := by
  rw [Hash.resizes, Hash.resizes, h.rehashTarget, h.size]

theorem SameLoad.rehashOk (h : SameLoad ht ht') : RehashOk ht' ↔ RehashOk ht := by
  rw [RehashOk, RehashOk, h.rehashTarget]

end Load

theorem SameLoad.unlock (h : SameLoad ht ht') : SameLoad ht ht'.unlockHash := by
  obtain ⟨b, hb⟩ := unlockHash_cases ht'
  rw [hb]
  exact ⟨h.entries, h.size, h.flags, h.highMark, h.lowMark⟩

theorem SameLoad.of_lock (hlock : ht.lockHash = some ht₁) (h : SameLoad ht₁.counted ht') :
    SameLoad ht.counted ht' := by
  obtain ⟨b, rfl⟩ := lockHash_cases hlock
  exact ⟨h.entries, h.size, h.flags, h.highMark, h.lowMark⟩

theorem hashAddentry_load {hv : ℕ} (hadd : hashAddentry G ht hv key data a = some ht') :
    SameLoad ht.counted ht' ∧ ht'.locked = ht.locked ∧ ht'.locking = ht.locking := by
  obtain ⟨⟨mp, addr⟩, -, hrest⟩ := Option.bind_eq_some_iff.mp hadd
  obtain ⟨c, -, hresult⟩ := Option.bind_eq_some_iff.mp hrest
  obtain rfl := Option.some.inj hresult
  exact ⟨⟨rfl, rfl, rfl, rfl, rfl⟩, rfl, rfl⟩

/-! ## An insertion that returns -/

/-- What an insertion leaves before its load test. -/
structure Entered (G : Geometry L) (ht : HashTable R D) (key : Key) (a : Alloc)
    (ht' : HashTable R D) : Prop where
  inserted : Inserted G ht key a ht'
  load : SameLoad ht.counted ht'
  free : ht'.locked = false

/-- The pool gives a chunk, so an entry is made whether or not its key could be copied. -/
theorem hashAddentry_returns (key : Key) (data : D) (h : ht.Shape) {mp : State} {p : ℕ}
    (hget : mempoolGet G a.page ht.mp = some (mp, p)) :
    ∃ ht', hashAddentry G ht (hashValue ht key.bytes ht.size) key data a = some ht' := by
  obtain ⟨c, hc⟩ := h.exists_chain key.bytes
  simp only [hashAddentry, hget, hc, Option.bind_eq_bind, Option.bind_some]
  exact ⟨_, rfl⟩

/-- The end of an insertion under the lock. -/
theorem entered_unlock (hfree : ht.locked = false) {hv : ℕ}
    (hadd : hashAddentry G { ht with locked := ht.locking } hv key data a = some ht') :
    Entered G ht key a ht'.unlockHash := by
  obtain ⟨hload, hlocked, hlocking⟩ := hashAddentry_load hadd
  refine ⟨(hashAddentry_cases hadd).of_lock (lockHash_eq hfree), ?_, ?_⟩
  · exact (hload.of_lock (lockHash_eq hfree)).unlock
  · rw [unlockHash_eq (hlocked.trans hlocking.symm)]

theorem searchSection_enters (data : D) (h : ht.Ok G) (hfree : ht.locked = false)
    (hkey : ht.Unmutated key) (hlacks : ht.Lacks key.bytes) (hpage : a.Maps L ht) :
    ∃ ht', searchSection G ht key data a = some (ht', true, data) ∧ Entered G ht key a ht' := by
  have h₁ := h.toShape.relock ht.locking
  obtain ⟨c, hc, hwalk⟩ := h₁.look_missing hkey (lacks_iff.mp hlacks)
  obtain ⟨mp, p, hget, -⟩ := h.exists_get hpage
  obtain ⟨ht', hadd⟩ := hashAddentry_returns key data h₁ hget
  refine ⟨ht'.unlockHash, ?_, entered_unlock hfree hadd⟩
  rw [searchSection, lockHash_eq hfree]
  simp only [hc, hwalk, hadd, Option.bind_eq_bind, Option.bind_some]

theorem replaceSection_enters (data : D) (h : ht.Ok G) (hfree : ht.locked = false)
    (hkey : ht.Unmutated key) (hlacks : ht.Lacks key.bytes) (hpage : a.Maps L ht) :
    ∃ ht', replaceSection G ht key data a = some (ht', none) ∧ Entered G ht key a ht' := by
  obtain ⟨ht', hsection, hentered⟩ := searchSection_enters data h hfree hkey hlacks hpage
  refine ⟨ht', ?_, hentered⟩
  rw [replaceSection_of_missing data h.toShape hfree hkey (lacks_iff.mp hlacks), hsection,
    Option.map_some]

/-! ## A resizing that fails -/

section Resizing

variable [FloatOps R]

/-- Without a new bucket array there is none left. -/
theorem hashRehash_lost (hresizes : resizes ht = true) (ha : a.buckets = false)
    (hrehash : hashRehash ht a = some ht') : ht'.buckets = none := by
  obtain ⟨ht₁, hlock, hlocked⟩ := Option.bind_eq_some_iff.mp hrehash
  obtain ⟨s, hs, htarget⟩ := Option.bind_eq_some_iff.mp hlocked
  obtain ⟨ns, hns, hsized⟩ := Option.bind_eq_some_iff.mp htarget
  have hne : ns.toNat ≠ ht₁.size := by
    obtain ⟨b, rfl⟩ := lockHash_cases hlock
    have hs' : rehashTarget ht = some s := hs
    simpa [resizes, hs', hns] using hresizes
  simp only [if_neg hne, ha, Bool.false_eq_true, if_false] at hsized
  obtain ⟨⟨addr, bs⟩, hbuckets, hfolded⟩ := Option.bind_eq_some_iff.mp hsized
  obtain ⟨nb, hfold, hresult⟩ := Option.bind_eq_some_iff.mp hfolded
  obtain ⟨-, rfl⟩ := moveEntries_none hfold
  obtain rfl := Option.some.inj hresult
  obtain ⟨b, hb⟩ := unlockHash_cases ({ ht₁ with
    size := ns.toNat, malloc := ht₁.malloc.free (some addr), buckets := none } : HashTable R D)
  rw [hb]

/-- A size that `hash_size` cannot reach. -/
theorem hashRehash_diverges (hfree : ht.locked = false) (htarget : ¬ RehashOk ht) :
    hashRehash ht a = none := by
  rw [hashRehash, lockHash_eq hfree]
  cases hs : rehashTarget ht with
  | none =>
      have hs' : rehashTarget { ht with locked := ht.locking } = none := hs
      simp only [hs', Option.bind_eq_bind, Option.bind_some, Option.bind_none]
  | some s =>
      have hs' : rehashTarget { ht with locked := ht.locking } = some s := hs
      have hlarge : 2 ^ 31 < s.toNat := by
        by_contra hle
        exact htarget ⟨s, hs, Nat.le_of_not_lt hle⟩
      have hnone : hashSize s = none := hashSizeLoop_none hlarge (j := 0) rfl 33
      simp only [hs', hnone, Option.bind_eq_bind, Option.bind_some, Option.bind_none]

/-- An insertion with a failed allocation leaves an entry without a key, or no bucket array. -/
theorem Entered.broken (h : Entered G ht key a ht₁) (hunbacked : ¬ InsertionBacked ht a)
    (hrehash : rehashIf (crowded ht₁) ht₁ a = some ht') :
    (∃ he ∈ ht'.nodes, he.key = none) ∨ ht'.buckets = none := by
  by_cases hcopy : ht.nocopy = false → a.key = true
  · right
    have hlost : ¬ ((crowded ht.counted && resizes ht.counted) = true → a.buckets = true) :=
      fun hbuckets => hunbacked ⟨hcopy, hbuckets⟩
    rw [Classical.not_imp, Bool.and_eq_true, Bool.not_eq_true] at hlost
    obtain ⟨⟨hcrowded, hresizes⟩, hfail⟩ := hlost
    rw [h.load.crowded, hcrowded] at hrehash
    exact hashRehash_lost (h.load.resizes.trans hresizes) hfail hrehash
  · left
    rw [Classical.not_imp, Bool.not_eq_true] at hcopy
    obtain ⟨he, mp, -, hkey, hleft⟩ := h.inserted
    refine ⟨he, ?_, ?_⟩
    · rw [(rehashIf_cases hrehash).nodes.mem_iff, hleft.nodes.mem_iff]
      exact List.mem_cons_self
    · rw [hkey, entryKey, hcopy.1, hcopy.2]
      rfl

/-- The load test after an insertion with its allocations. -/
theorem Entered.regrows (h : Entered G ht key a ht₁) (hbacked : InsertionBacked ht a)
    (hreaches : crowded ht.counted = true → RehashOk ht.counted) (hcrowded : crowded ht₁ = true) :
    Regrows ht₁ a := by
  rw [h.load.crowded] at hcrowded
  refine ⟨h.load.rehashOk.mpr (hreaches hcrowded), fun hresizes => hbacked.buckets ?_⟩
  rw [hcrowded, ← h.load.resizes, hresizes]
  rfl

/-- The load test of `hash_search`, if it inserts. -/
theorem searchSection_regrows (h : ht.Ok G) (hfree : ht.locked = false) (hkey : ht.Unmutated key)
    (hpage : a.Maps L ht) (hbacked : ht.Lacks key.bytes → InsertionBacked ht a)
    (hreaches : ht.Lacks key.bytes → crowded ht.counted = true → RehashOk ht.counted) :
    ∀ r ∈ searchSection G ht key data a, (r.2.1 && crowded r.1) = true → Regrows r.1 a := by
  intro r hr hcrowded
  rw [Bool.and_eq_true] at hcrowded
  by_cases hlacks : ht.Lacks key.bytes
  · obtain ⟨ht₁, hsection, hentered⟩ := searchSection_enters data h hfree hkey hlacks hpage
    obtain rfl := Option.some.inj (hsection.symm.trans hr)
    exact hentered.regrows (hbacked hlacks) (hreaches hlacks) hcrowded.2
  · rw [lacks_iff, not_not] at hlacks
    obtain ⟨he, hhe, hbytes⟩ := exists_entry hlacks
    have hsection := searchSection_found (G := G) (a := a) data h.toShape hfree hkey hhe hbytes
    obtain rfl := Option.some.inj (hsection.symm.trans hr)
    simp at hcrowded

/-- The load test of `hash_replace`, if it inserts. -/
theorem replaceSection_regrows (h : ht.Ok G) (hfree : ht.locked = false) (hkey : ht.Unmutated key)
    (hpage : a.Maps L ht) (hbacked : ht.Lacks key.bytes → InsertionBacked ht a)
    (hreaches : ht.Lacks key.bytes → crowded ht.counted = true → RehashOk ht.counted) :
    ∀ r ∈ replaceSection G ht key data a, (r.2.isNone && crowded r.1) = true → Regrows r.1 a := by
  intro r hr hcrowded
  rw [Bool.and_eq_true] at hcrowded
  by_cases hlacks : ht.Lacks key.bytes
  · obtain ⟨ht₁, hsection, hentered⟩ := replaceSection_enters data h hfree hkey hlacks hpage
    obtain rfl := Option.some.inj (hsection.symm.trans hr)
    exact hentered.regrows (hbacked hlacks) (hreaches hlacks) hcrowded.2
  · rw [lacks_iff, not_not] at hlacks
    obtain ⟨he, hhe, hbytes⟩ := exists_entry hlacks
    obtain ⟨ht₁, rest, hsection, -, -⟩ :=
      replaceSection_found (G := G) (a := a) data h.toShape hfree hkey hhe hbytes
    obtain rfl := Option.some.inj (hsection.symm.trans hr)
    simp at hcrowded

end Resizing

/-! ## Listing the keys -/

theorem copyKeys_returns {c : List (HashEntry D)} (hkeyed : ∀ he ∈ c, he.Keyed) (j : ℕ)
    (m : Malloc) : ∃ ks m', copyKeys a j c m = some (ks, m') := by
  induction c generalizing j m with
  | nil => exact ⟨[], m, rfl⟩
  | cons he c ih =>
      obtain ⟨k, hk, -⟩ := hkeyed he List.mem_cons_self
      obtain ⟨ks, m', hcopy⟩ := ih (fun x hx => hkeyed x (List.mem_cons_of_mem he hx)) (j + 1)
        (hashKdup (a.keyCopies.getD j true) k m).2
      refine ⟨(hashKdup (a.keyCopies.getD j true) k m).1 :: ks, m', ?_⟩
      rw [copyKeys, hk]
      simp only [Option.bind_eq_bind, Option.bind_some, hcopy]

/-- Whatever copies of keys fail, the table stays as it is. -/
theorem keysSection_returns (h : ht.Ok G) (hfree : ht.locked = false) (fast : Bool)
    (hkeys : a.keys = true) :
    ∃ m result, keysSection ht fast a = some ({ ht with malloc := m }, result) := by
  obtain ⟨⟨addr, bs⟩, hbuckets⟩ := Option.ne_none_iff_exists'.mp h.buckets
  have hnodes : bs.flatten = ht.nodes := by
    rw [nodes, chains, hbuckets]
    rfl
  obtain ⟨ks, m, harray⟩ : ∃ ks m, keyArray fast a ht.nodes ht.malloc.take = some (ks, m) := by
    rw [keyArray]
    split_ifs
    · exact ⟨_, _, rfl⟩
    · exact copyKeys_returns h.keyed 0 _
  refine ⟨m, ⟨some ks, some (BitVec.ofNat 32 ht.entries)⟩, ?_⟩
  rw [keysSection, lockHash_eq hfree]
  simp only [hkeys, hbuckets, hnodes, harray, h.entries, Option.bind_eq_bind, Option.bind_some,
    Bool.not_true, Bool.false_eq_true, if_false, lt_irrefl]
  rw [unlockHash_eq rfl, hfree]

/-- A key array that cannot be allocated. -/
theorem keysSection_fails (hfree : ht.locked = false) (fast : Bool) (hkeys : a.keys = false) :
    keysSection ht fast a = some ({ ht with locked := ht.locking }, ⟨none, none⟩) := by
  rw [keysSection, lockHash_eq hfree]
  simp [hkeys]

theorem hashKeys_returns (h : ht.Ok G) (hfree : ht.locked = false) (fast : Bool)
    (hbacked : ht.entries ≠ 0 → ht.locking = true → a.keys = true) :
    ∃ m result, hashKeys ht fast a = some ({ ht with malloc := m }, result) := by
  rw [hashKeys]
  split_ifs with hentries
  · exact ⟨ht.malloc, _, rfl⟩
  · cases hkeys : a.keys with
    | true => exact keysSection_returns h hfree fast hkeys
    | false =>
        have hlocking : ht.locking = false := by
          by_contra hlocking
          rw [hbacked hentries (by simpa using hlocking)] at hkeys
          cases hkeys
        refine ⟨ht.malloc, ⟨none, none⟩, ?_⟩
        rw [keysSection_fails hfree fast hkeys, hlocking, ← hfree]

/-! ## One call -/

theorem HashTable.Shape.key_ne_none (h : ht.Shape) {he : HashEntry D} (hhe : he ∈ ht.nodes) :
    he.key ≠ none := by
  obtain ⟨k, hk, -⟩ := h.keyed he hhe
  rw [hk]
  exact Option.some_ne_none k

section Calls

variable [FloatOps R]

theorem Performs.effect (h : Performs G ht a op) (hfree : ht.locked = false) :
    ∃ ht' reply, perform G ht a op = some (ht', reply) ∧ Effect ht op ht' reply ∧ ht'.Ok G ∧
      ht'.locked = false := by
  obtain ⟨ht', reply, hperform, hspec, hok, hfree'⟩ := h
  exact ⟨ht', reply, hperform, ⟨hfree'.trans hfree.symm, .inl ⟨hok.toShape, hspec⟩,
    fun he hhe => hok.toShape.key_ne_none hhe, hok.buckets⟩, hok, hfree'⟩

/-- What is not so for every key of an argument is not so for the one it has. -/
theorem not_of_resolve {arg : KeyArg} {P : Key → Prop} (hkey : key ∈ arg.resolve)
    (hnot : ¬ ∀ key ∈ arg.resolve, P key) : ¬ P key := by
  intro hP
  refine hnot fun key' hkey' => ?_
  obtain rfl := Option.some.inj (hkey.symm.trans hkey')
  exact hP

/-- The calls that insert a key that the table lacks. -/
inductive Inserting (arg : KeyArg) : Op R D → Prop
  | search (data : D) : Inserting arg (.search arg data)
  | replace (data : D) : Inserting arg (.replace arg data)

namespace Inserting

variable {arg : KeyArg}

/-- They insert the key, and the load test comes last. -/
theorem enters (hop : Inserting arg op) (h : ht.Ok G) (hfree : ht.locked = false)
    (hkey : key ∈ arg.resolve) (hunmutated : ht.Unmutated key) (hlacks : ht.Lacks key.bytes)
    (hpage : a.Maps L ht) :
    ∃ ht₁ reply, Entered G ht key a ht₁ ∧
      perform G ht a op = (rehashIf (crowded ht₁) ht₁ a).map fun ht' => (ht', reply) := by
  cases hop with
  | search data =>
      obtain ⟨ht₁, hsection, hentered⟩ := searchSection_enters data h hfree hunmutated hlacks hpage
      refine ⟨ht₁, .value 1 (some data), hentered, ?_⟩
      cases hrehash : rehashIf (crowded ht₁) ht₁ a <;>
        simp [perform, Option.mem_def.mp hkey, hashSearch, hsection, hrehash]
  | replace data =>
      obtain ⟨ht₁, hsection, hentered⟩ := replaceSection_enters data h hfree hunmutated hlacks hpage
      refine ⟨ht₁, .value 1 none, hentered, ?_⟩
      cases hrehash : rehashIf (crowded ht₁) ht₁ a <;>
        simp [perform, Option.mem_def.mp hkey, hashReplace, hsection, hrehash]

/-- With a failed allocation they leave an entry without a key, or no bucket array. -/
theorem broken (hop : Inserting arg op) (h : ht.Ok G) (hfree : ht.locked = false)
    (hpage : a.Maps L ht) (hreads : ht.Reads arg)
    (hunbacked : ¬ ∀ key ∈ arg.resolve, ht.Lacks key.bytes → InsertionBacked ht a)
    {reply : Reply D} (hperform : perform G ht a op = some (ht', reply)) :
    (∃ he ∈ ht'.nodes, he.key = none) ∨ ht'.buckets = none := by
  obtain ⟨key, hkey, hunmutated⟩ := hreads
  obtain ⟨hlacks, hinsertion⟩ := Classical.not_imp.mp (not_of_resolve hkey hunbacked)
  obtain ⟨ht₁, reply', hentered, hresult⟩ := hop.enters h hfree hkey hunmutated hlacks hpage
  rw [hresult] at hperform
  obtain ⟨ht₂, hrehash, hpair⟩ := Option.map_eq_some_iff.mp hperform
  obtain ⟨rfl, -⟩ := Prod.mk.inj hpair
  exact hentered.broken hinsertion hrehash

/-- If the size cannot be reached they do not return. -/
theorem diverges (hop : Inserting arg op) (h : ht.Ok G) (hfree : ht.locked = false)
    (hpage : a.Maps L ht) (hreads : ht.Reads arg)
    (hreaches : ¬ ∀ key ∈ arg.resolve, ht.Lacks key.bytes → crowded ht.counted = true →
      RehashOk ht.counted) : perform G ht a op = none := by
  obtain ⟨key, hkey, hunmutated⟩ := hreads
  have hnot := not_of_resolve hkey hreaches
  rw [Classical.not_imp, Classical.not_imp] at hnot
  obtain ⟨hlacks, hcrowded, htarget⟩ := hnot
  obtain ⟨ht₁, reply, hentered, hresult⟩ := hop.enters h hfree hkey hunmutated hlacks hpage
  have hrehash := hashRehash_diverges (a := a) hentered.free
    (hentered.load.rehashOk.not.mpr htarget)
  rw [hresult, hentered.load.crowded, hcrowded]
  exact Option.map_eq_none_iff.mpr hrehash

end Inserting

/-- With the allocations that matter a call does all that it does. -/
theorem perform_backed (h : ht.Ok G) (hfree : ht.locked = false) (hserves : Serves L ht a op)
    (horderly : op.Orderly L ht) (hreaches : op.Reaches ht) (hbacked : op.Backed ht a) :
    ∃ ht' reply, perform G ht a op = some (ht', reply) ∧ Effect ht op ht' reply ∧ ht'.Ok G ∧
      ht'.locked = false := by
  obtain ⟨hpage, hreads⟩ := hserves
  cases op with
  | search arg data =>
      obtain ⟨key, hkey, hunmutated⟩ := hreads arg rfl
      refine (perform_search h hfree hkey hunmutated hpage ?_ ?_).effect hfree
      · exact fun hmiss => (hbacked key hkey (lacks_iff.mpr hmiss)).key
      · exact searchSection_regrows h hfree hunmutated hpage (hbacked key hkey) (hreaches key hkey)
  | replace arg data =>
      obtain ⟨key, hkey, hunmutated⟩ := hreads arg rfl
      refine (perform_replace h hfree hkey hunmutated hpage ?_ ?_).effect hfree
      · exact fun hmiss => (hbacked key hkey (lacks_iff.mpr hmiss)).key
      · exact replaceSection_regrows h hfree hunmutated hpage (hbacked key hkey) (hreaches key hkey)
  | delete arg =>
      obtain ⟨key, hkey, hunmutated⟩ := hreads arg rfl
      refine (perform_delete h hfree hkey hunmutated (horderly key hkey) ?_).effect hfree
      intro r hr hsparse
      rw [Bool.and_eq_true] at hsparse
      by_cases hlacks : ht.Lacks key.bytes
      · have hmiss := lacks_iff.mp hlacks
        have hsection := deleteSection_missing (L := L) h.toShape hfree hunmutated hmiss
        obtain rfl := Option.some.inj (hsection.symm.trans hr)
        refine ⟨hreaches key hkey hlacks hsparse.2, fun hresizes => hbacked key hkey hlacks ?_⟩
        rw [hsparse.2, hresizes]
        rfl
      · rw [lacks_iff, not_not] at hlacks
        obtain ⟨ht₁, hsection, -⟩ := h.delete hfree hunmutated (horderly key hkey)
        obtain rfl := Option.some.inj (hsection.symm.trans hr)
        rw [Option.isNone_iff_eq_none, Finmap.lookup_eq_none] at hsparse
        exact absurd hlacks hsparse.1
  | rehash => exact (perform_rehash h hfree ⟨hreaches, hbacked⟩).effect hfree
  | keys fast =>
      obtain ⟨m, result, hkeys⟩ := hashKeys_returns h hfree fast hbacked
      have hok : ({ ht with malloc := m } : HashTable R D).Ok G :=
        ⟨⟨h.buckets, h.length, h.pow, h.placed, h.keyed, h.nodup, h.entries⟩, h.pool⟩
      exact ⟨{ ht with malloc := m }, .keys result, by simp [perform, hkeys],
        ⟨rfl, .inr ⟨rfl, rfl, rfl⟩, fun he hhe => h.toShape.key_ne_none hhe, h.buckets⟩, hok, hfree⟩
  | find _ | sethashfunction _ | setthresholds _ _ | setflags _ | setflag _ | clearflag _ =>
      refine Performs.effect ?_ hfree
      exact perform_quiet h hfree trivial hreads

/-- Without one of them it does not. -/
theorem perform_unbacked (h : ht.Ok G) (hfree : ht.locked = false) (hserves : Serves L ht a op)
    (hunbacked : ¬ op.Backed ht a) {reply : Reply D}
    (hperform : perform G ht a op = some (ht', reply)) : ¬ Effect ht op ht' reply := by
  obtain ⟨hpage, hreads⟩ := hserves
  intro heffect
  have hwhole : ¬ ((∃ he ∈ ht'.nodes, he.key = none) ∨ ht'.buckets = none) := by
    rintro (⟨he, hhe, hnone⟩ | hnone)
    · exact heffect.keys he hhe hnone
    · exact heffect.buckets hnone
  cases op with
  | search arg data =>
      exact hwhole
        ((Inserting.search data).broken h hfree hpage (hreads arg rfl) hunbacked hperform)
  | replace arg data =>
      exact hwhole
        ((Inserting.replace data).broken h hfree hpage (hreads arg rfl) hunbacked hperform)
  | delete arg =>
      obtain ⟨key, hkey, hunmutated⟩ := hreads arg rfl
      have hnot := not_of_resolve hkey hunbacked
      rw [Classical.not_imp, Classical.not_imp, Bool.not_eq_true] at hnot
      obtain ⟨hlacks, hboth, hfail⟩ := hnot
      rw [Bool.and_eq_true] at hboth
      have hmiss := lacks_iff.mp hlacks
      have hsection := deleteSection_missing (L := L) h.toShape hfree hunmutated hmiss
      cases hrehash : hashRehash ht a with
      | none =>
          simp [perform, Option.mem_def.mp hkey, hashDelete, hsection, rehashIf, hboth.1, hrehash]
            at hperform
      | some ht₂ =>
          have hresult : perform G ht a (.delete arg : Op R D) = some (ht₂, .value 1 none) := by
            simp [perform, Option.mem_def.mp hkey, hashDelete, hsection, rehashIf, hboth.1, hrehash]
          obtain ⟨rfl, -⟩ := Prod.mk.inj (Option.some.inj (hresult.symm.trans hperform))
          exact hwhole (.inr (hashRehash_lost hboth.2 hfail hrehash))
  | rehash =>
      rw [Op.Backed, Classical.not_imp, Bool.not_eq_true] at hunbacked
      obtain ⟨ht₂, hrehash, hresult⟩ := Option.bind_eq_some_iff.mp hperform
      obtain ⟨rfl, -⟩ := Prod.mk.inj (Option.some.inj hresult)
      exact hwhole (.inr (hashRehash_lost hunbacked.1 hunbacked.2 hrehash))
  | keys fast =>
      rw [Op.Backed, Classical.not_imp, Classical.not_imp, Bool.not_eq_true] at hunbacked
      obtain ⟨hentries, hlocking, hfail⟩ := hunbacked
      rw [perform, hashKeys, if_neg hentries, keysSection_fails hfree fast hfail] at hperform
      obtain ⟨rfl, -⟩ := Prod.mk.inj (Option.some.inj hperform)
      have hlock : ht.locking = ht.locked := heffect.lock
      rw [hlocking, hfree] at hlock
      cases hlock
  | find _ | sethashfunction _ | setthresholds _ _ | setflags _ | setflag _ | clearflag _ =>
      exact hunbacked trivial

/-- A call that computes a size that `hash_size` cannot reach does not return. -/
theorem perform_diverges (h : ht.Ok G) (hfree : ht.locked = false) (hserves : Serves L ht a op)
    (hreaches : ¬ op.Reaches ht) : perform G ht a op = none := by
  obtain ⟨hpage, hreads⟩ := hserves
  cases op with
  | search arg data =>
      exact (Inserting.search data).diverges h hfree hpage (hreads arg rfl) hreaches
  | replace arg data =>
      exact (Inserting.replace data).diverges h hfree hpage (hreads arg rfl) hreaches
  | delete arg =>
      obtain ⟨key, hkey, hunmutated⟩ := hreads arg rfl
      have hnot := not_of_resolve hkey hreaches
      rw [Classical.not_imp, Classical.not_imp] at hnot
      obtain ⟨hlacks, hsparse, htarget⟩ := hnot
      have hmiss := lacks_iff.mp hlacks
      have hsection := deleteSection_missing (L := L) h.toShape hfree hunmutated hmiss
      have hrehash := hashRehash_diverges (a := a) hfree htarget
      simp [perform, Option.mem_def.mp hkey, hashDelete, hsection, rehashIf, hsparse, hrehash]
  | rehash =>
      simp [perform, hashRehash_diverges (a := a) hfree hreaches]
  | keys _ | find _ | sethashfunction _ | setthresholds _ _ | setflags _ | setflag _
  | clearflag _ =>
      exact absurd trivial hreaches

/-! ## Reachable tables -/

/-- A call is atomic exactly if the allocations that it makes and does not test succeed,
unless it does not return in any case. -/
theorem atomic_iff (h : ht.Ok G) (hfree : ht.locked = false) (hserves : Serves L ht a op)
    (horderly : op.Orderly L ht) : Atomic G ht a op ↔ (op.Reaches ht → op.Backed ht a) := by
  constructor
  · intro hatomic hreaches
    by_contra hunbacked
    obtain ⟨⟨ht', reply⟩, hperform⟩ := Option.ne_none_iff_exists'.mp (hatomic.returns hreaches)
    exact perform_unbacked h hfree hserves hunbacked hperform (hatomic.effect ht' reply hperform)
  · intro hbacked
    by_cases hreaches : op.Reaches ht
    · obtain ⟨ht', reply, hperform, heffect, -⟩ :=
        perform_backed h hfree hserves horderly hreaches (hbacked hreaches)
      refine ⟨fun ht'' reply' hperform' => ?_, fun _ hnone => ?_⟩
      · obtain ⟨rfl, rfl⟩ := Prod.mk.inj (Option.some.inj (hperform.symm.trans hperform'))
        exact heffect
      · rw [hnone] at hperform
        cases hperform
    · have hnone := perform_diverges h hfree hserves hreaches
      refine ⟨fun ht' reply hperform => ?_, fun hreaches' => absurd hreaches' hreaches⟩
      rw [hnone] at hperform
      cases hperform

theorem server_keeps {ht₀ : HashTable R D} (call : Op R D × Alloc)
    (h : ht.Ok G ∧ ht.locked = false) (hserves : Serves L ht call.2 call.1)
    (hbacked : call.1.Backed ht call.2 ∧ call.1.Orderly L ht)
    (hstep : (server G ht₀).step ht call = some ht') : ht'.Ok G ∧ ht'.locked = false := by
  obtain ⟨⟨ht'', reply⟩, hperform, rfl⟩ := Option.map_eq_some_iff.mp hstep
  have hreaches : call.1.Reaches ht := by
    by_contra hreaches
    rw [perform_diverges h.1 h.2 hserves hreaches] at hperform
    cases hperform
  obtain ⟨ht₁, reply₁, hperform₁, -, hok, hfree⟩ :=
    perform_backed h.1 h.2 hserves hbacked.2 hreaches hbacked.1
  obtain ⟨rfl, -⟩ := Prod.mk.inj (Option.some.inj (hperform₁.symm.trans hperform))
  exact ⟨hok, hfree⟩

/-- Any call on any table that calls with their allocations have made of a new one: it is
atomic exactly if the allocations that it makes and does not test succeed. -/
theorem reachable_atomic_iff {size : BitVec 32} {lock : Bool} {flags : BitVec 32} {boot : NewAlloc}
    (hnew : hashNew size lock flags boot = some (some ht)) (hbuckets : ht.buckets ≠ none)
    (calls : List (Op R D × Alloc)) (hvalid : (server G ht).Valid ht calls)
    (hbacked : (server G ht).AllSteps
      (fun ht call => call.1.Backed ht call.2 ∧ call.1.Orderly L ht) ht calls)
    (hexec : (server G ht).exec ht calls = some ht') (hserves : Serves L ht' a op)
    (horderly : op.Orderly L ht') : Atomic G ht' a op ↔ (op.Reaches ht' → op.Backed ht' a) := by
  obtain ⟨hok, -, hfree⟩ := hashNew_spec (G := G) hnew hbuckets
  have hall : (server G ht).AllStates (fun ht => ht.Ok G ∧ ht.locked = false) ht calls :=
    Machine.allStates_of_keeps (fun ht call ht' h hserves hbacked hstep =>
      server_keeps call h hserves hbacked hstep) ⟨hok, hfree⟩ hvalid hbacked
  obtain ⟨hok', hfree'⟩ := hall.last hexec
  exact atomic_iff hok' hfree' hserves horderly

end Calls

/-! ## Concrete failures -/

/-- Two insertions, a resizing and a deletion, one of whose allocations fails where it is not
made. -/
def prepared : List (Op ℚ ℕ × Alloc) :=
  [(.search (text [97]) 1, served 4096), (.search (text [98]) 2, served 0), (.rehash, served 0),
    (.delete (text [97]), { served 0 with buckets := false })]

/-- The table that they leave. -/
def preparedTable : HashTable ℚ ℕ :=
  ((server entryGeometry smallTable).exec smallTable prepared).get (by decide +kernel)

/-- A replacement needs no memory. -/
theorem prepared_atomic :
    Atomic entryGeometry preparedTable { served 0 with key := false } (.replace (text [98]) 3) :=
  (reachable_atomic_iff smallTable_new (by decide) prepared (by decide +kernel)
    (by decide +kernel) (Option.some_get _).symm (by decide +kernel) (by decide +kernel)).mpr
    fun _ => by decide +kernel

/-- A table with one entry. -/
def oneEntry : HashTable ℚ ℕ :=
  ((server entryGeometry frozenTable).exec frozenTable
    [(.search (text [97]) 1, served 4096)]).get (by decide +kernel)

/-- The copy of a key fails, and the entry has none. The bucket array fails, and an empty
table has none. The key array fails, and the lock stays taken. -/
theorem failures_not_atomic :
    ¬ Atomic entryGeometry frozenTable { served 4096 with key := false } (.search (text [97]) 1) ∧
      ¬ Atomic entryGeometry frozenTable { served 0 with buckets := false } .rehash ∧
      ¬ Atomic entryGeometry oneEntry { served 0 with keys := false } (.keys false) := by
  refine ⟨fun hatomic => ?_, fun hatomic => ?_, fun hatomic => ?_⟩
  · have hkeys : (perform entryGeometry frozenTable { served 4096 with key := false }
        (.search (text [97]) 1)).map (fun r => r.1.nodes.map HashEntry.key) = some [none] := by
      decide +kernel
    obtain ⟨⟨ht', reply⟩, hperform, hnodes⟩ := Option.map_eq_some_iff.mp hkeys
    have hnone : (none : Option Key) ∈ ht'.nodes.map HashEntry.key := by
      rw [hnodes]
      exact List.mem_singleton.mpr rfl
    obtain ⟨he, hhe, hkey⟩ := List.mem_map.mp hnone
    exact (hatomic.effect ht' reply hperform).keys he hhe hkey
  · have hbuckets : (perform entryGeometry frozenTable { served 0 with buckets := false }
        .rehash).map (fun r => r.1.buckets.isNone) = some true := by decide +kernel
    obtain ⟨⟨ht', reply⟩, hperform, hnone⟩ := Option.map_eq_some_iff.mp hbuckets
    exact (hatomic.effect ht' reply hperform).buckets (Option.isNone_iff_eq_none.mp hnone)
  · have hlocks : (perform entryGeometry oneEntry { served 0 with keys := false }
        (.keys false)).map (fun r => r.1.locked) = some true := by decide +kernel
    have hfree : oneEntry.locked = false := by decide +kernel
    obtain ⟨⟨ht', reply⟩, hperform, hheld⟩ := Option.map_eq_some_iff.mp hlocks
    have hlock := (hatomic.effect ht' reply hperform).lock
    rw [hfree] at hlock
    rw [hlock] at hheld
    cases hheld

end ThreeW3.Hash
