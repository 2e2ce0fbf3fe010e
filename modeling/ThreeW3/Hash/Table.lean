/-
# The table in order

The invariant of a table between two calls, the map that it stores, and what the loops
over its chains do. A table has its shape when its size is a power of two, each entry is in
the bucket of its key, no two entries have one key, and `entries` counts them. It is in
order when its pool is, too, with exactly the chunks of the entries handed out.
-/

import ThreeW3.Hash.Model
import ThreeW3.Lib.Buckets
import ThreeW3.Pool.Operations

namespace ThreeW3.Hash

open ThreeW3.Lib ThreeW3.Pool

variable {R D : Type} {L : Layout} {G : Geometry L}

/-! ## Sizes -/

theorem hashSizeLoop_spec {s : BitVec 32} (hs : s.toNat ≤ 2 ^ 31) {fuel j : ℕ}
    (hfuel : fuel + j = 33) (hj : j ≤ 31) {i : BitVec 32} (hi : i.toNat = 2 ^ j) :
    ∃ n ≤ 31, ∃ ns, hashSizeLoop s fuel i = some ns ∧ ns.toNat = 2 ^ n := by
  induction fuel generalizing j i with
  | zero => omega
  | succ fuel ih =>
      rw [hashSizeLoop]
      split_ifs with hlt
      · have hlt' : i.toNat < s.toNat := hlt
        have hj31 : j < 31 := by
          by_contra hge
          have : j = 31 := by omega
          subst this
          omega
        refine ih (j := j + 1) (by omega) (by omega) ?_
        have hpow : 2 ^ (j + 1) ≤ 2 ^ 31 := Nat.pow_le_pow_right (by omega) hj31
        rw [BitVec.toNat_shiftLeft, hi, Nat.shiftLeft_eq, ← pow_add, Nat.mod_eq_of_lt]
        omega
      · exact ⟨j, hj, i, rfl, hi⟩

/-- Up to 2^31 `hash_size` ends, with a power of two. -/
theorem hashSize_spec {s : BitVec 32} (hs : s.toNat ≤ 2 ^ 31) :
    ∃ n ≤ 31, ∃ ns, hashSize s = some ns ∧ ns.toNat = 2 ^ n :=
  hashSizeLoop_spec (j := 0) hs rfl (by omega) rfl

/-- Above that it loops for ever. -/
theorem hashSizeLoop_none {s : BitVec 32} (hs : 2 ^ 31 < s.toNat) {j : ℕ} {i : BitVec 32}
    (hi : i.toNat = 2 ^ j % 2 ^ 32) (fuel : ℕ) : hashSizeLoop s fuel i = none := by
  induction fuel generalizing i j with
  | zero => rfl
  | succ fuel ih =>
      have hle : i.toNat ≤ 2 ^ 31 := by
        rw [hi]
        rcases Nat.lt_or_ge j 32 with hj | hj
        · exact (Nat.mod_le _ _).trans (Nat.pow_le_pow_right (by omega) (by omega))
        · rw [Nat.mod_eq_zero_of_dvd (Nat.pow_dvd_pow 2 hj)]
          omega
      have hlt : i < s := by
        rw [BitVec.lt_def]
        omega
      rw [hashSizeLoop, if_pos hlt]
      refine ih (j := j + 1) ?_
      rw [BitVec.toNat_shiftLeft, hi, Nat.shiftLeft_eq, pow_succ 2 j, pow_one, Nat.mod_mul_mod]

theorem exists_pow_of_hashSize {s ns : BitVec 32} (h : hashSize s = some ns) :
    ∃ n ≤ 31, ns.toNat = 2 ^ n := by
  rcases Nat.lt_or_ge (2 ^ 31) s.toNat with hlarge | hle
  · have hnone : hashSize s = none := hashSizeLoop_none hlarge (j := 0) rfl 33
    simp [h] at hnone
  · obtain ⟨n, hn, ns', hns', hpow⟩ := hashSize_spec hle
    obtain rfl : ns = ns' := Option.some.inj (h.symm.trans hns')
    exact ⟨n, hn, hpow⟩

/-- A size that calloc(3) accepts for the bucket array is the one that `hash_size` gives. -/
theorem signExtend_size {ns : BitVec 32} {n : ℕ} (hns : ns.toNat = 2 ^ n)
    (hfits : (ns.signExtend 64).toNat * ptrSize < sizeModulus) :
    (ns.signExtend 64).toNat = 2 ^ n := by
  have hlt : ns.toNat < 2 ^ 31 := by
    by_contra hge
    have hmsb : ns.msb = true := by
      rw [BitVec.msb_eq_decide]
      exact decide_eq_true (by omega)
    rw [BitVec.toNat_signExtend, hmsb, if_pos rfl, ptrSize, sizeModulus] at hfits
    omega
  have hmsb : ns.msb = false := by
    rw [BitVec.msb_eq_decide]
    exact decide_eq_false (by omega)
  rw [BitVec.toNat_signExtend, hmsb, BitVec.toNat_setWidth, ← hns]
  simp only [Bool.false_eq_true, if_false, Nat.add_zero]
  exact Nat.mod_eq_of_lt (by omega)

/-- Masking with the size less one stays below the size. -/
theorem hashValue_lt (ht : HashTable R D) (key : List UInt8) (n : ℕ) :
    hashValue ht key (2 ^ n) < 2 ^ n := by
  have hpos : 0 < 2 ^ n := Nat.two_pow_pos n
  rw [hashValue, sizePred, if_neg hpos.ne']
  exact lt_of_le_of_lt Nat.and_le_right (Nat.sub_one_lt hpos.ne')

/-! ## What a table stores -/

/-- The bytes of the key. -/
def HashEntry.bytes (he : HashEntry D) : List UInt8 := (he.key.map Key.bytes).getD []

/-- The key is there, with its size. -/
def HashEntry.Keyed (he : HashEntry D) : Prop := ∃ k, he.key = some k ∧ he.keySize = k.bytes.length

/-- A pool in order that has the chunks of these entries handed out. -/
def PoolOf (G : Geometry L) (mp : State) (N : List (HashEntry D)) : Prop :=
  ∃ out l stale, out.Perm (N.map HashEntry.addr) ∧ Pool.Inv G mp out l stale

theorem PoolOf.perm {mp : State} {N N' : List (HashEntry D)} (h : PoolOf G mp N)
    (hperm : N.Perm N') : PoolOf G mp N' := by
  obtain ⟨out, l, stale, hout, hinv⟩ := h
  exact ⟨out, l, stale, hout.trans (hperm.map _), hinv⟩

namespace HashTable

/-- The chains. -/
def chains (ht : HashTable R D) : List (List (HashEntry D)) := (ht.buckets.map Prod.snd).getD []

/-- All entries. -/
def nodes (ht : HashTable R D) : List (HashEntry D) := ht.chains.flatten

/-- The map that the table stores. -/
def contents (ht : HashTable R D) : Finmap fun _ : List UInt8 => D :=
  asMap HashEntry.bytes HashEntry.data ht.nodes

/-- The shape of a table. -/
structure Shape (ht : HashTable R D) : Prop where
  buckets : ht.buckets ≠ none
  length : ht.chains.length = ht.size
  pow : ∃ n, ht.size = 2 ^ n
  placed : Placed (fun he => hashValue ht he.bytes ht.size) ht.chains
  keyed : ∀ he ∈ ht.nodes, he.Keyed
  nodup : (ht.nodes.map HashEntry.bytes).Nodup
  entries : ht.entries = ht.nodes.length

/-- A table in order. -/
structure Ok (G : Geometry L) (ht : HashTable R D) : Prop extends Shape ht where
  pool : PoolOf G ht.mp ht.nodes

/-- The memory at the key of a call is what it was when an entry got that pointer. -/
def Unmutated (ht : HashTable R D) (key : Key) : Prop :=
  ∀ he ∈ ht.nodes, ∀ k ∈ he.key, k.ptr = key.ptr → k.bytes.length = key.bytes.length →
    k.bytes = key.bytes

instance decidableUnmutated (ht : HashTable R D) (key : Key) : Decidable (ht.Unmutated key) :=
  inferInstanceAs (Decidable (∀ he ∈ ht.nodes, ∀ k ∈ he.key, k.ptr = key.ptr →
    k.bytes.length = key.bytes.length → k.bytes = key.bytes))

/-- What no call but its own setter changes. -/
structure SameSettings (ht ht' : HashTable R D) : Prop where
  hashFunc : ht'.hashFunc = ht.hashFunc
  flags : ht'.flags = ht.flags
  locking : ht'.locking = ht.locking
  locked : ht'.locked = ht.locked
  highMark : ht'.highMark = ht.highMark
  lowMark : ht'.lowMark = ht.lowMark

theorem SameSettings.refl (ht : HashTable R D) : SameSettings ht ht := ⟨rfl, rfl, rfl, rfl, rfl, rfl⟩

theorem SameSettings.trans {ht ht' ht'' : HashTable R D} (h : SameSettings ht ht')
    (h' : SameSettings ht' ht'') : SameSettings ht ht'' :=
  ⟨h'.hashFunc.trans h.hashFunc, h'.flags.trans h.flags, h'.locking.trans h.locking,
    h'.locked.trans h.locked, h'.highMark.trans h.highMark, h'.lowMark.trans h.lowMark⟩

/-- The table has become one in order that stores this map. -/
structure Became (G : Geometry L) (ht : HashTable R D) (m : Finmap fun _ : List UInt8 => D)
    (ht' : HashTable R D) : Prop where
  ok : ht'.Ok G
  contents : ht'.contents = m
  same : SameSettings ht ht'

theorem Became.trans {ht ht' ht'' : HashTable R D} {m m' : Finmap fun _ : List UInt8 => D}
    (h : Became G ht m ht') (h' : Became G ht' m' ht'') : Became G ht m' ht'' :=
  ⟨h'.ok, h'.contents, h.same.trans h'.same⟩

theorem Ok.became {ht : HashTable R D} (h : ht.Ok G) : Became G ht ht.contents ht := ⟨h, rfl, .refl ht⟩

/-! ## The lock -/

/-- A call that finds the lock free takes it, and gives it back at its end. -/
theorem lockHash_eq {ht : HashTable R D} (hfree : ht.locked = false) :
    ht.lockHash = some { ht with locked := ht.locking } := by
  obtain ⟨_, _, _, _, _, _, locking, locked, _, _, _, _, _⟩ := ht
  obtain rfl : locked = false := hfree
  cases locking <;> rfl

theorem unlockHash_eq {ht : HashTable R D} (hheld : ht.locked = ht.locking) :
    ht.unlockHash = { ht with locked := false } := by
  obtain ⟨_, _, _, _, _, _, locking, locked, _, _, _, _, _⟩ := ht
  obtain rfl : locked = locking := hheld
  cases locked <;> rfl

/-- After a call that changes nothing the table is as before. -/
theorem unlockHash_locked {ht : HashTable R D} (hfree : ht.locked = false) :
    ({ ht with locked := ht.locking } : HashTable R D).unlockHash = ht := by
  rw [unlockHash_eq rfl, ← hfree]

/-- The lock does not matter to the shape of a table, nor to its order. -/
theorem Shape.relock {ht : HashTable R D} (h : ht.Shape) (b : Bool) :
    ({ ht with locked := b } : HashTable R D).Shape :=
  ⟨h.buckets, h.length, h.pow, h.placed, h.keyed, h.nodup, h.entries⟩

theorem Ok.relock {ht : HashTable R D} (h : ht.Ok G) (b : Bool) :
    ({ ht with locked := b } : HashTable R D).Ok G :=
  ⟨h.toShape.relock b, h.pool⟩

/-! ## Chains -/

variable {ht : HashTable R D} {hv : ℕ} {c : List (HashEntry D)}

theorem chain_eq (ht : HashTable R D) (hv : ℕ) : ht.chain hv = ht.chains[hv]? := by
  rw [chain, chains]
  cases ht.buckets <;> simp

theorem chains_setChain (ht : HashTable R D) (hv : ℕ) (c : List (HashEntry D)) :
    (ht.setChain hv c).chains = ht.chains.set hv c := by
  rw [chains, setChain, chains]
  cases ht.buckets <;> simp

/-- Every key has a bucket. -/
theorem Shape.exists_chain (h : ht.Shape) (key : List UInt8) :
    ∃ c, ht.chain (hashValue ht key ht.size) = some c := by
  obtain ⟨n, hn⟩ := h.pow
  have hlt : hashValue ht key ht.size < ht.chains.length := by
    rw [h.length, hn]
    exact hashValue_lt ht key n
  exact ⟨_, by rw [chain_eq, List.getElem?_eq_getElem hlt]⟩

end HashTable

open HashTable

variable {ht ht' : HashTable R D} {key : Key} {data : D} {a : Alloc}

/-- On entries with keys `hash_cmp` compares lengths and bytes. -/
theorem hashCmp_spec (key : Key) {he : HashEntry D} (h : he.Keyed)
    (hsame : ∀ k ∈ he.key, k.ptr = key.ptr → k.bytes.length = key.bytes.length →
      k.bytes = key.bytes) :
    hashCmp key he = some (decide (he.bytes ≠ key.bytes)) := by
  obtain ⟨k, hk, hsize⟩ := h
  have hbytes : he.bytes = k.bytes := by
    rw [HashEntry.bytes, hk]
    rfl
  rw [hashCmp, hbytes]
  split_ifs with hlen
  · have hne : k.bytes ≠ key.bytes := fun heq => hlen (by rw [hsize, heq])
    simp [hne]
  · rw [not_not, hsize] at hlen
    rw [hk, Option.map_some]
    split_ifs with hptr
    · simp [hsame k hk hptr.symm hlen.symm]
    · simp [ne_comm]

/-- The loop over a chain finds the entry with the key, if there is one. -/
theorem walk_spec {c : List (HashEntry D)} (hkeyed : ∀ he ∈ c, he.Keyed)
    (hsame : ∀ he ∈ c, ∀ k ∈ he.key, k.ptr = key.ptr → k.bytes.length = key.bytes.length →
      k.bytes = key.bytes) :
    (walk key c = some (c, []) ∧ ∀ he ∈ c, he.bytes ≠ key.bytes) ∨
      ∃ before hr after, c = before ++ hr :: after ∧ walk key c = some (before, hr :: after) ∧
        hr.bytes = key.bytes := by
  induction c with
  | nil => exact .inl ⟨rfl, by simp⟩
  | cons he c ih =>
      have hcmp := hashCmp_spec key (hkeyed he List.mem_cons_self)
        (hsame he List.mem_cons_self)
      by_cases heq : he.bytes = key.bytes
      · refine .inr ⟨[], he, c, rfl, ?_, heq⟩
        simp [walk, hcmp, heq]
      · rcases ih (fun x hx => hkeyed x (List.mem_cons_of_mem he hx))
          (fun x hx => hsame x (List.mem_cons_of_mem he hx)) with
          ⟨hwalk, hnone⟩ | ⟨before, hr, after, rfl, hwalk, hfound⟩
        · refine .inl ⟨by simp [walk, hcmp, heq, hwalk], ?_⟩
          intro x hx
          rcases List.mem_cons.mp hx with rfl | hx
          · exact heq
          · exact hnone x hx
        · exact .inr ⟨he :: before, hr, after, rfl, by simp [walk, hcmp, heq, hwalk], hfound⟩

/-- Looking for a key: it is missing from the map, or there is its entry. -/
theorem HashTable.Shape.look (h : ht.Shape) (hkey : ht.Unmutated key) :
    ∃ c, ht.chain (hashValue ht key.bytes ht.size) = some c ∧
      ((walk key c = some (c, []) ∧ key.bytes ∉ ht.contents) ∨
        ∃ before hr after, c = before ++ hr :: after ∧ walk key c = some (before, hr :: after) ∧
          hr.bytes = key.bytes ∧ hr ∈ ht.nodes) := by
  obtain ⟨c, hc⟩ := h.exists_chain key.bytes
  have hc' : ht.chains[hashValue ht key.bytes ht.size]? = some c := by rw [← chain_eq, hc]
  have hmem : ∀ he ∈ c, he ∈ ht.nodes := fun he hhe =>
    List.mem_flatten_of_mem (List.mem_of_getElem? hc') hhe
  refine ⟨c, hc, ?_⟩
  rcases walk_spec (fun he hhe => h.keyed he (hmem he hhe)) (fun he hhe => hkey he (hmem he hhe))
    with ⟨hwalk, hnone⟩ | ⟨before, hr, after, rfl, hwalk, hfound⟩
  · refine .inl ⟨hwalk, ?_⟩
    rw [contents, mem_asMap]
    rintro ⟨he, hhe, heq⟩
    exact hnone he (h.placed.mem_bucket (by rwa [heq]) hhe) heq
  · exact .inr ⟨before, hr, after, rfl, hwalk, hfound, hmem hr (by simp)⟩

/-- The data of an entry, in the map. -/
theorem HashTable.Shape.lookup (h : ht.Shape) {he : HashEntry D} (hhe : he ∈ ht.nodes) :
    ht.contents.lookup he.bytes = some he.data := lookup_asMap h.nodup hhe

/-- The entry of some data in the map. -/
theorem HashTable.exists_entry {b : List UInt8} (hb : b ∈ ht.contents) :
    ∃ he ∈ ht.nodes, he.bytes = b := mem_asMap.mp hb

/-- There is one entry for a key. -/
theorem HashTable.Shape.entry_unique (h : ht.Shape) {he he' : HashEntry D} (hhe : he ∈ ht.nodes)
    (hhe' : he' ∈ ht.nodes) (heq : he.bytes = he'.bytes) : he = he' :=
  List.inj_on_of_nodup_map h.nodup hhe hhe' heq

end ThreeW3.Hash
