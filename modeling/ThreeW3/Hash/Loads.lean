/-
# Growing

What any calls leave of the size and the entry count, failing allocations included, and
with it when an insertion keeps the load below the high mark. The load test divides exactly
here, as rationals do.
-/

import ThreeW3.Hash.Failures
import ThreeW3.Hash.Sizing

namespace ThreeW3.Hash

open ThreeW3.Lib ThreeW3.Pool HashTable

variable {R D : Type} {L : Layout} {G : Geometry L} {ht ht₁ ht' : HashTable R D} {key : Key}
  {data : D} {a : Alloc} {op : Op R D}

/-! ## What calls leave of the load -/

/-- How many buckets there are. -/
def HashTable.width (ht : HashTable R D) : Option ℕ := ht.buckets.map fun b => b.2.length

/-- What a deletion counts before its load test. -/
def HashTable.discounted (ht : HashTable R D) : HashTable R D :=
  { ht with entries := sizePred ht.entries }

/-- The load is the same, and the bucket array is of the same size. -/
structure Steady (ht ht' : HashTable R D) : Prop extends SameLoad ht ht' where
  width : ht'.width = ht.width

theorem Steady.refl (ht : HashTable R D) : Steady ht ht := ⟨⟨rfl, rfl, rfl, rfl, rfl⟩, rfl⟩

theorem Steady.unlock (h : Steady ht ht') : Steady ht ht'.unlockHash := by
  refine ⟨h.toSameLoad.unlock, ?_⟩
  obtain ⟨b, hb⟩ := unlockHash_cases ht'
  rw [hb]
  exact h.width

theorem width_setChain (ht : HashTable R D) (hv : ℕ) (c : List (HashEntry D)) :
    (ht.setChain hv c).width = ht.width := by
  rw [width, setChain, width]
  cases ht.buckets <;> simp

/-- Another chain in a bucket. -/
theorem Steady.setChain (ht : HashTable R D) (hv : ℕ) (c : List (HashEntry D)) :
    Steady ht (ht.setChain hv c) := ⟨⟨rfl, rfl, rfl, rfl, rfl⟩, width_setChain ht hv c⟩

theorem hashAddentry_steady {hv : ℕ} (hadd : hashAddentry G ht hv key data a = some ht') :
    Steady ht.counted ht' := by
  refine ⟨(hashAddentry_load hadd).1, ?_⟩
  obtain ⟨⟨mp, addr⟩, -, hrest⟩ := Option.bind_eq_some_iff.mp hadd
  obtain ⟨c, -, hresult⟩ := Option.bind_eq_some_iff.mp hrest
  obtain rfl := Option.some.inj hresult
  exact width_setChain ht hv _

theorem searchSection_steady {hf : Bool} {written : D}
    (hsection : searchSection G ht key data a = some (ht', hf, written)) :
    Steady (if hf then ht.counted else ht) ht' := by
  obtain ⟨ht₁, hlock, hrest⟩ := Option.bind_eq_some_iff.mp hsection
  obtain ⟨b, rfl⟩ := lockHash_cases hlock
  obtain ⟨c, -, hrest⟩ := Option.bind_eq_some_iff.mp hrest
  obtain ⟨⟨before, found⟩, -, hrest⟩ := Option.bind_eq_some_iff.mp hrest
  cases found with
  | cons hr after =>
      obtain ⟨rfl, hpair⟩ := Prod.mk.inj (Option.some.inj hrest)
      obtain ⟨rfl, -⟩ := Prod.mk.inj hpair
      exact Steady.unlock ⟨⟨rfl, rfl, rfl, rfl, rfl⟩, rfl⟩
  | nil =>
      obtain ⟨ht₂, hadd, hresult⟩ := Option.bind_eq_some_iff.mp hrest
      obtain ⟨rfl, hpair⟩ := Prod.mk.inj (Option.some.inj hresult)
      obtain ⟨rfl, -⟩ := Prod.mk.inj hpair
      have h := hashAddentry_steady hadd
      exact Steady.unlock ⟨⟨h.entries, h.size, h.flags, h.highMark, h.lowMark⟩, h.width⟩

theorem findSection_steady {found : Option D} (hsection : findSection ht key = some (ht', found)) :
    Steady ht ht' := by
  obtain ⟨ht₁, hlock, hrest⟩ := Option.bind_eq_some_iff.mp hsection
  obtain ⟨b, rfl⟩ := lockHash_cases hlock
  obtain ⟨c, -, hrest⟩ := Option.bind_eq_some_iff.mp hrest
  obtain ⟨⟨before, found⟩, -, hresult⟩ := Option.bind_eq_some_iff.mp hrest
  obtain ⟨rfl, -⟩ := Prod.mk.inj (Option.some.inj hresult)
  exact Steady.unlock ⟨⟨rfl, rfl, rfl, rfl, rfl⟩, rfl⟩

theorem replaceSection_steady {old : Option D}
    (hsection : replaceSection G ht key data a = some (ht', old)) :
    Steady (if old.isNone then ht.counted else ht) ht' := by
  obtain ⟨ht₁, hlock, hrest⟩ := Option.bind_eq_some_iff.mp hsection
  obtain ⟨b, rfl⟩ := lockHash_cases hlock
  obtain ⟨c, -, hrest⟩ := Option.bind_eq_some_iff.mp hrest
  obtain ⟨⟨before, found⟩, -, hrest⟩ := Option.bind_eq_some_iff.mp hrest
  cases found with
  | cons hr after =>
      obtain ⟨rfl, rfl⟩ := Prod.mk.inj (Option.some.inj hrest)
      exact Steady.unlock ⟨⟨rfl, rfl, rfl, rfl, rfl⟩, width_setChain _ _ _⟩
  | nil =>
      obtain ⟨ht₂, hadd, hresult⟩ := Option.bind_eq_some_iff.mp hrest
      obtain ⟨rfl, rfl⟩ := Prod.mk.inj (Option.some.inj hresult)
      have h := hashAddentry_steady hadd
      exact Steady.unlock ⟨⟨h.entries, h.size, h.flags, h.highMark, h.lowMark⟩, h.width⟩

theorem deleteSection_steady {old : Option D}
    (hsection : deleteSection L ht key = some (ht', old)) :
    Steady (if old.isSome then ht.discounted else ht) ht' := by
  obtain ⟨ht₁, hlock, hrest⟩ := Option.bind_eq_some_iff.mp hsection
  obtain ⟨b, rfl⟩ := lockHash_cases hlock
  obtain ⟨c, -, hrest⟩ := Option.bind_eq_some_iff.mp hrest
  obtain ⟨⟨before, found⟩, -, hrest⟩ := Option.bind_eq_some_iff.mp hrest
  cases found with
  | cons hr after =>
      obtain ⟨mp, -, hresult⟩ := Option.bind_eq_some_iff.mp hrest
      obtain ⟨rfl, rfl⟩ := Prod.mk.inj (Option.some.inj hresult)
      exact Steady.unlock ⟨⟨rfl, rfl, rfl, rfl, rfl⟩, width_setChain _ _ _⟩
  | nil =>
      obtain ⟨rfl, rfl⟩ := Prod.mk.inj (Option.some.inj hrest)
      exact Steady.unlock ⟨⟨rfl, rfl, rfl, rfl, rfl⟩, rfl⟩

theorem hashKeys_steady {fast : Bool} {result : KeysResult}
    (hkeys : hashKeys ht fast a = some (ht', result)) : Steady ht ht' := by
  rw [hashKeys] at hkeys
  split_ifs at hkeys
  · obtain ⟨rfl, -⟩ := Prod.mk.inj (Option.some.inj hkeys)
    exact .refl ht
  obtain ⟨ht₁, hlock, hlocked⟩ := Option.bind_eq_some_iff.mp hkeys
  obtain ⟨b, rfl⟩ := lockHash_cases hlock
  split_ifs at hlocked
  · obtain ⟨rfl, -⟩ := Prod.mk.inj (Option.some.inj hlocked)
    exact ⟨⟨rfl, rfl, rfl, rfl, rfl⟩, rfl⟩
  obtain ⟨⟨addr, bs⟩, -, hbuckets⟩ := Option.bind_eq_some_iff.mp hlocked
  dsimp only at hbuckets
  split_ifs at hbuckets
  obtain ⟨⟨ks, m⟩, -, hresult⟩ := Option.bind_eq_some_iff.mp hbuckets
  obtain ⟨rfl, -⟩ := Prod.mk.inj (Option.some.inj hresult)
  exact Steady.unlock ⟨⟨rfl, rfl, rfl, rfl, rfl⟩, rfl⟩

/-! ## Sizes and entry counts in a run -/

/-- The size is that of the bucket array, as long as there is one, and the entries are
counted. -/
structure HashTable.Sized (ht : HashTable R D) : Prop where
  pos : 0 < ht.size
  entries : ht.entries = ht.nodes.length
  width : ∀ w ∈ ht.width, w = ht.size ∧ ∃ n ≤ 31, ht.size = 2 ^ n

theorem HashTable.Sized.of_steady {ht₀ : HashTable R D} (h : ht.Sized) (hsteady : Steady ht₀ ht')
    (hsize : ht₀.size = ht.size) (hwidth : ht₀.width = ht.width)
    (hnodes : ht₀.entries = ht'.nodes.length) : ht'.Sized := by
  refine ⟨?_, hsteady.entries.trans hnodes, ?_⟩
  · rw [hsteady.size, hsize]
    exact h.pos
  · rw [hsteady.width, hwidth, hsteady.size, hsize]
    exact h.width

theorem HashTable.Sized.resized [FloatOps R] {b : Bool} (h : ht.Sized)
    (hrehash : rehashIf b ht a = some ht') : ht'.Sized := by
  have hnodes := (rehashIf_cases hrehash).nodes.length_eq
  cases b with
  | false =>
      obtain rfl := Option.some.inj hrehash
      exact h
  | true =>
      obtain ⟨s, ns, -, hns, hscaled⟩ := hashRehash_scales hrehash
      obtain ⟨n, hn, hpow, -⟩ := hashSize_least hns
      have hsize : ht'.size = 2 ^ n := hscaled.size.trans hpow
      refine ⟨?_, ?_, fun w hw => ⟨?_, n, hn, hsize⟩⟩
      · rw [hsize]
        exact Nat.two_pow_pos n
      · rw [hscaled.entries, h.entries, hnodes]
      · by_cases hsame : ns.toNat = ht.size
        · rw [HashTable.width, hscaled.same hsame] at hw
          rw [hscaled.size, hsame]
          exact (h.width w hw).1
        · obtain ⟨bs, hbs, rfl⟩ := Option.map_eq_some_iff.mp hw
          rw [hscaled.width hsame bs hbs, hscaled.size]

theorem hashSetthresholds_sized [FloatOps R] (h : ht.Sized) (low high : R) :
    (hashSetthresholds ht low high).1.Sized := by
  rw [hashSetthresholds]
  generalize (if FloatOps.lt high FloatOps.zero then ht.highMark else high) = highMark
  generalize (if FloatOps.lt low FloatOps.zero then ht.lowMark else low) = lowMark
  split_ifs
  · exact h
  · exact ⟨h.pos, h.entries, h.width⟩

/-- The section of a search counts an entry that it has put in. -/
theorem searchSection_sized {hf : Bool} {written : D} (h : ht.Sized)
    (hsection : searchSection G ht key data a = some (ht', hf, written)) : ht'.Sized := by
  have hsteady := searchSection_steady hsection
  rcases searchSection_cases hsection with ⟨rfl, hkept⟩ | ⟨rfl, hinserted⟩
  · exact h.of_steady hsteady rfl rfl (h.entries.trans hkept.nodes.length_eq.symm)
  · obtain ⟨he, mp, -, -, hleft⟩ := hinserted
    refine h.of_steady hsteady rfl rfl ?_
    rw [hleft.nodes.length_eq, List.length_cons, ← h.entries]
    rfl

theorem replaceSection_sized {old : Option D} (h : ht.Sized)
    (hsection : replaceSection G ht key data a = some (ht', old)) : ht'.Sized := by
  have hsteady := replaceSection_steady hsection
  rcases replaceSection_cases hsection with ⟨hold, hupdated⟩ | ⟨rfl, hinserted⟩
  · obtain ⟨he, rest, hsplit, hleft⟩ := hupdated
    obtain ⟨d, rfl⟩ := Option.ne_none_iff_exists'.mp hold
    refine h.of_steady hsteady rfl rfl ?_
    change ht.entries = _
    rw [hleft.nodes.length_eq, h.entries, hsplit.length_eq]
    rfl
  · obtain ⟨he, mp, -, -, hleft⟩ := hinserted
    refine h.of_steady hsteady rfl rfl ?_
    rw [hleft.nodes.length_eq, List.length_cons, ← h.entries]
    rfl

/-- The section of a deletion counts an entry that it has taken out. -/
theorem deleteSection_sized {old : Option D} (h : ht.Sized)
    (hsection : deleteSection L ht key = some (ht', old)) : ht'.Sized := by
  have hsteady := deleteSection_steady hsection
  rcases deleteSection_cases hsection with ⟨hold, hremoved⟩ | ⟨rfl, hkept⟩
  · obtain ⟨he, rest, mp, hsplit, -, -, hleft⟩ := hremoved
    obtain ⟨d, rfl⟩ := Option.ne_none_iff_exists'.mp hold
    refine h.of_steady hsteady rfl rfl ?_
    change sizePred ht.entries = _
    rw [hleft.nodes.length_eq, h.entries, hsplit.length_eq]
    rfl
  · exact h.of_steady hsteady rfl rfl (h.entries.trans hkept.nodes.length_eq.symm)

/-- Whatever allocations fail, a call keeps size and entry count right. -/
theorem perform_sized [FloatOps R] (h : ht.Sized) {reply : Reply D}
    (hperform : perform G ht a op = some (ht', reply)) : ht'.Sized := by
  cases op with
  | search arg data =>
      obtain ⟨key, ht₁, hf, written, -, hsection, hrehash, -⟩ := perform_search_cases hperform
      exact (searchSection_sized h hsection).resized hrehash
  | find arg =>
      obtain ⟨key, -, hfind⟩ := Option.bind_eq_some_iff.mp hperform
      obtain ⟨⟨ht₁, found⟩, hsection, hresult⟩ := Option.bind_eq_some_iff.mp hfind
      obtain ⟨rfl, -⟩ := Prod.mk.inj (Option.some.inj hresult)
      exact h.of_steady (findSection_steady hsection) rfl rfl
        (h.entries.trans (findSection_cases hsection).nodes.length_eq.symm)
  | replace arg data =>
      obtain ⟨key, ht₁, old, -, hsection, hrehash, -⟩ := perform_replace_cases hperform
      exact (replaceSection_sized h hsection).resized hrehash
  | delete arg =>
      obtain ⟨key, ht₁, old, -, hsection, hrehash, -⟩ := perform_delete_cases hperform
      exact (deleteSection_sized h hsection).resized hrehash
  | rehash =>
      obtain ⟨ht₁, hrehash, hresult⟩ := Option.bind_eq_some_iff.mp hperform
      obtain ⟨rfl, -⟩ := Prod.mk.inj (Option.some.inj hresult)
      exact h.resized (b := true) hrehash
  | keys fast =>
      obtain ⟨⟨ht₁, result⟩, hkeys, hresult⟩ := Option.bind_eq_some_iff.mp hperform
      obtain ⟨rfl, -⟩ := Prod.mk.inj (Option.some.inj hresult)
      obtain ⟨m, -, hleft⟩ := hashKeys_cases hkeys
      exact h.of_steady (hashKeys_steady hkeys) rfl rfl
        (h.entries.trans hleft.nodes.length_eq.symm)
  | sethashfunction hf =>
      rw [perform, hashSethashfunction] at hperform
      split_ifs at hperform
      · obtain ⟨rfl, -⟩ := Prod.mk.inj (Option.some.inj hperform)
        exact h
      · obtain ⟨rfl, -⟩ := Prod.mk.inj (Option.some.inj hperform)
        exact ⟨h.pos, h.entries, h.width⟩
  | setthresholds low high =>
      obtain ⟨rfl, -⟩ := Prod.mk.inj (Option.some.inj hperform)
      exact hashSetthresholds_sized h low high
  | setflags _ | setflag _ | clearflag _ =>
      obtain ⟨ht₁, hwrite, hresult⟩ := Option.bind_eq_some_iff.mp hperform
      obtain ⟨rfl, -⟩ := Prod.mk.inj (Option.some.inj hresult)
      obtain ⟨ht₂, hlock, hresult⟩ := Option.bind_eq_some_iff.mp hwrite
      obtain rfl := Option.some.inj hresult
      obtain ⟨b, rfl⟩ := lockHash_cases hlock
      obtain ⟨b', hb'⟩ := unlockHash_cases { ht with locked := b, flags := _ }
      rw [hb']
      exact ⟨h.pos, h.entries, h.width⟩

theorem hashNew_sized [FloatOps R] {size : BitVec 32} {lock : Bool} {flags : BitVec 32}
    {boot : NewAlloc} (hnew : hashNew size lock flags boot = some (some ht)) : ht.Sized := by
  rw [hashNew] at hnew
  obtain ⟨ns, hns, hrest⟩ := Option.bind_eq_some_iff.mp hnew
  obtain ⟨n, hn, hpow, -⟩ := hashSize_least hns
  have hsigned := signExtend_pow hpow hn
  split_ifs at hrest
  · simp at hrest
  obtain rfl := Option.some.inj (Option.some.inj hrest)
  refine ⟨?_, ?_, ?_⟩
  · change 0 < (ns.signExtend 64).toNat
    rw [hsigned]
    split_ifs
    · exact Nat.two_pow_pos n
    · norm_num
  · by_cases hcalloc : (boot.buckets && decide ((ns.signExtend 64).toNat * ptrSize < sizeModulus)) =
        true
    · simp [nodes, chains, hcalloc]
    · simp [nodes, chains, hcalloc]
  · intro w hw
    by_cases hcalloc : (boot.buckets && decide ((ns.signExtend 64).toNat * ptrSize < sizeModulus)) =
        true
    · have hfits : (ns.signExtend 64).toNat * ptrSize < sizeModulus := by
        rw [Bool.and_eq_true, decide_eq_true_eq] at hcalloc
        exact hcalloc.2
      refine ⟨?_, n, hn, signExtend_size hpow hfits⟩
      simpa [HashTable.width, hcalloc, eq_comm] using hw
    · simp [HashTable.width, hcalloc] at hw

/-- Any calls of a new table. -/
theorem exec_sized [FloatOps R] {ht₀ : HashTable R D} {calls : List (Op R D × Alloc)}
    (h : ht.Sized) (hexec : (server G ht₀).exec ht calls = some ht') : ht'.Sized := by
  induction calls generalizing ht with
  | nil =>
      obtain rfl := Option.some.inj hexec
      exact h
  | cons call calls ih =>
      obtain ⟨ht₁, hstep, hrest⟩ := Option.bind_eq_some_iff.mp hexec
      obtain ⟨⟨ht₂, reply⟩, hperform, rfl⟩ := Option.map_eq_some_iff.mp hstep
      exact ih (perform_sized h hperform) hrest

/-- A deletion that finds nothing leaves the buckets alone under the lock. -/
theorem deleteSection_missed (hsection : deleteSection L ht key = some (ht', none)) :
    ht'.buckets = ht.buckets ∧ ht.buckets ≠ none := by
  obtain ⟨ht₁, hlock, hrest⟩ := Option.bind_eq_some_iff.mp hsection
  obtain ⟨b, rfl⟩ := lockHash_cases hlock
  obtain ⟨c, hc, hrest⟩ := Option.bind_eq_some_iff.mp hrest
  obtain ⟨⟨before, found⟩, -, hrest⟩ := Option.bind_eq_some_iff.mp hrest
  cases found with
  | cons hr after =>
      obtain ⟨mp, -, hresult⟩ := Option.bind_eq_some_iff.mp hrest
      cases (Prod.mk.inj (Option.some.inj hresult)).2
  | nil =>
      obtain ⟨rfl, -⟩ := Prod.mk.inj (Option.some.inj hrest)
      obtain ⟨b', hb'⟩ := unlockHash_cases { ht with locked := b }
      rw [hb']
      obtain ⟨bs, hbs, -⟩ := Option.bind_eq_some_iff.mp hc
      exact ⟨rfl, fun hnone => by simp [hnone] at hbs⟩

/-! ## Growing -/

section Growing

variable {D : Type} {ht ht₁ ht' : HashTable ℚ D} {arg : KeyArg} {op : Op ℚ D} {w : Option D}

/-- An insertion that returns has made its load test last. -/
theorem Inserting.returns (hop : Inserting arg op)
    (hperform : perform G ht a op = some (ht', .value 1 w)) :
    ∃ ht₁, Steady ht.counted ht₁ ∧ rehashIf (crowded ht₁) ht₁ a = some ht' := by
  cases hop with
  | search data =>
      obtain ⟨key, ht₁, hf, written, -, hsection, hrehash, hreply⟩ :=
        perform_search_cases hperform
      obtain rfl : hf = true := by
        cases hf
        · simp at hreply
        · rfl
      exact ⟨ht₁, searchSection_steady hsection, hrehash⟩
  | replace data =>
      obtain ⟨key, ht₁, old, -, hsection, hrehash, hreply⟩ := perform_replace_cases hperform
      obtain rfl : old = none := by
        cases old
        · rfl
        · simp at hreply
      exact ⟨ht₁, replaceSection_steady hsection, hrehash⟩

/-- One entry more fits the size, or the least power of two from the truncated quotient on:
`hash_size` gives 2^k for a quotient below 2^k + 1. -/
def GrowthFits (ht : HashTable ℚ D) : Prop :=
  ((ht.entries + 1 : ℕ) : ℚ) ≤ ht.highMark * ht.size ∨
    ∀ k : ℕ, quotient ht.counted < 2 ^ k + 1 →
      ((ht.entries + 1 : ℕ) : ℚ) ≤ ht.highMark * (2 ^ k : ℕ)

theorem SameLoad.quotient_eq (h : SameLoad ht ht') : quotient ht' = quotient ht := by
  rw [quotient, quotient, h.entries, h.highMark, h.lowMark]

/-- The load of a table with buckets -/
theorem load_le_iff (hpos : 0 < ht.size) :
    (ht.entries : ℚ) / ht.size ≤ ht.highMark ↔ (ht.entries : ℚ) ≤ ht.highMark * ht.size :=
  div_le_iff₀ (by exact_mod_cast hpos)

/-- The load test after an insertion is enough if one entry more fits. -/
theorem grown_iff (hpos : 0 < ht.size) (hhigh : 0 < ht.highMark) (hfrozen : ht.frozen = false)
    (hsteady : Steady ht.counted ht₁) (hrehash : rehashIf (crowded ht₁) ht₁ a = some ht') :
    (ht'.entries : ℚ) / ht'.size ≤ ht'.highMark ↔ GrowthFits ht := by
  have hentries : (ht₁.entries : ℚ) = ((ht.entries + 1 : ℕ) : ℚ) := by rw [hsteady.entries]; rfl
  have hsize : ht₁.size = ht.size := hsteady.size
  have hmark : ht₁.highMark = ht.highMark := hsteady.highMark
  have hpos₁ : 0 < ht₁.size := by rw [hsize]; exact hpos
  have hload := load_le_iff hpos₁
  have hcrowded : crowded ht₁ = decide (ht₁.highMark < (ht₁.entries : ℚ) / ht₁.size) := by
    have hfrozen₁ : ht₁.frozen = false := by
      rw [frozen, hsteady.flags]
      exact hfrozen
    rw [crowded, hfrozen₁]
    rfl
  by_cases hfull : ht₁.highMark < (ht₁.entries : ℚ) / ht₁.size
  · have hover : ¬ ((ht.entries + 1 : ℕ) : ℚ) ≤ ht.highMark * ht.size := by
      rw [← hentries, ← hmark, ← hsize, ← hload, not_le]
      exact hfull
    rw [hcrowded, decide_eq_true hfull] at hrehash
    obtain ⟨s, ns, hs, hns, hscaled⟩ := hashRehash_scales hrehash
    obtain ⟨n, -, hpow, hle, hleast⟩ := hashSize_least hns
    obtain ⟨hfloor, hlt⟩ := toNat_target hs
    rw [hsteady.toSameLoad.quotient_eq] at hfloor hlt
    have hsize' : ht'.size = 2 ^ n := hscaled.size.trans hpow
    rw [load_le_iff (by rw [hsize']; exact Nat.two_pow_pos n), hscaled.entries, hscaled.highMark,
      hsize', hentries, hmark, GrowthFits, or_iff_right hover]
    constructor
    · intro hfits k hk
      have hnk : n ≤ k := by
        have hcast : (s.toNat : ℚ) < ((2 ^ k + 1 : ℕ) : ℚ) := by
          push_cast
          exact lt_of_le_of_lt hfloor hk
        exact hleast k (Nat.le_of_lt_succ (by exact_mod_cast hcast))
      have hpowle : ((2 ^ n : ℕ) : ℚ) ≤ (2 ^ k : ℕ) := by
        exact_mod_cast Nat.pow_le_pow_right (by omega) hnk
      exact hfits.trans (mul_le_mul_of_nonneg_left hpowle hhigh.le)
    · intro hfits
      refine hfits n (lt_of_lt_of_le hlt ?_)
      have hcast : (s.toNat : ℚ) ≤ ((2 ^ n : ℕ) : ℚ) := by exact_mod_cast hle
      push_cast at hcast
      linarith
  · have hfits : ((ht.entries + 1 : ℕ) : ℚ) ≤ ht.highMark * ht.size := by
      rw [← hentries, ← hmark, ← hsize, ← hload]
      exact not_lt.mp hfull
    rw [hcrowded, decide_eq_false hfull] at hrehash
    obtain rfl := Option.some.inj hrehash
    rw [hload, hentries, hmark, hsize]
    exact ⟨fun _ => .inl hfits, fun _ => hfits⟩

/-- The insertions that leave too much are those for which cutting the quotient cuts it to a
power of two. -/
theorem growthFits_iff (hlow : 0 < ht.lowMark) (hmarks : ht.lowMark ≤ ht.highMark)
    (hfits : (ht.entries + 1) * 2 < sizeModulus) :
    GrowthFits ht ↔ ((ht.entries + 1 : ℕ) : ℚ) ≤ ht.highMark * ht.size ∨
      ∀ k : ℕ, (2 ^ k : ℕ) < quotient ht.counted → quotient ht.counted < 2 ^ k + 1 →
        ((ht.entries + 1 : ℕ) : ℚ) ≤ ht.highMark * (2 ^ k : ℕ) := by
  refine or_congr_right ⟨fun h k _ hk => h k hk, fun h k hk => ?_⟩
  by_cases hcut : ((2 ^ k : ℕ) : ℚ) < quotient ht.counted
  · exact h k hcut hk
  · have hquotient : quotient ht.counted = ((ht.entries + 1) * 2 : ℕ) / (ht.highMark + ht.lowMark) := by
      rw [quotient]
      change (((ht.entries + 1) * 2 % sizeModulus : ℕ) : ℚ) / _ = _
      rw [Nat.mod_eq_of_lt hfits]
      rfl
    rw [not_lt, hquotient, div_le_iff₀ (by linarith)] at hcut
    have hmul : (2 ^ k : ℕ) * (ht.highMark + ht.lowMark) ≤ (2 ^ k : ℕ) * (2 * ht.highMark) :=
      mul_le_mul_of_nonneg_left (by linarith) (Nat.cast_nonneg _)
    push_cast at hcut hmul ⊢
    linarith

/-- The load after an insertion into a table that any calls have made of a new one. -/
theorem growth_bound_iff {size : BitVec 32} {lock : Bool} {flags : BitVec 32} {boot : NewAlloc}
    {ht₀ : HashTable ℚ D} (hnew : hashNew size lock flags boot = some (some ht₀))
    {calls : List (Op ℚ D × Alloc)} (hexec : (server G ht₀).exec ht₀ calls = some ht)
    (hlow : 0 < ht.lowMark) (hmarks : ht.lowMark ≤ ht.highMark) (hfrozen : ht.frozen = false)
    (hop : Inserting arg op) (hperform : perform G ht a op = some (ht', .value 1 w)) :
    (ht'.entries : ℚ) / ht'.size ≤ ht'.highMark ↔ GrowthFits ht := by
  obtain ⟨ht₁, hsteady, hrehash⟩ := hop.returns hperform
  exact grown_iff (exec_sized (hashNew_sized hnew) hexec).pos (lt_of_lt_of_le hlow hmarks) hfrozen
    hsteady hrehash

/-- The table of `hash_new(1, 1, 0)` with an entry. -/
def entered : HashTable ℚ ℕ × Reply ℕ :=
  (perform entryGeometry smallTable (served 4096) (.search (text [97]) 1)).get (by decide +kernel)

theorem entered_eq :
    perform entryGeometry smallTable (served 4096) (.search (text [97]) 1) =
      some (entered.1, .value 1 (some 1)) := by
  have hreply : entered.2 = .value 1 (some 1) := by decide +kernel
  rw [← hreply]
  exact (Option.some_get _).symm

theorem entered_bound : (entered.1.entries : ℚ) / entered.1.size ≤ entered.1.highMark := by
  have hquotient : quotient smallTable.counted = 2 := by decide +kernel
  have hmark : smallTable.highMark = 7 / 10 := rfl
  refine (growth_bound_iff smallTable_new (Machine.exec_nil smallTable) (by decide +kernel)
    (by decide +kernel) (by decide) (.search 1) entered_eq).mpr (.inr fun k hk => ?_)
  cases k with
  | zero => norm_num [hquotient] at hk
  | succ k =>
      have hpow : (1 : ℚ) ≤ 2 ^ k := one_le_pow₀ (by norm_num)
      rw [hmark, show smallTable.entries = 0 from rfl]
      push_cast [pow_succ]
      linarith

/-- Four entries in sixteen buckets, with marks of 3/10. -/
def levelled : HashTable ℚ ℕ :=
  ((server entryGeometry smallTable).exec
    ((hashNew 16 true 0 ⟨true, true, true⟩).join.get (by decide +kernel))
    [(.setthresholds (3 / 10) (3 / 10), served 0), (.search (text [97]) 1, served 4096),
      (.search (text [98]) 2, served 0), (.search (text [99]) 3, served 0),
      (.search (text [100]) 4, served 0)]).get (by decide +kernel)

/-- The fifth one makes `hash_rehash` ask for sixteen buckets instead of seventeen. -/
theorem growth_not_bounded : levelled.frozen = false ∧ levelled.lowMark = 3 / 10 ∧
    levelled.highMark = 3 / 10 ∧
    ∃ ht', perform entryGeometry levelled (served 0) (.search (text [101]) 5) =
        some (ht', .value 1 (some 5)) ∧
      ¬ (ht'.entries : ℚ) / ht'.size ≤ ht'.highMark := by
  refine ⟨by decide +kernel, by decide +kernel, by decide +kernel, ?_⟩
  have hperform : (perform entryGeometry levelled (served 0) (.search (text [101]) 5)).map
      (fun r => (r.2, decide ((r.1.entries : ℚ) / r.1.size ≤ r.1.highMark))) =
      some (.value 1 (some 5), false) := by decide +kernel
  obtain ⟨⟨ht', reply⟩, hsome, hpair⟩ := Option.map_eq_some_iff.mp hperform
  obtain ⟨rfl, hbound⟩ := Prod.mk.inj hpair
  exact ⟨ht', hsome, of_decide_eq_false hbound⟩

end Growing

end ThreeW3.Hash
