/-
# Table sizes

`hash_size` gives the least power of two from its argument on, if that is no more than
2^31, and otherwise it does not end. `hash_new` takes the argument from a signed integer,
and puts the size through one. `hash_rehash` takes it from a quotient. Neither looks at
what it takes.
-/

import Mathlib.Tactic.Linarith
import ThreeW3.Hash.Changes

namespace ThreeW3.Hash

open ThreeW3.Lib ThreeW3.Pool HashTable

/-! ## `hash_size` -/

theorem hashSizeLoop_least {s ns : BitVec 32} (hs : s.toNat ≤ 2 ^ 31) {fuel j : ℕ} {i : BitVec 32}
    (hj : j ≤ 31) (hi : i.toNat = 2 ^ j) (hleast : ∀ k, s.toNat ≤ 2 ^ k → j ≤ k)
    (hloop : hashSizeLoop s fuel i = some ns) :
    ∃ n ≤ 31, ns.toNat = 2 ^ n ∧ s.toNat ≤ 2 ^ n ∧ ∀ k, s.toNat ≤ 2 ^ k → n ≤ k := by
  induction fuel generalizing j i with
  | zero => cases hloop
  | succ fuel ih =>
      rw [hashSizeLoop] at hloop
      split_ifs at hloop with hlt
      · have hlt' : 2 ^ j < s.toNat := by
          rw [← hi]
          exact hlt
        have hj31 : j < 31 := (Nat.pow_lt_pow_iff_right (by omega)).mp (lt_of_lt_of_le hlt' hs)
        refine ih (j := j + 1) (by omega) ?_ (fun k hk => ?_) hloop
        · have hpow : 2 ^ (j + 1) ≤ 2 ^ 31 := Nat.pow_le_pow_right (by omega) hj31
          rw [BitVec.toNat_shiftLeft, hi, Nat.shiftLeft_eq, ← pow_add, Nat.mod_eq_of_lt]
          omega
        · exact (Nat.pow_lt_pow_iff_right (by omega)).mp (lt_of_lt_of_le hlt' hk)
      · obtain rfl := Option.some.inj hloop
        refine ⟨j, hj, hi, ?_, hleast⟩
        rw [← hi]
        exact Nat.le_of_not_lt hlt

/-- `hash_size` gives the least power of two that is enough. -/
theorem hashSize_least {s ns : BitVec 32} (hsize : hashSize s = some ns) :
    ∃ n ≤ 31, ns.toNat = 2 ^ n ∧ s.toNat ≤ 2 ^ n ∧ ∀ k, s.toNat ≤ 2 ^ k → n ≤ k := by
  rcases Nat.lt_or_ge (2 ^ 31) s.toNat with hlarge | hle
  · have hnone : hashSize s = none := hashSizeLoop_none hlarge (j := 0) rfl 33
    simp [hsize] at hnone
  · exact hashSizeLoop_least hle (j := 0) (by omega) rfl (fun k _ => Nat.zero_le k) hsize

theorem hashSize_isSome_iff {s : BitVec 32} : (∃ ns, hashSize s = some ns) ↔ s.toNat ≤ 2 ^ 31 := by
  constructor
  · rintro ⟨ns, hsize⟩
    obtain ⟨n, hn, -, hle, -⟩ := hashSize_least hsize
    exact hle.trans (Nat.pow_le_pow_right (by omega) hn)
  · intro hle
    obtain ⟨n, -, ns, hns, -⟩ := hashSize_spec hle
    exact ⟨ns, hns⟩

/-! ## `hash_new` -/

section New

variable {R D : Type} [FloatOps R]

/-- What `hash_new` should do with a size: it ends, and a table that it returns has a power
of two of buckets, and enough of them. -/
def SizedNew (R D : Type) [FloatOps R] (size : BitVec 32) (lock : Bool) (flags : BitVec 32)
    (boot : NewAlloc) : Prop :=
  ∃ r : Option (HashTable R D), hashNew size lock flags boot = some r ∧
    ∀ ht ∈ r, ∃ n, ht.size = 2 ^ n ∧ size.toNat ≤ ht.size

/-- The size that `hash_new` stores, through an `int`. -/
theorem hashNew_size {size : BitVec 32} {lock : Bool} {flags : BitVec 32} {boot : NewAlloc}
    {ht : HashTable R D} (hnew : hashNew size lock flags boot = some (some ht)) :
    ∃ ns, hashSize size = some ns ∧ ht.size = (ns.signExtend 64).toNat := by
  rw [hashNew] at hnew
  obtain ⟨ns, hns, hrest⟩ := Option.bind_eq_some_iff.mp hnew
  split_ifs at hrest
  · simp at hrest
  obtain rfl := Option.some.inj (Option.some.inj hrest)
  exact ⟨ns, hns, rfl⟩

/-- Up to 2^30 the sign does not matter. -/
theorem signExtend_pow {ns : BitVec 32} {n : ℕ} (hns : ns.toNat = 2 ^ n) (hn : n ≤ 31) :
    (ns.signExtend 64).toNat = if n ≤ 30 then 2 ^ n else 2 ^ 64 - 2 ^ 31 := by
  split_ifs with hle
  · have hpow : 2 ^ n ≤ 2 ^ 30 := Nat.pow_le_pow_right (by omega) hle
    refine signExtend_size hns ?_
    have hmsb : ns.msb = false := by
      rw [BitVec.msb_eq_decide]
      exact decide_eq_false (by omega)
    rw [BitVec.toNat_signExtend, hmsb, BitVec.toNat_setWidth, ptrSize, sizeModulus]
    simp only [Bool.false_eq_true, if_false, Nat.add_zero]
    rw [Nat.mod_eq_of_lt (by omega)]
    omega
  · obtain rfl : n = 31 := by omega
    have hmsb : ns.msb = true := by
      rw [BitVec.msb_eq_decide]
      exact decide_eq_true (by omega)
    rw [BitVec.toNat_signExtend, hmsb, BitVec.toNat_setWidth, hns]
    norm_num

theorem two_pow_ne {n : ℕ} : 2 ^ n ≠ 2 ^ 64 - 2 ^ 31 := by
  intro heq
  rcases Nat.lt_or_ge n 64 with hn | hn
  · have hle : 2 ^ n ≤ 2 ^ 63 := Nat.pow_le_pow_right (by omega) (by omega)
    omega
  · have hle : 2 ^ 64 ≤ 2 ^ n := Nat.pow_le_pow_right (by omega) hn
    omega

/-- A table is returned if `hash_size` ends and there is memory for the table and its pool. -/
theorem hashNew_returns {size : BitVec 32} (lock : Bool) (flags : BitVec 32) {boot : NewAlloc}
    {ns : BitVec 32} (hns : hashSize size = some ns) (htable : boot.table = true)
    (hpool : boot.pool = true) :
    ∃ ht : HashTable R D, hashNew size lock flags boot = some (some ht) := by
  rw [hashNew, hns]
  simp only [htable, hpool, Option.bind_eq_bind, Option.bind_some, Bool.not_true, Bool.false_eq_true,
    if_false]
  exact ⟨_, rfl⟩

/-- `hash_new` with a size -/
theorem sizedNew_iff {size : BitVec 32} {lock : Bool} {flags : BitVec 32} {boot : NewAlloc}
    (hpool : boot.table = true → boot.pool = true) :
    SizedNew R D size lock flags boot ↔
      size.toNat ≤ 2 ^ 30 ∨ (boot.table = false ∧ size.toNat ≤ 2 ^ 31) := by
  cases hns : hashSize size with
  | none =>
      have hlarge : ¬ size.toNat ≤ 2 ^ 31 := by
        rw [← hashSize_isSome_iff, hns]
        simp
      constructor
      · rintro ⟨r, hnew, -⟩
        rw [hashNew, hns] at hnew
        cases hnew
      · rintro (hsmall | ⟨-, hsmall⟩) <;> omega
  | some ns =>
      obtain ⟨n, hn, hpow, hle, hleast⟩ := hashSize_least hns
      have hsize : size.toNat ≤ 2 ^ 31 := hashSize_isSome_iff.mp ⟨ns, hns⟩
      cases htable : boot.table with
      | false =>
          refine ⟨fun _ => .inr ⟨rfl, hsize⟩, fun _ => ⟨none, ?_, by simp⟩⟩
          rw [hashNew, hns]
          simp [htable]
      | true =>
          obtain ⟨ht, hnew⟩ := hashNew_returns (R := R) (D := D) lock flags hns htable (hpool htable)
          have hsigned : ht.size = if n ≤ 30 then 2 ^ n else 2 ^ 64 - 2 ^ 31 := by
            obtain ⟨ns', hns', hsize'⟩ := hashNew_size hnew
            obtain rfl := Option.some.inj (hns.symm.trans hns')
            rw [hsize', signExtend_pow hpow hn]
          constructor
          · rintro ⟨r, hr, hall⟩
            obtain rfl := Option.some.inj (hnew.symm.trans hr)
            obtain ⟨m, hm, -⟩ := hall ht rfl
            rw [hsigned] at hm
            split_ifs at hm with hle30
            · exact .inl (hle.trans (Nat.pow_le_pow_right (by omega) hle30))
            · exact absurd hm.symm two_pow_ne
          · rintro (hsmall | ⟨hfalse, -⟩)
            · refine ⟨some ht, hnew, fun ht' hht' => ?_⟩
              obtain rfl := Option.some.inj hht'
              rw [hsigned, if_pos (hleast 30 hsmall)]
              exact ⟨n, rfl, hle⟩
            · cases hfalse

end New

/-! ## `hash_rehash` -/

section Scaling

variable {R D : Type} {ht ht' : HashTable R D} {a : Alloc}

/-- The same entries and settings, with this many buckets. A table that had as many keeps
its bucket array. -/
structure Rescaled (ht : HashTable R D) (ns : ℕ) (ht' : HashTable R D) : Prop where
  size : ht'.size = ns
  entries : ht'.entries = ht.entries
  flags : ht'.flags = ht.flags
  highMark : ht'.highMark = ht.highMark
  lowMark : ht'.lowMark = ht.lowMark
  same : ns = ht.size → ht'.buckets = ht.buckets
  width : ns ≠ ht.size → ∀ b ∈ ht'.buckets, b.2.length = ns

theorem Rescaled.unlock {ns : ℕ} (h : Rescaled ht ns ht') : Rescaled ht ns ht'.unlockHash := by
  obtain ⟨b, hb⟩ := unlockHash_cases ht'
  rw [hb]
  exact ⟨h.size, h.entries, h.flags, h.highMark, h.lowMark, h.same, h.width⟩

/-- The loops of `hash_rehash` fill the array that they are given. -/
theorem moveEntries_length {ns : ℕ} {nb nb' : Option (Address × List (List (HashEntry D)))}
    {c : List (HashEntry D)} (hwidth : ∀ b ∈ nb, b.2.length = ns)
    (hfold : c.foldlM (moveEntry ht ns) nb = some nb') : ∀ b ∈ nb', b.2.length = ns := by
  induction c generalizing nb with
  | nil =>
      obtain rfl := Option.some.inj hfold
      exact hwidth
  | cons he c ih =>
      rw [List.foldlM_cons] at hfold
      obtain ⟨nb₁, hmove, hrest⟩ := Option.bind_eq_some_iff.mp hfold
      obtain ⟨⟨addr, bs⟩, hnb, hmoved⟩ := Option.bind_eq_some_iff.mp hmove
      obtain ⟨k, -, hkeyed⟩ := Option.bind_eq_some_iff.mp hmoved
      obtain ⟨d, -, hresult⟩ := Option.bind_eq_some_iff.mp hkeyed
      obtain rfl := Option.some.inj hresult
      refine ih (fun b hb => ?_) hrest
      obtain rfl := Option.some.inj hb
      rw [List.length_set]
      exact hwidth (addr, bs) hnb

theorem hashRehash_scales [FloatOps R] (hrehash : hashRehash ht a = some ht') :
    ∃ s ns, rehashTarget ht = some s ∧ hashSize s = some ns ∧ Rescaled ht ns.toNat ht' := by
  obtain ⟨ht₁, hlock, hlocked⟩ := Option.bind_eq_some_iff.mp hrehash
  obtain ⟨s, hs, htarget⟩ := Option.bind_eq_some_iff.mp hlocked
  obtain ⟨ns, hns, hsized⟩ := Option.bind_eq_some_iff.mp htarget
  obtain ⟨b, rfl⟩ := lockHash_cases hlock
  refine ⟨s, ns, hs, hns, ?_⟩
  dsimp only at hsized
  split_ifs at hsized with hsize halloc
  · obtain rfl := Option.some.inj hsized
    exact Rescaled.unlock ⟨hsize.symm, rfl, rfl, rfl, rfl, fun _ => rfl, fun hne => absurd hsize hne⟩
  all_goals
    obtain ⟨⟨addr, bs⟩, hbuckets, hfolded⟩ := Option.bind_eq_some_iff.mp hsized
    obtain ⟨nb, hfold, hresult⟩ := Option.bind_eq_some_iff.mp hfolded
    obtain rfl := Option.some.inj hresult
    refine Rescaled.unlock ⟨rfl, rfl, rfl, rfl, rfl, fun heq => absurd heq hsize, fun _ => ?_⟩
    refine moveEntries_length ?_ hfold
  · intro b hb
    obtain rfl := Option.some.inj hb
    exact List.length_replicate
  · simp

end Scaling

section Rehash

variable {D : Type} {ht : HashTable ℚ D} {a : Alloc}

/-- `ht->entries * 2 / (ht->high_mark + ht->low_mark)` -/
def quotient (ht : HashTable ℚ D) : ℚ :=
  ((ht.entries * 2 % sizeModulus : ℕ) : ℚ) / (ht.highMark + ht.lowMark)

/-- The quotient is cut to an integer. -/
theorem toNat_target {s : BitVec 32} (hs : rehashTarget ht = some s) :
    (s.toNat : ℚ) ≤ quotient ht ∧ quotient ht < s.toNat + 1 := by
  change (if 0 ≤ quotient ht ∧ quotient ht < 0x100000000 then
    some (BitVec.ofInt 32 (quotient ht).floor) else none) = some s at hs
  split_ifs at hs with hrange
  obtain rfl := Option.some.inj hs
  have hnonneg : 0 ≤ (quotient ht).floor := Rat.le_floor_iff.mpr (by exact_mod_cast hrange.1)
  have hlt : (quotient ht).floor < 0x100000000 := Rat.floor_lt_iff.mpr (by exact_mod_cast hrange.2)
  have hnat : ((BitVec.ofInt 32 (quotient ht).floor).toNat : ℤ) = (quotient ht).floor := by
    rw [BitVec.toNat_ofInt]
    omega
  have hcast : ((BitVec.ofInt 32 (quotient ht).floor).toNat : ℚ) = ((quotient ht).floor : ℚ) := by
    exact_mod_cast hnat
  rw [hcast]
  exact ⟨Rat.floor_le _, by exact_mod_cast Rat.lt_floor_add_one (quotient ht)⟩

theorem target_isSome (hnonneg : 0 ≤ quotient ht) (hlt : quotient ht < 2 ^ 32) :
    ∃ s, rehashTarget ht = some s := by
  refine ⟨BitVec.ofInt 32 (quotient ht).floor, if_pos ⟨hnonneg, ?_⟩⟩
  change quotient ht < 0x100000000
  norm_num at hlt ⊢
  exact hlt

/-- What `hash_rehash` should do: it divides, the quotient is an `unsigned int`, and it ends
with a power of two of buckets, and enough of them. -/
structure SizedRehash (ht : HashTable ℚ D) (a : Alloc) : Prop where
  divides : ht.highMark + ht.lowMark ≠ 0
  fits : rehashTarget ht ≠ none
  ends : ∃ ht', hashRehash ht a = some ht' ∧
    ∃ n, ht'.size = 2 ^ n ∧ ∀ s ∈ rehashTarget ht, s.toNat ≤ ht'.size

/-- `hash_rehash` with marks that are not negative -/
theorem sizedRehash_iff (hshape : ht.Shape) (hfree : ht.locked = false) (ha : a.buckets = true)
    (hlow : 0 ≤ ht.lowMark) (hmarks : ht.lowMark ≤ ht.highMark) :
    SizedRehash ht a ↔ ht.highMark + ht.lowMark ≠ 0 ∧ quotient ht < 2 ^ 31 + 1 := by
  constructor
  · rintro ⟨hdivides, -, ht', hrehash, -⟩
    obtain ⟨s, ns, hs, hns, -⟩ := hashRehash_scales hrehash
    have hle : (s.toNat : ℚ) ≤ 2 ^ 31 := by exact_mod_cast hashSize_isSome_iff.mp ⟨ns, hns⟩
    exact ⟨hdivides, lt_of_lt_of_le (toNat_target hs).2 (by linarith)⟩
  · rintro ⟨hdivides, hlt⟩
    have hnonneg : 0 ≤ quotient ht := by
      exact div_nonneg (Nat.cast_nonneg _) (by linarith)
    obtain ⟨s, hs⟩ := target_isSome hnonneg (lt_of_lt_of_le hlt (by norm_num))
    have hle : s.toNat ≤ 2 ^ 31 := by
      have hcast : (s.toNat : ℚ) < (2 ^ 31 + 1 : ℕ) :=
        lt_of_le_of_lt (toNat_target hs).1 (hlt.trans_eq (by norm_num))
      exact Nat.le_of_lt_succ (by exact_mod_cast hcast)
    obtain ⟨ht', hrehash, -⟩ := hashRehash_spec hshape hfree ⟨s, hs, hle⟩ ha
    obtain ⟨s', ns, hs', hns, hscaled⟩ := hashRehash_scales hrehash
    obtain rfl := Option.some.inj (hs.symm.trans hs')
    obtain ⟨n, -, hpow, henough, -⟩ := hashSize_least hns
    refine ⟨hdivides, by simp [hs], ht', hrehash, n, hscaled.size.trans hpow, fun s' hs' => ?_⟩
    obtain rfl := Option.some.inj (hs.symm.trans hs')
    rw [hscaled.size, hpow]
    exact henough

end Rehash

/-! ## Marks -/

section Marks

variable {D : Type}

/-- Calls of `hash_setthresholds`, one after another. -/
def setAll (ht : HashTable ℚ D) (settings : List (ℚ × ℚ)) : HashTable ℚ D :=
  settings.foldl (fun ht s => (hashSetthresholds ht s.1 s.2).1) ht

/-- Accepted marks are in order, and nothing else changes. -/
theorem hashSetthresholds_marks {ht : HashTable ℚ D} (hlow : 0 ≤ ht.lowMark)
    (hmarks : ht.lowMark ≤ ht.highMark) (low high : ℚ) :
    ∃ l h, (hashSetthresholds ht low high).1 = { ht with highMark := h, lowMark := l } ∧
      0 ≤ l ∧ l ≤ h := by
  rw [hashSetthresholds]
  have hl : 0 ≤ if FloatOps.lt low FloatOps.zero then ht.lowMark else low := by
    split_ifs with hneg
    · exact hlow
    · simpa [FloatOps.lt, FloatOps.zero] using hneg
  generalize (if FloatOps.lt low FloatOps.zero then ht.lowMark else low) = l at hl
  generalize (if FloatOps.lt high FloatOps.zero then ht.highMark else high) = h
  split_ifs with hlt
  · exact ⟨ht.lowMark, ht.highMark, rfl, hlow, hmarks⟩
  · exact ⟨l, h, rfl, hl, by simpa [FloatOps.lt] using hlt⟩

theorem setAll_marks {ht : HashTable ℚ D} (hlow : 0 ≤ ht.lowMark)
    (hmarks : ht.lowMark ≤ ht.highMark) (settings : List (ℚ × ℚ)) :
    ∃ l h, setAll ht settings = { ht with highMark := h, lowMark := l } ∧ 0 ≤ l ∧ l ≤ h := by
  induction settings generalizing ht with
  | nil => exact ⟨ht.lowMark, ht.highMark, rfl, hlow, hmarks⟩
  | cons s settings ih =>
      obtain ⟨l₁, h₁, hstep, hl₁, hlh₁⟩ := hashSetthresholds_marks hlow hmarks s.1 s.2
      obtain ⟨l, h, hrest, hl, hlh⟩ := @ih { ht with highMark := h₁, lowMark := l₁ } hl₁ hlh₁
      refine ⟨l, h, ?_, hl, hlh⟩
      rw [setAll, List.foldl_cons, hstep]
      exact hrest

/-- `hash_new` and `hash_rehash` size tables as they should in the range of `hash_size` only. -/
theorem sizing_iff {R : Type} [FloatOps R] {size : BitVec 32} {lock : Bool} {flags : BitVec 32}
    {boot : NewAlloc} (hpool : boot.table = true → boot.pool = true) {ht : HashTable ℚ D}
    (hshape : ht.Shape) (hfree : ht.locked = false) (hhigh : ht.highMark = FloatOps.highMark)
    (hlow : ht.lowMark = FloatOps.lowMark) (settings : List (ℚ × ℚ)) {a : Alloc}
    (ha : a.buckets = true) :
    (SizedNew R D size lock flags boot ↔
      size.toNat ≤ 2 ^ 30 ∨ (boot.table = false ∧ size.toNat ≤ 2 ^ 31)) ∧
    (SizedRehash (setAll ht settings) a ↔
      (setAll ht settings).highMark + (setAll ht settings).lowMark ≠ 0 ∧
        quotient (setAll ht settings) < 2 ^ 31 + 1) := by
  refine ⟨sizedNew_iff hpool, ?_⟩
  have hdefault : 0 ≤ ht.lowMark ∧ ht.lowMark ≤ ht.highMark := by
    rw [hhigh, hlow]
    norm_num [FloatOps.lowMark, FloatOps.highMark]
  obtain ⟨l, h, hset, hl, hlh⟩ := setAll_marks hdefault.1 hdefault.2 settings
  rw [hset]
  refine sizedRehash_iff ?_ hfree ha hl hlh
  exact ⟨hshape.buckets, hshape.length, hshape.pow, hshape.placed, hshape.keyed, hshape.nodup,
    hshape.entries⟩

/-- Two entries. -/
def stocked : List (Op ℚ ℕ × Alloc) :=
  [(.search (text [97]) 1, served 4096), (.search (text [98]) 2, served 0)]

/-- A table with these entries. -/
def stockedTable : HashTable ℚ ℕ :=
  ((machine entryGeometry smallTable).exec smallTable stocked).get (by decide +kernel)

theorem stockedTable_ok : stockedTable.Ok entryGeometry ∧ stockedTable.locked = false := by
  have hvalid : (machine entryGeometry smallTable).Valid smallTable stocked := by decide +kernel
  have hsafe : (machine entryGeometry smallTable).AllSteps (fun ht call => call.1.Safe lp64 ht)
      smallTable stocked := by decide +kernel
  obtain ⟨hok, -, hfree⟩ := hashNew_spec (G := entryGeometry) smallTable_new (by decide)
  obtain ⟨⟨ht, hexec, hkept⟩, -⟩ := Machine.run_invariant (M := machine entryGeometry smallTable)
    perform_keeps ⟨hok, hfree⟩ hvalid hsafe
  obtain rfl : stockedTable = ht := Option.some.inj ((Option.some_get _).trans hexec)
  exact hkept

/-- Other marks for them. -/
theorem stockedTable_sized :
    SizedNew ℚ ℕ 64 true 0 ⟨true, true, true⟩ ∧
      SizedRehash (setAll stockedTable [(1 / 4, 1 / 2), (-1, 3 / 4)]) (served 0) := by
  obtain ⟨hok, hfree⟩ := stockedTable_ok
  obtain ⟨hnew, hrehash⟩ := @sizing_iff ℕ ℚ _ 64 true 0 ⟨true, true, true⟩ (fun _ => rfl)
    stockedTable hok.toShape hfree (by decide +kernel) (by decide +kernel)
    [(1 / 4, 1 / 2), (-1, 3 / 4)] (served 0) rfl
  exact ⟨hnew.mpr (.inl (by decide)), hrehash.mpr (by decide +kernel)⟩

/-- A negative size makes `hash_size` loop for ever, the size for 2^30 + 1 loses its sign, and
marks of zero are divided by. -/
theorem sizes_not_checked :
    ¬ SizedNew ℚ ℕ (-1) true 0 ⟨true, true, true⟩ ∧
      ¬ SizedNew ℚ ℕ 0x40000001 true 0 ⟨true, true, true⟩ ∧
      ¬ SizedRehash (setAll smallTable [(0, 0)]) (served 0) := by
  refine ⟨?_, ?_, fun hsized => hsized.divides (by decide +kernel)⟩
  · rw [sizedNew_iff fun _ => rfl]
    decide
  · rw [sizedNew_iff fun _ => rfl]
    decide

end Marks

end ThreeW3.Hash
