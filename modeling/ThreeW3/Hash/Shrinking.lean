/-
# Shrinking

When a deletion leaves the load above the low mark or the size that `hash_rehash` would
choose. The load test and the sizes are computed in binary32, as `float` is.
-/

import ThreeW3.Hash.Loads
import ThreeW3.Lib.Binary32

namespace ThreeW3.Hash

open ThreeW3.Lib ThreeW3.Pool HashTable

instance : FloatOps Binary32 where
  ofSize n := .ratio n 1
  add := .add
  div := .div
  lt := Binary32.lt
  toUnsigned := Binary32.truncate 32
  zero := .ratio 0 1
  highMark := .ratio 7 10
  lowMark := .ratio 3 10

section Law

variable {R D : Type} [FloatOps R]

/-- The size that `hash_rehash` would choose. -/
def chosenSize (ht : HashTable R D) : Option ℕ :=
  ((rehashTarget ht).bind hashSize).map BitVec.toNat

/-- The load is not below the low mark, or the size is the one to choose. -/
def Shrunk (ht : HashTable R D) : Prop :=
  FloatOps.lt (loadFactor ht) ht.lowMark = false ∨ chosenSize ht = some ht.size

instance (ht : HashTable R D) : Decidable (Shrunk ht) := inferInstanceAs (Decidable (_ ∨ _))

end Law

/-- More entries than a quarter of the buckets, once the count is rounded to 24 digits, or one
bucket without an entry. -/
def Populated (entries size : ℕ) : Prop :=
  size * (2 ^ 24 + 1) < entries * 2 ^ 26 ∨ entries = 0 ∧ size = 1

variable {D : Type} {L : Layout} {G : Geometry L} {ht ht₁ ht' : HashTable Binary32 D} {key : Key}
  {a : Alloc} {arg : KeyArg} {old : Option D} {e n : ℕ}

instance (entries size : ℕ) : Decidable (Populated entries size) :=
  inferInstanceAs (Decidable (_ ∨ _))

/-! ## The default marks -/

theorem marks_sum :
    FloatOps.add (FloatOps.highMark : Binary32) FloatOps.lowMark = .ratio 1 1 := by
  decide +kernel

theorem lowMark_units :
    ∃ hu, (FloatOps.lowMark : Binary32) = .finite false (10066330 * 2 ^ 124) hu :=
  ⟨⟨by norm_num, 10066330, by norm_num, 124, rfl⟩, by decide +kernel⟩

/-- At most a quarter is below the low mark. -/
theorem load_low (hn : n ≤ 31) (h : e * 2 ^ 26 ≤ 2 ^ n * (2 ^ 24 + 1)) :
    Binary32.lt (.div (.ratio e 1) (.ratio (2 ^ n) 1)) FloatOps.lowMark = true := by
  obtain ⟨hu, hmark⟩ := lowMark_units
  have hcount : Binary32.AtMost (n + 147) (.ratio e 1) := by
    refine .round (by omega) (round24_le_pow_of_half Nat.one_pos (by omega) ?_)
    calc
      2 ^ 24 * (e * 2 ^ 149) = e * 2 ^ 26 * 2 ^ 147 := by ring
      _ ≤ 2 ^ n * (2 ^ 24 + 1) * 2 ^ 147 := Nat.mul_le_mul_right _ h
      _ = 1 * 2 ^ (n + 147) * (2 ^ 24 + 1) := by ring
  rw [hmark]
  exact (hcount.div_pow (by omega) (by norm_num)).lt (by norm_num)

/-- A half is not. -/
theorem load_high (hn : n ≤ 31) (h : 2 ^ n ≤ 2 * e) :
    Binary32.lt (.div (.ratio e 1) (.ratio (2 ^ n) 1)) FloatOps.lowMark = false := by
  obtain ⟨hu, hmark⟩ := lowMark_units
  have hcount : Binary32.AtLeast (n + 148) (.ratio e 1) := by
    refine .round (pow_le_round24 Nat.one_pos ?_)
    calc
      1 * 2 ^ (n + 148) = 2 ^ n * 2 ^ 148 := by ring
      _ ≤ 2 * e * 2 ^ 148 := Nat.mul_le_mul_right _ h
      _ = e * 2 ^ 149 := by ring
  rw [hmark]
  exact (hcount.div_pow (by omega)).not_lt (by norm_num)

/-- With the default marks `hash_rehash` asks for twice the entries, rounded. -/
theorem target_rounded (hhigh : ht.highMark = FloatOps.highMark)
    (hlow : ht.lowMark = FloatOps.lowMark) (hfits : ht.entries * 2 < sizeModulus) (hn : n ≤ 31)
    (h : round24 (ht.entries * 2 * 2 ^ 149) 1 ≤ 2 ^ n * 2 ^ 149) :
    ∃ s, rehashTarget ht = some s ∧ s.toNat * 2 ^ 149 = round24 (ht.entries * 2 * 2 ^ 149) 1 := by
  rw [rehashTarget, Nat.mod_eq_of_lt hfits, hhigh, hlow, marks_sum]
  exact Binary32.truncate_ratio (i := n) (by omega) (by omega) h

/-! ## The condition -/

/-- `hash_size` of what needs 2ⁿ. -/
theorem hashSize_eq_pow {s : BitVec 32} (hn : n ≤ 31) (hle : s.toNat ≤ 2 ^ n)
    (hleast : ∀ k, s.toNat ≤ 2 ^ k → n ≤ k) : (hashSize s).map BitVec.toNat = some (2 ^ n) := by
  obtain ⟨ns, hns⟩ := hashSize_isSome_iff.mpr (hle.trans (Nat.pow_le_pow_right (by norm_num) hn))
  obtain ⟨m, -, hpow, hm, hleast'⟩ := hashSize_least hns
  rw [hns, Option.map_some, hpow, le_antisymm (hleast' n hle) (hleast m hm)]

/-- From more than a quarter to a half, the size is the one to choose. -/
theorem chosenSize_of_many (hpow : ht.size = 2 ^ n) (hn : n ≤ 31)
    (hhigh : ht.highMark = FloatOps.highMark) (hlow : ht.lowMark = FloatOps.lowMark)
    (hmany : 2 ^ n * (2 ^ 24 + 1) < ht.entries * 2 ^ 26) (hhalf : 2 * ht.entries < 2 ^ n) :
    chosenSize ht = some ht.size := by
  have hle : round24 (ht.entries * 2 * 2 ^ 149) 1 ≤ 2 ^ n * 2 ^ 149 := by
    rw [← pow_add]
    refine round24_le_pow Nat.one_pos ?_
    rw [pow_add, Nat.one_mul]
    exact Nat.mul_le_mul_right _ (by omega)
  have hlt : 2 ^ (n + 148) < round24 (ht.entries * 2 * 2 ^ 149) 1 := by
    refine pow_lt_round24 Nat.one_pos (by omega) ?_
    calc
      1 * 2 ^ (n + 148) * (2 ^ 24 + 1) = 2 ^ n * (2 ^ 24 + 1) * 2 ^ 148 := by ring
      _ < ht.entries * 2 ^ 26 * 2 ^ 148 := Nat.mul_lt_mul_of_pos_right hmany (Nat.two_pow_pos _)
      _ = 2 ^ 24 * (ht.entries * 2 * 2 ^ 149) := by ring
  have hsmall : 2 ^ n ≤ 2 ^ 31 := Nat.pow_le_pow_right (by norm_num) hn
  obtain ⟨s, hs, hround⟩ := target_rounded hhigh hlow (by rw [sizeModulus]; omega) hn hle
  rw [chosenSize, hs, Option.bind_some, hpow]
  refine hashSize_eq_pow hn ?_ fun k hk => ?_
  · rw [← hround] at hle
    exact Nat.le_of_mul_le_mul_right hle (Nat.two_pow_pos _)
  · have hpowlt : 2 ^ (n + 148) < 2 ^ (k + 149) := by
      rw [pow_add 2 k]
      exact lt_of_lt_of_le (hround ▸ hlt) (Nat.mul_le_mul_right _ hk)
    have := (Nat.pow_lt_pow_iff_right (by norm_num)).mp hpowlt
    omega

/-- Up to a quarter, it is so only for one empty bucket. -/
theorem chosenSize_of_few (hpow : ht.size = 2 ^ n) (hn : n ≤ 31)
    (hhigh : ht.highMark = FloatOps.highMark) (hlow : ht.lowMark = FloatOps.lowMark)
    (hfew : ht.entries * 2 ^ 26 ≤ 2 ^ n * (2 ^ 24 + 1)) :
    chosenSize ht = some ht.size ↔ ht.entries = 0 ∧ ht.size = 1 := by
  have hle : round24 (ht.entries * 2 * 2 ^ 149) 1 ≤ 2 ^ (n + 148) := by
    refine round24_le_pow_of_half Nat.one_pos (by omega) ?_
    calc
      2 ^ 24 * (ht.entries * 2 * 2 ^ 149) = ht.entries * 2 ^ 26 * 2 ^ 148 := by ring
      _ ≤ 2 ^ n * (2 ^ 24 + 1) * 2 ^ 148 := Nat.mul_le_mul_right _ hfew
      _ = 1 * 2 ^ (n + 148) * (2 ^ 24 + 1) := by ring
  have hle' : round24 (ht.entries * 2 * 2 ^ 149) 1 ≤ 2 ^ n * 2 ^ 149 := by
    rw [← pow_add]
    exact hle.trans (Nat.pow_le_pow_right (by norm_num) (by omega))
  have hsmall : 2 ^ n ≤ 2 ^ 31 := Nat.pow_le_pow_right (by norm_num) hn
  obtain ⟨s, hs, hround⟩ := target_rounded hhigh hlow (by rw [sizeModulus]; omega) hn hle'
  rw [chosenSize, hs, Option.bind_some, hpow]
  constructor
  · intro hchosen
    obtain ⟨ns, hns, hnat⟩ := Option.map_eq_some_iff.mp hchosen
    obtain ⟨m, -, hm, -, hleast⟩ := hashSize_least hns
    obtain rfl : m = n := Nat.pow_right_injective (le_refl 2) (hm.symm.trans hnat)
    have hzero : m = 0 := by
      by_contra hpos
      obtain ⟨k, rfl⟩ := Nat.exists_eq_succ_of_ne_zero hpos
      have hk : s.toNat ≤ 2 ^ k := by
        refine Nat.le_of_mul_le_mul_right ?_ (Nat.two_pow_pos 149)
        rw [hround, ← pow_add]
        exact hle.trans (Nat.pow_le_pow_right (by norm_num) (by omega))
      exact absurd (hleast k hk) (by omega)
    subst hzero
    exact ⟨by omega, rfl⟩
  · rintro ⟨hempty, hone⟩
    have hzero : s.toNat = 0 := by
      rw [hempty, Nat.zero_mul] at hround
      have hnothing : round24 0 1 = 0 := by decide
      omega
    obtain rfl : n = 0 := by
      by_contra hpos
      have := Nat.pow_lt_pow_right (by norm_num : 1 < 2) (Nat.pos_of_ne_zero hpos)
      omega
    exact hashSize_eq_pow (by omega) (by omega) fun k _ => Nat.zero_le k

/-- A table with the default marks and a power of two of buckets. -/
theorem shrunk_iff_populated (hpow : ht.size = 2 ^ n) (hn : n ≤ 31)
    (hhigh : ht.highMark = FloatOps.highMark) (hlow : ht.lowMark = FloatOps.lowMark) :
    Shrunk ht ↔ Populated ht.entries ht.size := by
  rw [Populated, hpow]
  rcases Nat.lt_or_ge (2 ^ n * (2 ^ 24 + 1)) (ht.entries * 2 ^ 26) with hmany | hfew
  · refine iff_of_true ?_ (.inl hmany)
    rcases Nat.lt_or_ge (2 * ht.entries) (2 ^ n) with hhalf | hhalf
    · exact .inr (chosenSize_of_many hpow hn hhigh hlow hmany hhalf)
    · refine .inl ?_
      rw [loadFactor, hlow, hpow]
      exact load_high hn hhalf
  · have hload : FloatOps.lt (loadFactor ht) ht.lowMark = true := by
      rw [loadFactor, hlow, hpow]
      exact load_low hn hfew
    rw [Shrunk, hload, or_iff_right (by simp), or_iff_right hfew.not_gt, ← hpow]
    exact chosenSize_of_few hpow hn hhigh hlow hfew

/-- One entry more than a quarter of 2²⁶ buckets is rounded off. -/
example : ¬ Populated (2 ^ 24 + 1) (2 ^ 26) ∧ Populated (2 ^ 24 + 2) (2 ^ 26) := by decide

/-! ## Deletions -/

/-- A deletion looks into a bucket, so there is an array. -/
theorem deleted_pow (hsized : ht.Sized) (hsection : deleteSection L ht key = some (ht₁, old)) :
    ∃ n ≤ 31, ht.size = 2 ^ n := by
  obtain ⟨ht₂, hlock, hrest⟩ := Option.bind_eq_some_iff.mp hsection
  obtain ⟨b, rfl⟩ := lockHash_cases hlock
  obtain ⟨c, hc, -⟩ := Option.bind_eq_some_iff.mp hrest
  obtain ⟨bs, hbs, -⟩ := Option.bind_eq_some_iff.mp hc
  exact (hsized.width bs.2.length (by rw [HashTable.width, hbs]; rfl)).2

/-- A deletion that finds nothing keeps the bucket array if the load is not below the low
mark, or `hash_rehash` has nothing to change. -/
theorem missed_iff (hsized : ht.Sized) (hhigh : ht.highMark = FloatOps.highMark)
    (hlow : ht.lowMark = FloatOps.lowMark) (hfrozen : ht.frozen = false)
    (hsection : deleteSection L ht key = some (ht₁, none))
    (hrehash : rehashIf (sparse ht₁) ht₁ a = some ht') :
    ht'.buckets = ht.buckets ↔ Populated ht.entries ht.size := by
  obtain ⟨hbuckets, hne⟩ := deleteSection_missed hsection
  have hsteady : Steady ht ht₁ := deleteSection_steady hsection
  obtain ⟨b, hb⟩ := Option.ne_none_iff_exists'.mp hne
  obtain ⟨hwidth, n, hn, hpow⟩ := hsized.width b.2.length (by rw [HashTable.width, hb]; rfl)
  have hlaw : Shrunk ht₁ ↔ Populated ht₁.entries ht₁.size :=
    shrunk_iff_populated (hsteady.size.trans hpow) hn (hsteady.highMark.trans hhigh)
      (hsteady.lowMark.trans hlow)
  rw [hsteady.entries, hsteady.size] at hlaw
  rw [← hlaw, Shrunk]
  have hsparse : sparse ht₁ = FloatOps.lt (loadFactor ht₁) ht₁.lowMark := by
    have hfrozen₁ : ht₁.frozen = false := by
      rw [frozen, hsteady.flags]
      exact hfrozen
    rw [sparse, hfrozen₁, Bool.not_false, Bool.true_and]
  rw [hsparse] at hrehash
  cases hload : FloatOps.lt (loadFactor ht₁) ht₁.lowMark with
  | false =>
      rw [hload] at hrehash
      obtain rfl := Option.some.inj hrehash
      exact iff_of_true hbuckets (.inl rfl)
  | true =>
      rw [hload] at hrehash
      obtain ⟨s, ns, hs, hns, hscaled⟩ := hashRehash_scales hrehash
      rw [or_iff_right (by simp), chosenSize, hs, Option.bind_some, hns, Option.map_some,
        Option.some.injEq]
      constructor
      · intro hkept
        by_contra hother
        refine hother ((hscaled.width hother b ?_).symm.trans (hwidth.trans hsteady.size.symm))
        exact hkept.trans hb
      · intro hsame
        rw [hscaled.same hsame, hbuckets]

/-- What a deletion leaves, on a table that any calls have made of a new one. -/
theorem shrink_iff {size : BitVec 32} {lock : Bool} {flags : BitVec 32} {boot : NewAlloc}
    {ht₀ : HashTable Binary32 D} (hnew : hashNew size lock flags boot = some (some ht₀))
    {calls : List (Op Binary32 D × Alloc)} (hexec : (server G ht₀).exec ht₀ calls = some ht)
    (hhigh : ht.highMark = FloatOps.highMark) (hlow : ht.lowMark = FloatOps.lowMark)
    (hfrozen : ht.frozen = false) {reply : Reply D}
    (hperform : perform G ht a (.delete arg) = some (ht', reply)) :
    (∀ d, reply = .value 0 (some d) → (Shrunk ht' ↔ Populated (ht.entries - 1) ht.size)) ∧
    (reply = .value 1 none → (ht'.buckets = ht.buckets ↔ Populated ht.entries ht.size)) := by
  have hsized := exec_sized (hashNew_sized hnew) hexec
  obtain ⟨key, ht₁, old, -, hsection, hrehash, rfl⟩ := perform_delete_cases hperform
  cases old with
  | none =>
      rw [Option.isNone_none, Bool.true_and] at hrehash
      exact ⟨fun d hreply => by simp at hreply, fun _ =>
        missed_iff hsized hhigh hlow hfrozen hsection hrehash⟩
  | some d =>
      refine ⟨fun d' _ => ?_, fun hreply => by simp at hreply⟩
      obtain rfl := Option.some.inj hrehash
      have hsteady : Steady ht.discounted ht₁ := deleteSection_steady hsection
      have hentries : ht₁.entries = ht.entries - 1 := by
        rcases deleteSection_cases hsection with ⟨-, he, rest, mp, hsplit, -⟩ | ⟨hnone, -⟩
        · have hpos : ht.entries ≠ 0 := by
            rw [hsized.entries, hsplit.length_eq]
            exact Nat.succ_ne_zero _
          rw [hsteady.entries]
          exact if_neg hpos
        · cases hnone
      obtain ⟨n, hn, hpow⟩ := deleted_pow hsized hsection
      rw [← hentries, ← show ht₁.size = ht.size from hsteady.size]
      exact shrunk_iff_populated (hsteady.size.trans hpow) hn (hsteady.highMark.trans hhigh)
        (hsteady.lowMark.trans hlow)

/-- `hash_new(8, 1, 0)` -/
def eightBuckets : HashTable Binary32 ℕ :=
  (hashNew 8 true 0 ⟨true, true, true⟩).join.get (by decide +kernel)

theorem eightBuckets_new : hashNew 8 true 0 ⟨true, true, true⟩ = some (some eightBuckets) := rfl

/-- Four entries in eight buckets. -/
def halfFull : HashTable Binary32 ℕ :=
  ((server entryGeometry eightBuckets).exec eightBuckets
    [(.search (text [97]) 1, served 4096), (.search (text [98]) 2, served 0),
      (.search (text [99]) 3, served 0), (.search (text [100]) 4, served 0)]).get
    (by decide +kernel)

/-- What a deletion leaves of it. -/
def thinned (w : List UInt8) : Option (HashTable Binary32 ℕ × Reply ℕ) :=
  perform entryGeometry halfFull (served 0) (.delete (text w))

theorem halfFull_shrinks : ∃ ht₁ ht₂,
    thinned [97] = some (ht₁, .value 0 (some 1)) ∧ Shrunk ht₁ ∧
      thinned [101] = some (ht₂, .value 1 none) ∧ ht₂.buckets = halfFull.buckets := by
  have hexec : (server entryGeometry eightBuckets).exec eightBuckets
      [(.search (text [97]) 1, served 4096), (.search (text [98]) 2, served 0),
        (.search (text [99]) 3, served 0), (.search (text [100]) 4, served 0)] = some halfFull :=
    (Option.some_get _).symm
  have hhit : (thinned [97]).map Prod.snd = some (.value 0 (some 1)) := by decide +kernel
  have hmiss : (thinned [101]).map Prod.snd = some (.value 1 none) := by decide +kernel
  obtain ⟨⟨ht₁, reply₁⟩, hsome₁, rfl⟩ := Option.map_eq_some_iff.mp hhit
  obtain ⟨⟨ht₂, reply₂⟩, hsome₂, rfl⟩ := Option.map_eq_some_iff.mp hmiss
  refine ⟨ht₁, ht₂, hsome₁, ?_, hsome₂, ?_⟩
  · exact ((shrink_iff eightBuckets_new hexec (by decide +kernel) (by decide +kernel)
      (by decide +kernel) hsome₁).1 1 rfl).mpr (.inl (by decide +kernel))
  · exact ((shrink_iff eightBuckets_new hexec (by decide +kernel) (by decide +kernel)
      (by decide +kernel) hsome₂).2 rfl).mpr (.inl (by decide +kernel))

/-- One entry in 64 buckets. -/
def roomy : HashTable Binary32 ℕ :=
  (((hashNew 64 true 0 ⟨true, true, true⟩).join.bind fun ht =>
    (server entryGeometry ht).exec ht [(.search (text [97]) 1, served 4096)])).get
    (by decide +kernel)

/-- A deletion from it. -/
def emptied (w : List UInt8) : Option (HashTable Binary32 ℕ × Reply ℕ) :=
  perform entryGeometry roomy (served 0) (.delete (text w))

/-- The deletion of the entry leaves 64 buckets, and one that finds nothing leaves two. -/
theorem deletions_do_not_shrink : roomy.frozen = false ∧
    roomy.highMark = FloatOps.highMark ∧ roomy.lowMark = FloatOps.lowMark ∧
    (∃ ht', emptied [97] = some (ht', .value 0 (some 1)) ∧ ¬ Shrunk ht') ∧
      ∃ ht', emptied [98] = some (ht', .value 1 none) ∧ ht'.buckets ≠ roomy.buckets := by
  refine ⟨by decide +kernel, by decide +kernel, by decide +kernel, ?_, ?_⟩
  · have hperform : (emptied [97]).map (fun r => (r.2, decide (Shrunk r.1))) =
        some (.value 0 (some 1), false) := by decide +kernel
    obtain ⟨⟨ht', reply⟩, hsome, hfields⟩ := Option.map_eq_some_iff.mp hperform
    obtain ⟨rfl, hshrunk⟩ := Prod.mk.inj hfields
    exact ⟨ht', hsome, of_decide_eq_false hshrunk⟩
  · have hperform : (emptied [98]).map (fun r => (r.2, r.1.width)) =
        some (.value 1 none, some 2) := by decide +kernel
    have hwidth : roomy.width = some 64 := by decide +kernel
    obtain ⟨⟨ht', reply⟩, hsome, hfields⟩ := Option.map_eq_some_iff.mp hperform
    obtain ⟨rfl, hw⟩ := Prod.mk.inj hfields
    refine ⟨ht', hsome, fun hsame => ?_⟩
    rw [HashTable.width, hsame, ← HashTable.width, hwidth] at hw
    cases hw

end ThreeW3.Hash
