/-
# What resizing costs

`hash_rehash` moves every entry of a table. With the default marks the entries that calls
move are paid for by the entries that calls put in and take out: seven moves for an
insertion and one for a deletion, and half of the buckets at the start. Marks and loads are
rationals.
-/

import ThreeW3.Hash.Loads
import ThreeW3.Lib.Potential

namespace ThreeW3.Hash

open ThreeW3.Lib ThreeW3.Pool HashTable

/-! ## Costs -/

section Costs

variable {R D : Type} [FloatOps R]

/-- How many entries the loops of `hash_rehash` move. -/
def rehashMoves (ht : HashTable R D) : ℕ := if resizes ht then ht.nodes.length else 0

variable {L : Layout} (G : Geometry L)

/-- How many entries a call moves. -/
def moves (ht : HashTable R D) (call : Op R D × Alloc) : ℕ :=
  match call.1 with
  | .search arg data =>
      (arg.resolve.bind fun key => searchSection G ht key data call.2).elim 0 fun r =>
        if r.2.1 && crowded r.1 then rehashMoves r.1 else 0
  | .replace arg data =>
      (arg.resolve.bind fun key => replaceSection G ht key data call.2).elim 0 fun r =>
        if r.2.isNone && crowded r.1 then rehashMoves r.1 else 0
  | .delete arg =>
      (arg.resolve.bind fun key => deleteSection L ht key).elim 0 fun r =>
        if r.2.isNone && sparse r.1 then rehashMoves r.1 else 0
  | .rehash => rehashMoves ht
  | _ => 0

/-- How many entries a call puts in. -/
def added (ht : HashTable R D) (call : Op R D × Alloc) : ℕ :=
  (perform G ht call.2 call.1).elim 0 fun r => r.1.entries - ht.entries

/-- How many entries a call takes out. -/
def removed (ht : HashTable R D) (call : Op R D × Alloc) : ℕ :=
  (perform G ht call.2 call.1).elim 0 fun r => ht.entries - r.1.entries

end Costs

/-- The call leaves it to the table to resize, and does not change its marks. -/
def Op.Automatic {R D : Type} : Op R D → Prop
  | .rehash => False
  | .setthresholds _ _ => False
  | _ => True

instance {R D : Type} : DecidablePred (Op.Automatic : Op R D → Prop)
  | .rehash | .setthresholds _ _ => .isFalse id
  | .search _ _ | .find _ | .replace _ _ | .delete _ | .keys _ | .sethashfunction _ | .setflags _
  | .setflag _ | .clearflag _ => .isTrue trivial

variable {D : Type} {L : Layout} {G : Geometry L} {ht ht₀ ht₁ ht' : HashTable ℚ D} {a : Alloc}
  {op : Op ℚ D}

/-! ## The potential -/

/-- What is put aside for the next resizing: seven for each entry beyond half of the buckets,
or one for each that is missing there, twice. -/
def potential (ht : HashTable ℚ D) : ℕ :=
  7 * (2 * ht.entries - ht.size) + (ht.size - 2 * ht.entries)

/-- A table with the default marks whose entries are counted. -/
structure Standard (ht : HashTable ℚ D) : Prop where
  sized : ht.Sized
  highMark : ht.highMark = FloatOps.highMark
  lowMark : ht.lowMark = FloatOps.lowMark

theorem Standard.of_steady (h : Standard ht) (hsized : ht₁.Sized)
    (hsteady : Steady ht₀ ht₁) (hhigh : ht₀.highMark = ht.highMark)
    (hlow : ht₀.lowMark = ht.lowMark) : Standard ht₁ :=
  ⟨hsized, hsteady.highMark.trans (hhigh.trans h.highMark),
    hsteady.lowMark.trans (hlow.trans h.lowMark)⟩

/-- `hash_rehash` asks for the least power of two that is twice the entries. -/
theorem Standard.target (h : Standard ht) (hfits : 2 * ht.entries < sizeModulus)
    {s ns : BitVec 32} (hs : rehashTarget ht = some s) (hns : hashSize s = some ns) :
    ∃ n, ns.toNat = 2 ^ n ∧ 2 * ht.entries ≤ 2 ^ n ∧ ∀ k, 2 * ht.entries ≤ 2 ^ k → n ≤ k := by
  have hquotient : quotient ht = ((2 * ht.entries : ℕ) : ℚ) := by
    rw [quotient, h.highMark, h.lowMark, Nat.mul_comm, Nat.mod_eq_of_lt hfits]
    norm_num [FloatOps.highMark, FloatOps.lowMark]
  obtain ⟨hle, hlt⟩ := toNat_target hs
  rw [hquotient] at hle hlt
  have hsame : s.toNat = 2 * ht.entries := by
    have hle' : s.toNat ≤ 2 * ht.entries := by exact_mod_cast hle
    have hlt' : 2 * ht.entries < s.toNat + 1 := by exact_mod_cast hlt
    omega
  obtain ⟨n, -, hpow, henough, hleast⟩ := hashSize_least hns
  exact ⟨n, hpow, hsame ▸ henough, hsame ▸ hleast⟩

/-- The load is beyond a mark, so a resizing is paid for. -/
def Due (ht : HashTable ℚ D) : Prop :=
  7 * ht.size < 10 * ht.entries ∨ 10 * ht.entries < 3 * ht.size ∧ ht.buckets ≠ none

theorem Standard.of_crowded (h : Standard ht) (hcrowded : crowded ht = true) : Due ht := by
  have hsize : (0 : ℚ) < ht.size := by exact_mod_cast h.sized.pos
  obtain ⟨-, hload⟩ := Bool.and_eq_true_iff.mp hcrowded
  have hload' : ht.highMark < (ht.entries : ℚ) / ht.size := of_decide_eq_true hload
  rw [h.highMark, lt_div_iff₀ hsize] at hload'
  have hmark : (7 / 10 : ℚ) * ht.size < ht.entries := hload'
  have hcast : (7 * ht.size : ℚ) < 10 * ht.entries := by linarith
  exact .inl (by exact_mod_cast hcast)

theorem Standard.of_sparse (h : Standard ht) (hbuckets : ht.buckets ≠ none)
    (hsparse : sparse ht = true) : Due ht := by
  have hsize : (0 : ℚ) < ht.size := by exact_mod_cast h.sized.pos
  obtain ⟨-, hload⟩ := Bool.and_eq_true_iff.mp hsparse
  have hload' : (ht.entries : ℚ) / ht.size < ht.lowMark := of_decide_eq_true hload
  rw [h.lowMark, div_lt_iff₀ hsize] at hload'
  have hmark : (ht.entries : ℚ) < (3 / 10 : ℚ) * ht.size := hload'
  have hcast : (10 * ht.entries : ℚ) < 3 * ht.size := by linarith
  exact .inr ⟨by exact_mod_cast hcast, hbuckets⟩

/-- A resizing costs no more than what it frees of the potential. -/
theorem Standard.resize_pays (h : Standard ht) (hfits : 2 * ht.entries < sizeModulus)
    (hdue : Due ht) (hrehash : hashRehash ht a = some ht') :
    2 * rehashMoves ht + potential ht' ≤ potential ht := by
  obtain ⟨s, ns, hs, hns, hscaled⟩ := hashRehash_scales hrehash
  obtain ⟨n, hpow, henough, hleast⟩ := h.target hfits hs hns
  have hresizes : resizes ht = decide (2 ^ n ≠ ht.size) := by
    rw [resizes, hs, Option.bind_some, hns, Option.any_some, hpow]
  have hsize : ht'.size = 2 ^ n := hscaled.size.trans hpow
  -- the next smaller power of two is not enough
  have hhalf : n = 0 ∨ 2 ^ n < 4 * ht.entries := by
    rcases n with _ | n
    · exact .inl rfl
    · right
      by_contra hnot
      have hsmaller := hleast n (by rw [Nat.pow_succ] at hnot; omega)
      omega
  rw [rehashMoves, hresizes, potential, potential, hsize, hscaled.entries]
  by_cases hsame : 2 ^ n = ht.size
  · simp [hsame]
  rw [if_pos (decide_eq_true hsame), ← h.sized.entries]
  rcases hdue with hcrowded | ⟨hsparse, hbuckets⟩
  · have hbound : 2 ^ n < 4 * ht.entries := by
      rcases hhalf with rfl | hlt
      · omega
      · exact hlt
    omega
  · obtain ⟨b, hb⟩ := Option.ne_none_iff_exists'.mp hbuckets
    obtain ⟨-, m, -, hm⟩ := h.sized.width b.2.length (by rw [HashTable.width, hb]; rfl)
    have hnm : n ≤ m := hleast m (by omega)
    have hlt : n < m := lt_of_le_of_ne hnm (by rintro rfl; exact hsame hm.symm)
    have hdouble : 2 * 2 ^ n ≤ 2 ^ m := by
      rw [← Nat.pow_succ']
      exact Nat.pow_le_pow_right (by omega) hlt
    omega

/-! ## The calls -/

/-- What a call leaves before it may resize: the same size, and a load test that is made when
it says so. -/
structure Settled (G : Geometry L) (ht : HashTable ℚ D) (call : Op ℚ D × Alloc)
    (ht₁ : HashTable ℚ D) (b : Bool) : Prop where
  standard : Standard ht₁
  size : ht₁.size = ht.size
  entries : ht₁.entries ≤ ht.entries + 1
  moves : moves G ht call = if b then rehashMoves ht₁ else 0
  due : b = true → Due ht₁

theorem Settled.quiet (h : Standard ht₁) (hsteady : Steady ht₀ ht₁) (hsize : ht₀.size = ht.size)
    (hentries : ht₀.entries = ht.entries) (hmoves : Hash.moves G ht (op, a) = 0) :
    Settled G ht (op, a) ht₁ false := by
  refine ⟨h, hsteady.size.trans hsize, ?_, hmoves, ?_⟩
  · rw [hsteady.entries, hentries]
    exact Nat.le_succ _
  · rintro ⟨⟩

theorem writeFlags_steady {flags : BitVec 32 → BitVec 32}
    (hwrite : writeFlags ht flags = some ht') : ∃ f, Steady { ht with flags := f } ht' := by
  obtain ⟨ht₁, hlock, hresult⟩ := Option.bind_eq_some_iff.mp hwrite
  obtain rfl := Option.some.inj hresult
  obtain ⟨b, rfl⟩ := lockHash_cases hlock
  exact ⟨flags ht.flags, Steady.unlock ⟨⟨rfl, rfl, rfl, rfl, rfl⟩, rfl⟩⟩

/-- A deletion that finds its key leaves one entry less. -/
theorem deleteSection_entries (h : ht.Sized) {key : Key} {old : Option D}
    (hsection : deleteSection L ht key = some (ht₁, old)) : ht₁.entries ≤ ht.entries := by
  rw [(deleteSection_sized h hsection).entries, h.entries]
  rcases deleteSection_cases hsection with ⟨-, hremoved⟩ | ⟨-, hkept⟩
  · obtain ⟨he, rest, mp, hrest, -, -, hleft⟩ := hremoved
    rw [hleft.nodes.length_eq, hrest.length_eq]
    exact Nat.le_succ _
  · exact hkept.nodes.length_eq.le

/-- A call that ends settles and may resize. -/
theorem Standard.settles (h : Standard ht) (hauto : op.Automatic) {reply : Reply D}
    (hperform : perform G ht a op = some (ht', reply)) :
    ∃ ht₁ b, Settled G ht (op, a) ht₁ b ∧ rehashIf b ht₁ a = some ht' := by
  have hsized := perform_sized h.sized hperform
  cases op with
  | search arg data =>
      obtain ⟨key, ht₁, hf, written, hkey, hsection, hrehash, -⟩ := perform_search_cases hperform
      have hsteady := searchSection_steady hsection
      have hstandard : Standard ht₁ := h.of_steady (searchSection_sized h.sized hsection) hsteady
        (by cases hf <;> rfl) (by cases hf <;> rfl)
      refine ⟨ht₁, _, ⟨hstandard, hsteady.size.trans (by cases hf <;> rfl), ?_, ?_, fun hb => ?_⟩,
        hrehash⟩
      · rw [hsteady.entries]
        cases hf
        · exact Nat.le_succ _
        · exact Nat.le_refl _
      · simp [moves, hkey, hsection]
      · exact hstandard.of_crowded (Bool.and_eq_true_iff.mp hb).2
  | replace arg data =>
      obtain ⟨key, ht₁, old, hkey, hsection, hrehash, -⟩ := perform_replace_cases hperform
      have hsteady := replaceSection_steady hsection
      have hstandard : Standard ht₁ := h.of_steady (replaceSection_sized h.sized hsection) hsteady
        (by cases old <;> rfl) (by cases old <;> rfl)
      refine ⟨ht₁, _, ⟨hstandard, hsteady.size.trans (by cases old <;> rfl), ?_, ?_, fun hb => ?_⟩,
        hrehash⟩
      · rw [hsteady.entries]
        cases old
        · exact Nat.le_refl _
        · exact Nat.le_succ _
      · simp [moves, hkey, hsection]
      · exact hstandard.of_crowded (Bool.and_eq_true_iff.mp hb).2
  | delete arg =>
      obtain ⟨key, ht₁, old, hkey, hsection, hrehash, -⟩ := perform_delete_cases hperform
      have hsteady := deleteSection_steady hsection
      have hstandard : Standard ht₁ := h.of_steady (deleteSection_sized h.sized hsection) hsteady
        (by cases old <;> rfl) (by cases old <;> rfl)
      refine ⟨ht₁, _, ⟨hstandard, hsteady.size.trans (by cases old <;> rfl), ?_, ?_, fun hb => ?_⟩,
        hrehash⟩
      · exact Nat.le_succ_of_le (deleteSection_entries h.sized hsection)
      · simp [moves, hkey, hsection]
      · obtain ⟨hmissed, hsparse⟩ := Bool.and_eq_true_iff.mp hb
        obtain rfl := Option.isNone_iff_eq_none.mp hmissed
        obtain ⟨hbuckets, hne⟩ := deleteSection_missed hsection
        exact hstandard.of_sparse (hbuckets ▸ hne) hsparse
  | find arg =>
      obtain ⟨key, -, hfind⟩ := Option.bind_eq_some_iff.mp hperform
      obtain ⟨⟨ht₁, found⟩, hsection, hresult⟩ := Option.bind_eq_some_iff.mp hfind
      obtain ⟨rfl, -⟩ := Prod.mk.inj (Option.some.inj hresult)
      have hsteady := findSection_steady hsection
      exact ⟨_, false, .quiet (h.of_steady hsized hsteady rfl rfl) hsteady rfl rfl rfl, rfl⟩
  | keys fast =>
      obtain ⟨⟨ht₁, result⟩, hkeys, hresult⟩ := Option.bind_eq_some_iff.mp hperform
      obtain ⟨rfl, -⟩ := Prod.mk.inj (Option.some.inj hresult)
      have hsteady := hashKeys_steady hkeys
      exact ⟨_, false, .quiet (h.of_steady hsized hsteady rfl rfl) hsteady rfl rfl rfl, rfl⟩
  | sethashfunction hf =>
      rw [perform, hashSethashfunction] at hperform
      split_ifs at hperform
      · obtain ⟨rfl, -⟩ := Prod.mk.inj (Option.some.inj hperform)
        exact ⟨_, false, .quiet h (.refl _) rfl rfl rfl, rfl⟩
      · obtain ⟨rfl, -⟩ := Prod.mk.inj (Option.some.inj hperform)
        exact ⟨_, false, .quiet ⟨hsized, h.highMark, h.lowMark⟩ (.refl _) rfl rfl rfl, rfl⟩
  | setflags _ | setflag _ | clearflag _ =>
      obtain ⟨ht₁, hwrite, hresult⟩ := Option.bind_eq_some_iff.mp hperform
      obtain ⟨rfl, -⟩ := Prod.mk.inj (Option.some.inj hresult)
      obtain ⟨f, hsteady⟩ := writeFlags_steady hwrite
      exact ⟨_, false, .quiet (h.of_steady hsized hsteady rfl rfl) hsteady rfl rfl rfl, rfl⟩
  | rehash | setthresholds _ _ => exact absurd hauto id

/-- The step lemma. A call pays for what it moves. -/
theorem Standard.pays (h : Standard ht) (hauto : op.Automatic)
    (hfits : 2 * (ht.entries + 1) < sizeModulus) {reply : Reply D}
    (hperform : perform G ht a op = some (ht', reply)) :
    Standard ht' ∧ 2 * moves G ht (op, a) + potential ht' ≤
      14 * added G ht (op, a) + 2 * removed G ht (op, a) + potential ht := by
  have hadded : added G ht (op, a) = ht'.entries - ht.entries := by rw [added, hperform]; rfl
  have hremoved : removed G ht (op, a) = ht.entries - ht'.entries := by
    rw [removed, hperform]
    rfl
  obtain ⟨ht₁, b, hsettled, hrehash⟩ := h.settles hauto hperform
  have hbetween : potential ht₁ ≤ 14 * (ht₁.entries - ht.entries) +
      2 * (ht.entries - ht₁.entries) + potential ht := by
    rw [potential, potential, hsettled.size]
    omega
  rw [hsettled.moves, hadded, hremoved]
  cases b with
  | false =>
      obtain rfl := Option.some.inj hrehash
      exact ⟨hsettled.standard, by simpa using hbetween⟩
  | true =>
      obtain ⟨s, ns, -, -, hscaled⟩ := hashRehash_scales hrehash
      have hfits₁ : 2 * ht₁.entries < sizeModulus := by
        have hle := hsettled.entries
        omega
      have hpaid := hsettled.standard.resize_pays hfits₁ (hsettled.due rfl) hrehash
      refine ⟨⟨perform_sized h.sized hperform, hscaled.highMark.trans hsettled.standard.highMark,
        hscaled.lowMark.trans hsettled.standard.lowMark⟩, ?_⟩
      rw [hscaled.entries, if_pos rfl]
      omega

/-! ## Runs -/

theorem hashNew_standard {size : BitVec 32} {lock : Bool} {flags : BitVec 32} {boot : NewAlloc}
    (hnew : hashNew size lock flags boot = some (some ht)) : Standard ht ∧ ht.entries = 0 := by
  have hsized := hashNew_sized hnew
  rw [hashNew] at hnew
  obtain ⟨ns, -, hrest⟩ := Option.bind_eq_some_iff.mp hnew
  split_ifs at hrest
  · simp at hrest
  obtain rfl := Option.some.inj (Option.some.inj hrest)
  exact ⟨⟨hsized, rfl, rfl⟩, rfl⟩

/-- Over any calls of a new table that leave resizing to it, failing allocations included, the
entries moved are at most seven for each entry put in and one for each taken out, and half of
the buckets at the start. -/
theorem moves_le {size : BitVec 32} {lock : Bool} {flags : BitVec 32} {boot : NewAlloc}
    (hnew : hashNew size lock flags boot = some (some ht₀)) {calls : List (Op ℚ D × Alloc)}
    (hauto : (server G ht₀).AllSteps (fun _ call => call.1.Automatic) ht₀ calls)
    (hfits : (server G ht₀).AllSteps (fun ht _ => 2 * (ht.entries + 1) < sizeModulus) ht₀ calls)
    (hexec : (server G ht₀).exec ht₀ calls = some ht) :
    (server G ht₀).total (moves G) ht₀ calls ≤
      7 * (server G ht₀).total (added G) ht₀ calls +
        (server G ht₀).total (removed G) ht₀ calls + ht₀.size / 2 := by
  obtain ⟨hstandard, hempty⟩ := hashNew_standard hnew
  have hpaid := Machine.total_le_of_potential (M := server G ht₀) (I := Standard) potential
    (fun ht call => 2 * moves G ht call + 0 * added G ht call)
    (fun ht call => 14 * added G ht call + 2 * removed G ht call)
    (fun ht call ht' h hC hstep => by
      obtain ⟨⟨ht₁, reply⟩, hperform, rfl⟩ := Option.map_eq_some_iff.mp hstep
      simpa using h.pays hC.1 hC.2 hperform) hstandard (hauto.and hfits) hexec
  have hstart : potential ht₀ = ht₀.size := by simp [potential, hempty]
  rw [Machine.total_add_mul, Machine.total_add_mul, hstart] at hpaid
  omega

/-- Entries come until the table grows twice, and go until it shrinks. -/
def tides : List (Op ℚ ℕ × Alloc) :=
  [(.search (text [97]) 1, served 4096), (.search (text [98]) 2, served 0),
    (.replace (text [99]) 3, served 0), (.setflag hashFrozen, served 0),
    (.delete (text [98]), served 0), (.delete (text [97]), served 0),
    (.delete (text [99]), served 0), (.clearflag hashFrozen, served 0),
    (.delete (text [100]), served 0), (.find (text [97]), served 0)]

example : (server entryGeometry smallTable).total (moves entryGeometry) smallTable tides = 6 := by
  decide +kernel

theorem tides_moves_le :
    (server entryGeometry smallTable).total (moves entryGeometry) smallTable tides ≤
      7 * (server entryGeometry smallTable).total (added entryGeometry) smallTable tides +
        (server entryGeometry smallTable).total (removed entryGeometry) smallTable tides +
        smallTable.size / 2 := by
  obtain ⟨ht, hexec⟩ : ∃ ht, (server entryGeometry smallTable).exec smallTable tides = some ht :=
    Option.isSome_iff_exists.mp (by decide +kernel)
  exact moves_le smallTable_new (by decide +kernel) (by decide +kernel) hexec

end ThreeW3.Hash
