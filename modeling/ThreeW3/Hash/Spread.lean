/-
# How evenly `hash_func` spreads keys

`mix` loses nothing of the three words it works on, and neither does the rest of `hash_func`
before its last line, which returns one of them. A key of twelve bytes or more starts with a
group that sets all three words, so keys of such a length fill the buckets of a table evenly.
-/

import ThreeW3.Hash.Loads
import ThreeW3.Lib.Mixing

namespace ThreeW3.Hash

open Function ThreeW3.Lib ThreeW3.Pool HashTable

/-! ## The words -/

/-- The variables `a`, `b` and `c` of `hash_func`. -/
abbrev Words := BitVec 32 × BitVec 32 × BitVec 32

/-- `mix` of the variables. -/
def stir (s : Words) : Words := mix s.1 s.2.1 s.2.2

/-- A line of `mix`, with the shift that is in it. -/
def mixLine (shift : BitVec 32 → BitVec 32) (y z x : BitVec 32) : BitVec 32 :=
  (x - y - z) ^^^ shift z

theorem mixLine_bijective (shift : BitVec 32 → BitVec 32) (y z : BitVec 32) :
    Bijective (mixLine shift y z) := by
  have htwice : ∀ v w : BitVec 32, v ^^^ w ^^^ w = v := fun v w => by
    rw [BitVec.xor_assoc, BitVec.xor_self, BitVec.xor_zero]
  refine bijective_iff_has_inverse.mpr ⟨fun x => (x ^^^ shift z) + z + y, fun x => ?_, fun x => ?_⟩
  · simp [mixLine, htwice]
  · simp [mixLine, htwice]

theorem stir_bijective : Bijective stir := by
  have hline : ∀ shift, Bijective (turn (mixLine shift)) := fun shift =>
    turn_bijective (mixLine_bijective shift)
  have hmix : stir = turn (mixLine (· >>> 15)) ∘ turn (mixLine (· <<< 10)) ∘
      turn (mixLine (· >>> 3)) ∘ turn (mixLine (· >>> 5)) ∘ turn (mixLine (· <<< 16)) ∘
      turn (mixLine (· >>> 12)) ∘ turn (mixLine (· >>> 13)) ∘ turn (mixLine (· <<< 8)) ∘
      turn (mixLine (· >>> 13)) := rfl
  rw [hmix]
  exact (hline _).comp <| (hline _).comp <| (hline _).comp <| (hline _).comp <| (hline _).comp <|
    (hline _).comp <| (hline _).comp <| (hline _).comp (hline _)

theorem add_bijective (t : Words) : Bijective fun s : Words => s + t :=
  (Equiv.addRight t).bijective

/-- Four bytes from here on, as they are added to a word. -/
def word (k : List UInt8) (i : ℕ) : BitVec 32 :=
  char k i + (char k (i + 1) <<< 8) + (char k (i + 2) <<< 16) + (char k (i + 3) <<< 24)

/-- What a group of twelve bytes adds. -/
def group (k : List UInt8) : Words := (word k 0, word k 4, word k 8)

/-- The value of a byte as a signed `char`. -/
def charValue (k : List UInt8) (i : ℕ) : ℤ := (k.getD i 0).toBitVec.toInt

theorem charValue_range (k : List UInt8) (i : ℕ) :
    -128 ≤ charValue k i ∧ charValue k i < 128 := by
  have hlow := BitVec.le_toInt (k.getD i 0).toBitVec
  have hhigh := BitVec.toInt_lt (x := (k.getD i 0).toBitVec)
  exact ⟨hlow, hhigh⟩

theorem char_shiftLeft (k : List UInt8) (i n : ℕ) :
    char k i <<< n = BitVec.ofInt 32 (charValue k i * 2 ^ n) := by
  have hpow : BitVec.twoPow 32 n = BitVec.ofInt 32 (2 ^ n) := by
    have hcast : (2 ^ n : ℤ) = ((2 ^ n : ℕ) : ℤ) := by push_cast; rfl
    rw [hcast, BitVec.ofInt_natCast]
    exact BitVec.eq_of_toNat_eq (by rw [BitVec.toNat_twoPow, BitVec.toNat_ofNat])
  rw [BitVec.shiftLeft_eq_mul_twoPow, BitVec.ofInt_mul, hpow]
  rfl

theorem word_eq (k : List UInt8) (i : ℕ) :
    word k i = BitVec.ofInt 32 (charValue k i + charValue k (i + 1) * 2 ^ 8 +
      charValue k (i + 2) * 2 ^ 16 + charValue k (i + 3) * 2 ^ 24) := by
  simp only [word, char_shiftLeft, BitVec.ofInt_add]
  rfl

/-- The bytes of a word can be told from it, from the lowest on. -/
theorem charValue_of_word {k k' : List UInt8} {i : ℕ} (heq : word k i = word k' i) :
    charValue k i = charValue k' i ∧ charValue k (i + 1) = charValue k' (i + 1) ∧
      charValue k (i + 2) = charValue k' (i + 2) ∧ charValue k (i + 3) = charValue k' (i + 3) := by
  have hnat := congrArg BitVec.toNat heq
  rw [word_eq, word_eq, BitVec.toNat_ofInt, BitVec.toNat_ofInt] at hnat
  have h0 := charValue_range k i
  have h1 := charValue_range k (i + 1)
  have h2 := charValue_range k (i + 2)
  have h3 := charValue_range k (i + 3)
  have h0' := charValue_range k' i
  have h1' := charValue_range k' (i + 1)
  have h2' := charValue_range k' (i + 2)
  have h3' := charValue_range k' (i + 3)
  have hlow : charValue k i = charValue k' i := by omega
  have hnext : charValue k (i + 1) = charValue k' (i + 1) := by omega
  have hthird : charValue k (i + 2) = charValue k' (i + 2) := by omega
  exact ⟨hlow, hnext, hthird, by omega⟩

theorem byte_of_charValue {k k' : List UInt8} {i : ℕ} (hk : i < k.length) (hk' : i < k'.length)
    (heq : charValue k i = charValue k' i) : k[i] = k'[i] := by
  have hbits := UInt8.toBitVec_inj.mp (BitVec.toInt_inj.mp heq)
  rwa [List.getD_eq_getElem _ _ hk, List.getD_eq_getElem _ _ hk'] at hbits

/-- A group sets the words in every way, each in one way. -/
theorem group_bijective : Bijective fun block : List.Vector UInt8 12 => group block.1 := by
  refine Injective.bijective_of_nat_card_le (fun block block' heq => ?_) ?_
  · obtain ⟨ha, hrest⟩ := Prod.mk.inj heq
    obtain ⟨hb, hc⟩ := Prod.mk.inj hrest
    obtain ⟨h0, h1, h2, h3⟩ := charValue_of_word ha
    obtain ⟨h4, h5, h6, h7⟩ := charValue_of_word hb
    obtain ⟨h8, h9, h10, h11⟩ := charValue_of_word hc
    refine Subtype.ext (List.ext_getElem (block.2.trans block'.2.symm) fun i hi hi' => ?_)
    refine byte_of_charValue hi hi' ?_
    have hlt : i < 12 := block.2 ▸ hi
    match i, hlt with
    | 0, _ => exact h0
    | 1, _ => exact h1
    | 2, _ => exact h2
    | 3, _ => exact h3
    | 4, _ => exact h4
    | 5, _ => exact h5
    | 6, _ => exact h6
    | 7, _ => exact h7
    | 8, _ => exact h8
    | 9, _ => exact h9
    | 10, _ => exact h10
    | 11, _ => exact h11
  · rw [card_vector, card_byte, Nat.card_prod, Nat.card_prod, card_bitVec]
    omega

/-! ## `hash_func` -/

theorem hashGroups_succ (n : ℕ) (k : List UInt8) (s : Words) :
    hashGroups (n + 1) k s = hashGroups n (k.drop 12) (stir (s + group k)) := rfl

/-- The loop of `hash_func` takes groups off the key, and loses nothing of the words. -/
theorem hashGroups_bijective (n : ℕ) (k : List UInt8) :
    (∀ s, (hashGroups n k s).1 = k.drop (12 * n)) ∧ Bijective fun s => (hashGroups n k s).2 := by
  induction n generalizing k with
  | zero => exact ⟨fun _ => rfl, bijective_id⟩
  | succ n ih =>
      obtain ⟨hdrop, hbijective⟩ := ih (k.drop 12)
      refine ⟨fun s => ?_, ?_⟩
      · rw [hashGroups_succ, hdrop, List.drop_drop]
        congr 1
        omega
      · have hcomp : (fun s => (hashGroups (n + 1) k s).2) =
            (fun s => (hashGroups n (k.drop 12) s).2) ∘ stir ∘ (· + group k) := by
          funext s
          rw [hashGroups_succ, comp_apply, comp_apply]
        rw [hcomp]
        exact hbijective.comp (stir_bijective.comp (add_bijective (group k)))

/-- What the switch of `hash_func` adds. -/
def leftover (length : ℕ) (k : List UInt8) : Words :=
  ((char k 3 <<< 24) + (char k 2 <<< 16) + (char k 1 <<< 8) + char k 0,
    (char k 7 <<< 24) + (char k 6 <<< 16) + (char k 5 <<< 8) + char k 4,
    BitVec.ofNat 32 length + ((char k 10 <<< 24) + (char k 9 <<< 16) + (char k 8 <<< 8)))

/-- `hash_func` from the words after its first groups. -/
def hashRest (length n : ℕ) (k : List UInt8) (s : Words) : Words :=
  stir ((hashGroups n k s).2 + leftover length (k.drop (12 * n)))

theorem hashRest_bijective (length n : ℕ) (k : List UInt8) : Bijective (hashRest length n k) :=
  stir_bijective.comp ((add_bijective _).comp (hashGroups_bijective n k).2)

/-- The variables at the start. -/
def start : Words := (0x9e3779b9, 0x9e3779b9, 0)

theorem hashFunc_eq (key : List UInt8) :
    hashFunc key = (hashRest key.length (key.length % 0x100000000 / 12)
      (key.take (key.length % 0x100000000)) start).2.2 := by
  rw [hashRest, ← (hashGroups_bijective _ _).1 start, hashFunc, start]
  generalize hashGroups _ _ _ = r
  obtain ⟨k, a, b, c⟩ := r
  rw [leftover, stir, Prod.mk_add_mk, Prod.mk_add_mk, ← BitVec.add_assoc c]

/-- A key starts with its first group. -/
theorem group_append (block : List.Vector UInt8 12) (k : List UInt8) :
    group (block.1 ++ k) = group block.1 := by
  have hchar : ∀ i < 12, char (block.1 ++ k) i = char block.1 i := by
    intro i hi
    rw [char, char, List.getD_append _ _ _ _ (block.2.symm ▸ hi)]
  simp only [group, word]
  rw [hchar 0, hchar 1, hchar 2, hchar 3, hchar 4, hchar 5, hchar 6, hchar 7, hchar 8, hchar 9,
    hchar 10, hchar 11] <;> omega

/-- `hash_func` on a key that starts with this group. -/
def hashFrom (length : ℕ) (rest block : List UInt8) : Words :=
  hashRest length (length % 0x100000000 / 12 - 1) (rest.take (length % 0x100000000 - 12))
    (stir (start + group block))

theorem hashFrom_bijective (length : ℕ) (rest : List UInt8) :
    Bijective fun block : List.Vector UInt8 12 => hashFrom length rest block.1 := by
  have hstart : Bijective fun s : Words => start + s := (Equiv.addLeft start).bijective
  have hcomp : (fun block : List.Vector UInt8 12 => hashFrom length rest block.1) =
      hashRest length (length % 0x100000000 / 12 - 1) (rest.take (length % 0x100000000 - 12)) ∘
        stir ∘ (start + ·) ∘ fun block : List.Vector UInt8 12 => group block.1 := by
    funext block
    rw [hashFrom, comp_apply, comp_apply, comp_apply]
  rw [hcomp]
  exact (hashRest_bijective _ _ _).comp (stir_bijective.comp (hstart.comp group_bijective))

theorem hashFunc_append (block : List.Vector UInt8 12) {rest : List UInt8} {length : ℕ}
    (hlength : 12 + rest.length = length) (hlong : 12 ≤ length % 0x100000000) :
    hashFunc (block.1 ++ rest) = (hashFrom length rest block.1).2.2 := by
  have hkey : (block.1 ++ rest).length = length := by rw [List.length_append, block.2, hlength]
  obtain ⟨n, hn⟩ : ∃ n, length % 0x100000000 / 12 = n + 1 := ⟨_, (Nat.succ_pred (by omega)).symm⟩
  have htake : (block.1 ++ rest).take (length % 0x100000000) =
      block.1 ++ rest.take (length % 0x100000000 - 12) := by
    rw [List.take_append, block.2, List.take_of_length_le (by rw [block.2]; exact hlong)]
  rw [hashFunc_eq, hashFrom, hkey, htake, hn, Nat.add_sub_cancel, hashRest, hashRest,
    hashGroups_succ, List.drop_left' block.2, group_append, Nat.mul_succ, Nat.add_comm (12 * n),
    ← List.drop_drop, List.drop_left' block.2]

/-! ## The keys of a length -/

theorem card_words (P : BitVec 32 → Prop) :
    Nat.card {s : Words // P s.2.2} = 2 ^ 64 * Nat.card {v // P v} := by
  have hequiv : {s : Words // P s.2.2} ≃ (BitVec 32 × BitVec 32) × {v // P v} :=
    { toFun := fun s => ((s.1.1, s.1.2.1), ⟨s.1.2.2, s.2⟩)
      invFun := fun s => ⟨(s.1.1, s.1.2, s.2.1), s.2.2⟩
      left_inv := fun _ => rfl
      right_inv := fun _ => rfl }
  rw [Nat.card_congr hequiv, Nat.card_prod, Nat.card_prod, card_bitVec, ← Nat.pow_add]

/-- Each value is the hash of as many keys. -/
theorem card_keys {length : ℕ} (hlong : 12 ≤ length % 0x100000000) (P : BitVec 32 → Prop) :
    Nat.card {key : List UInt8 // key.length = length ∧ P (hashFunc key)} =
      2 ^ (8 * (length - 12)) * (2 ^ 64 * Nat.card {v // P v}) := by
  obtain ⟨n, rfl⟩ : ∃ n, length = 12 + n := Nat.exists_eq_add_of_le (by omega)
  have hhash : ∀ p : List.Vector UInt8 12 × List.Vector UInt8 n,
      hashFunc (p.1.1 ++ p.2.1) = (hashFrom (12 + n) p.2.1 p.1.1).2.2 := fun p =>
    hashFunc_append p.1 (by rw [p.2.2]) hlong
  rw [card_append fun key => P (hashFunc key)]
  simp only [hhash]
  rw [card_of_bijective_left (fun rest : List.Vector UInt8 n => hashFrom_bijective (12 + n) rest.1)
    fun s => P s.2.2, card_vector, card_byte, card_words, ← Nat.pow_mul, Nat.add_sub_cancel_left]

variable {R D : Type} {ht ht₀ ht₁ ht' : HashTable R D}

theorem hashValue_eq (hhash : ht.hashFunc = hashFunc) (key : List UInt8) (k : ℕ) :
    hashValue ht key (2 ^ k) = (hashFunc key).toNat % 2 ^ k := by
  rw [hashValue, hhash, sizePred, if_neg (Nat.two_pow_pos k).ne', Nat.and_two_pow_sub_one_eq_mod]

/-- Of the keys of a length from twelve on, every bucket has an equal share. -/
def EvenlySpread (ht : HashTable R D) : Prop :=
  ∀ length b, 12 ≤ length % 0x100000000 → b < ht.size →
    ht.size * Nat.card {key : List UInt8 // key.length = length ∧ hashValue ht key ht.size = b} =
      Nat.card {key : List UInt8 // key.length = length}

theorem evenlySpread (hhash : ht.hashFunc = hashFunc) {k : ℕ} (hk : k ≤ 32)
    (hsize : ht.size = 2 ^ k) : EvenlySpread ht := by
  intro length b hlong hb
  have hall : Nat.card {key : List UInt8 // key.length = length} = 2 ^ (8 * length) := by
    rw [Nat.pow_mul, ← card_byte]
    exact card_vector UInt8 length
  rw [hsize] at hb ⊢
  simp only [hashValue_eq hhash]
  rw [hall, card_keys hlong fun v => v.toNat % 2 ^ k = b, card_low_bits hk hb, ← Nat.pow_add,
    ← Nat.pow_add, ← Nat.pow_add]
  congr 1
  omega

/-! ## Runs -/

section Runs

variable {L : Layout} {G : Geometry L} {a : Alloc} {key : Key} {data : D}

theorem lockHash_hashFunc (hlock : ht.lockHash = some ht₁) : ht₁.hashFunc = ht.hashFunc := by
  obtain ⟨b, rfl⟩ := lockHash_cases hlock
  rfl

theorem unlockHash_hashFunc (ht : HashTable R D) : ht.unlockHash.hashFunc = ht.hashFunc := by
  obtain ⟨b, hb⟩ := unlockHash_cases ht
  rw [hb]

theorem hashAddentry_hashFunc {hv : ℕ} (hadd : hashAddentry G ht hv key data a = some ht') :
    ht'.hashFunc = ht.hashFunc := by
  obtain ⟨⟨mp, addr⟩, -, hrest⟩ := Option.bind_eq_some_iff.mp hadd
  obtain ⟨c, -, hresult⟩ := Option.bind_eq_some_iff.mp hrest
  obtain rfl := Option.some.inj hresult
  rfl

theorem searchSection_hashFunc {hf : Bool} {written : D}
    (hsection : searchSection G ht key data a = some (ht', hf, written)) :
    ht'.hashFunc = ht.hashFunc := by
  obtain ⟨ht₁, hlock, hrest⟩ := Option.bind_eq_some_iff.mp hsection
  obtain ⟨c, -, hrest⟩ := Option.bind_eq_some_iff.mp hrest
  obtain ⟨⟨before, found⟩, -, hrest⟩ := Option.bind_eq_some_iff.mp hrest
  rw [← lockHash_hashFunc hlock]
  cases found with
  | cons hr after =>
      obtain ⟨rfl, -⟩ := Prod.mk.inj (Option.some.inj hrest)
      exact unlockHash_hashFunc ht₁
  | nil =>
      obtain ⟨ht₂, hadd, hresult⟩ := Option.bind_eq_some_iff.mp hrest
      obtain ⟨rfl, -⟩ := Prod.mk.inj (Option.some.inj hresult)
      exact (unlockHash_hashFunc ht₂).trans (hashAddentry_hashFunc hadd)

theorem findSection_hashFunc {found : Option D}
    (hsection : findSection ht key = some (ht', found)) : ht'.hashFunc = ht.hashFunc := by
  obtain ⟨ht₁, hlock, hrest⟩ := Option.bind_eq_some_iff.mp hsection
  obtain ⟨c, -, hrest⟩ := Option.bind_eq_some_iff.mp hrest
  obtain ⟨⟨before, found⟩, -, hresult⟩ := Option.bind_eq_some_iff.mp hrest
  obtain ⟨rfl, -⟩ := Prod.mk.inj (Option.some.inj hresult)
  exact (unlockHash_hashFunc ht₁).trans (lockHash_hashFunc hlock)

theorem replaceSection_hashFunc {old : Option D}
    (hsection : replaceSection G ht key data a = some (ht', old)) :
    ht'.hashFunc = ht.hashFunc := by
  obtain ⟨ht₁, hlock, hrest⟩ := Option.bind_eq_some_iff.mp hsection
  obtain ⟨c, -, hrest⟩ := Option.bind_eq_some_iff.mp hrest
  obtain ⟨⟨before, found⟩, -, hrest⟩ := Option.bind_eq_some_iff.mp hrest
  rw [← lockHash_hashFunc hlock]
  cases found with
  | cons hr after =>
      obtain ⟨rfl, -⟩ := Prod.mk.inj (Option.some.inj hrest)
      exact unlockHash_hashFunc _
  | nil =>
      obtain ⟨ht₂, hadd, hresult⟩ := Option.bind_eq_some_iff.mp hrest
      obtain ⟨rfl, -⟩ := Prod.mk.inj (Option.some.inj hresult)
      exact (unlockHash_hashFunc ht₂).trans (hashAddentry_hashFunc hadd)

theorem deleteSection_hashFunc {old : Option D}
    (hsection : deleteSection L ht key = some (ht', old)) : ht'.hashFunc = ht.hashFunc := by
  obtain ⟨ht₁, hlock, hrest⟩ := Option.bind_eq_some_iff.mp hsection
  obtain ⟨c, -, hrest⟩ := Option.bind_eq_some_iff.mp hrest
  obtain ⟨⟨before, found⟩, -, hrest⟩ := Option.bind_eq_some_iff.mp hrest
  rw [← lockHash_hashFunc hlock]
  cases found with
  | cons hr after =>
      obtain ⟨mp, -, hresult⟩ := Option.bind_eq_some_iff.mp hrest
      obtain ⟨rfl, -⟩ := Prod.mk.inj (Option.some.inj hresult)
      exact unlockHash_hashFunc _
  | nil =>
      obtain ⟨rfl, -⟩ := Prod.mk.inj (Option.some.inj hrest)
      exact unlockHash_hashFunc ht₁

theorem rehashIf_hashFunc [FloatOps R] {b : Bool} (hrehash : rehashIf b ht a = some ht') :
    ht'.hashFunc = ht.hashFunc := by
  cases b with
  | false =>
      obtain rfl := Option.some.inj hrehash
      rfl
  | true =>
      obtain ⟨ht₁, hlock, hlocked⟩ := Option.bind_eq_some_iff.mp hrehash
      obtain ⟨s, -, htarget⟩ := Option.bind_eq_some_iff.mp hlocked
      obtain ⟨ns, -, hsized⟩ := Option.bind_eq_some_iff.mp htarget
      rw [← lockHash_hashFunc hlock]
      dsimp only at hsized
      split_ifs at hsized
      · obtain rfl := Option.some.inj hsized
        exact unlockHash_hashFunc ht₁
      all_goals
        obtain ⟨⟨addr, bs⟩, -, hfolded⟩ := Option.bind_eq_some_iff.mp hsized
        obtain ⟨nb, -, hresult⟩ := Option.bind_eq_some_iff.mp hfolded
        obtain rfl := Option.some.inj hresult
        exact unlockHash_hashFunc _

theorem hashKeys_hashFunc {fast : Bool} {result : KeysResult}
    (hkeys : hashKeys ht fast a = some (ht', result)) : ht'.hashFunc = ht.hashFunc := by
  rw [hashKeys] at hkeys
  split_ifs at hkeys
  · obtain ⟨rfl, -⟩ := Prod.mk.inj (Option.some.inj hkeys)
    rfl
  obtain ⟨ht₁, hlock, hlocked⟩ := Option.bind_eq_some_iff.mp hkeys
  rw [← lockHash_hashFunc hlock]
  split_ifs at hlocked
  · obtain ⟨rfl, -⟩ := Prod.mk.inj (Option.some.inj hlocked)
    rfl
  obtain ⟨⟨addr, bs⟩, -, hbuckets⟩ := Option.bind_eq_some_iff.mp hlocked
  dsimp only at hbuckets
  split_ifs at hbuckets
  obtain ⟨⟨ks, m⟩, -, hresult⟩ := Option.bind_eq_some_iff.mp hbuckets
  obtain ⟨rfl, -⟩ := Prod.mk.inj (Option.some.inj hresult)
  exact unlockHash_hashFunc _

theorem writeFlags_hashFunc {flags : BitVec 32 → BitVec 32}
    (hwrite : writeFlags ht flags = some ht') : ht'.hashFunc = ht.hashFunc := by
  obtain ⟨ht₁, hlock, hresult⟩ := Option.bind_eq_some_iff.mp hwrite
  obtain rfl := Option.some.inj hresult
  rw [← lockHash_hashFunc hlock]
  exact unlockHash_hashFunc _

theorem hashSetthresholds_hashFunc [FloatOps R] (ht : HashTable R D) (low high : R) :
    (hashSetthresholds ht low high).1.hashFunc = ht.hashFunc := by
  rw [hashSetthresholds]
  generalize (if FloatOps.lt high FloatOps.zero then ht.highMark else high) = highMark
  generalize (if FloatOps.lt low FloatOps.zero then ht.lowMark else low) = lowMark
  split_ifs <;> rfl

/-- The call sets no hash function but the one of the file. -/
def Op.KeepsHash : Op R D → Prop
  | .sethashfunction (some _) => False
  | _ => True

instance : DecidablePred (Op.KeepsHash : Op R D → Prop)
  | .sethashfunction (some _) => .isFalse id
  | .sethashfunction none | .search _ _ | .find _ | .replace _ _ | .delete _ | .rehash | .keys _
  | .setthresholds _ _ | .setflags _ | .setflag _ | .clearflag _ => .isTrue trivial

theorem perform_hashFunc [FloatOps R] {op : Op R D} (hkeeps : op.KeepsHash) {reply : Reply D}
    (hhash : ht.hashFunc = hashFunc) (hperform : perform G ht a op = some (ht', reply)) :
    ht'.hashFunc = hashFunc := by
  cases op with
  | search arg data =>
      obtain ⟨key, ht₁, hf, written, -, hsection, hrehash, -⟩ := perform_search_cases hperform
      exact (rehashIf_hashFunc hrehash).trans ((searchSection_hashFunc hsection).trans hhash)
  | find arg =>
      obtain ⟨key, -, hfind⟩ := Option.bind_eq_some_iff.mp hperform
      obtain ⟨⟨ht₁, found⟩, hsection, hresult⟩ := Option.bind_eq_some_iff.mp hfind
      obtain ⟨rfl, -⟩ := Prod.mk.inj (Option.some.inj hresult)
      exact (findSection_hashFunc hsection).trans hhash
  | replace arg data =>
      obtain ⟨key, ht₁, old, -, hsection, hrehash, -⟩ := perform_replace_cases hperform
      exact (rehashIf_hashFunc hrehash).trans ((replaceSection_hashFunc hsection).trans hhash)
  | delete arg =>
      obtain ⟨key, ht₁, old, -, hsection, hrehash, -⟩ := perform_delete_cases hperform
      exact (rehashIf_hashFunc hrehash).trans ((deleteSection_hashFunc hsection).trans hhash)
  | rehash =>
      obtain ⟨ht₁, hrehash, hresult⟩ := Option.bind_eq_some_iff.mp hperform
      obtain ⟨rfl, -⟩ := Prod.mk.inj (Option.some.inj hresult)
      exact (rehashIf_hashFunc (b := true) hrehash).trans hhash
  | keys fast =>
      obtain ⟨⟨ht₁, result⟩, hkeys, hresult⟩ := Option.bind_eq_some_iff.mp hperform
      obtain ⟨rfl, -⟩ := Prod.mk.inj (Option.some.inj hresult)
      exact (hashKeys_hashFunc hkeys).trans hhash
  | sethashfunction hf =>
      cases hf with
      | some hf => exact absurd hkeeps id
      | none =>
          rw [perform, hashSethashfunction] at hperform
          split_ifs at hperform
          · obtain ⟨rfl, -⟩ := Prod.mk.inj (Option.some.inj hperform)
            exact hhash
          · obtain ⟨rfl, -⟩ := Prod.mk.inj (Option.some.inj hperform)
            rfl
  | setthresholds low high =>
      obtain ⟨rfl, -⟩ := Prod.mk.inj (Option.some.inj hperform)
      exact (hashSetthresholds_hashFunc ht low high).trans hhash
  | setflags _ | setflag _ | clearflag _ =>
      obtain ⟨ht₁, hwrite, hresult⟩ := Option.bind_eq_some_iff.mp hperform
      obtain ⟨rfl, -⟩ := Prod.mk.inj (Option.some.inj hresult)
      exact (writeFlags_hashFunc hwrite).trans hhash

theorem hashNew_hashFunc [FloatOps R] {size : BitVec 32} {lock : Bool} {flags : BitVec 32}
    {boot : NewAlloc} (hnew : hashNew size lock flags boot = some (some ht)) :
    ht.hashFunc = hashFunc := by
  rw [hashNew] at hnew
  obtain ⟨ns, -, hrest⟩ := Option.bind_eq_some_iff.mp hnew
  split_ifs at hrest
  · simp at hrest
  obtain rfl := Option.some.inj (Option.some.inj hrest)
  rfl

/-- Over any calls of a new table, failing allocations included, that set no other hash function:
however the table is resized, each of its buckets has an equal share of the keys of any length
from twelve on. -/
theorem keys_spread [FloatOps R] {size : BitVec 32} {lock : Bool} {flags : BitVec 32}
    {boot : NewAlloc} (hnew : hashNew size lock flags boot = some (some ht₀))
    {calls : List (Op R D × Alloc)}
    (hkeeps : (server G ht₀).AllSteps (fun _ call => call.1.KeepsHash) ht₀ calls) :
    (server G ht₀).AllStates (fun ht => ht.buckets ≠ none → EvenlySpread ht) ht₀ calls := by
  have hinit : ht₀.Sized ∧ ht₀.hashFunc = hashFunc := ⟨hashNew_sized hnew, hashNew_hashFunc hnew⟩
  have hstep : ∀ (ht : HashTable R D) call ht', ht.Sized ∧ ht.hashFunc = hashFunc →
      call.1.KeepsHash → (server G ht₀).step ht call = some ht' →
      ht'.Sized ∧ ht'.hashFunc = hashFunc := by
    rintro ht call ht' ⟨hsized, hhash⟩ hkeep hstep
    obtain ⟨⟨ht₁, reply⟩, hperform, rfl⟩ := Option.map_eq_some_iff.mp hstep
    exact ⟨perform_sized hsized hperform, perform_hashFunc hkeep hhash hperform⟩
  refine (Machine.allStates_of_guard hstep hinit hkeeps).mono ?_
  rintro ht ⟨hsized, hhash⟩ hbuckets
  obtain ⟨b, hb⟩ := Option.ne_none_iff_exists'.mp hbuckets
  obtain ⟨-, n, hn, hsize⟩ := hsized.width b.2.length (by rw [HashTable.width, hb]; rfl)
  exact evenlySpread hhash (by omega) hsize

end Runs

/-- The table grows twice and shrinks, and is given the hash function that it has. -/
def resizings : List (Op ℚ ℕ × Alloc) :=
  [(.sethashfunction none, served 4096), (.search (text [97]) 1, served 4096),
    (.search (text [98]) 2, served 0), (.replace (text [99]) 3, served 0), (.keys true, served 0),
    (.delete (text [98]), served 0), (.delete (text [97]), served 0), (.rehash, served 0)]

theorem resizings_spread :
    (server entryGeometry smallTable).AllStates (fun ht => ht.buckets ≠ none → EvenlySpread ht)
      smallTable resizings :=
  keys_spread smallTable_new (by decide +kernel)

end ThreeW3.Hash
