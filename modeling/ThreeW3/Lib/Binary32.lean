/-
# Binary32 numbers

The format of IEEE 754 with 24 binary digits: its numbers, counted in units of the least
positive one, and their sums, quotients and comparisons. A result is rounded to the
nearest number, and to the even one of two.
-/

import Mathlib.Algebra.Order.Ring.Nat
import Mathlib.Data.Nat.Log
import Mathlib.Tactic.Positivity
import Mathlib.Tactic.Ring

namespace ThreeW3.Lib

/-! ## Rounding -/

/-- The integer nearest to `a / b`, the even one of two. -/
def nearestEven (a b : ℕ) : ℕ :=
  if 2 * (a % b) < b then a / b
  else if b < 2 * (a % b) then a / b + 1
  else a / b + a / b % 2

/-- How many digits of `a / b` go beyond 24. -/
def excess (a b : ℕ) : ℕ := (a / b).log2 - 23

/-- `a / b` cut to 24 digits, or to an integer if that has fewer. -/
def round24 (a b : ℕ) : ℕ := nearestEven a (b * 2 ^ excess a b) * 2 ^ excess a b

/-- The integers that 24 digits and an exponent hold. -/
def Digits24 (u : ℕ) : Prop := ∃ k ≤ 2 ^ 24, ∃ j, u = k * 2 ^ j

variable {a a' b i j k u : ℕ}

theorem digits24_pow (i : ℕ) : Digits24 (2 ^ i) := ⟨1, by norm_num, i, (one_mul _).symm⟩

theorem le_nearestEven : a / b ≤ nearestEven a b := by
  rw [nearestEven]
  split_ifs <;> omega

theorem nearestEven_le : nearestEven a b ≤ a / b + 1 := by
  rw [nearestEven]
  split_ifs <;> omega

theorem nearestEven_mul (hb : 0 < b) (k : ℕ) : nearestEven (b * k) b = k := by
  rw [nearestEven, Nat.mul_mod_right, Nat.mul_div_cancel_left k hb]
  exact if_pos hb

theorem nearestEven_mono (h : a ≤ a') : nearestEven a b ≤ nearestEven a' b := by
  rcases (Nat.div_le_div_right (c := b) h).lt_or_eq with hlt | heq
  · exact nearestEven_le.trans ((Nat.succ_le_of_lt hlt).trans le_nearestEven)
  · have hmod : a % b ≤ a' % b := by
      have h₁ := Nat.div_add_mod a b
      have h₂ := Nat.div_add_mod a' b
      rw [← heq] at h₂
      omega
    rw [nearestEven, nearestEven, ← heq]
    split_ifs <;> omega

/-- Half a unit above an even integer still goes down to it. -/
theorem nearestEven_le_of_half (hb : 0 < b) (heven : k % 2 = 0) (h : 2 * a ≤ b * (2 * k + 1)) :
    nearestEven a b ≤ k := by
  have hdiv := Nat.div_add_mod a b
  have hmod := Nat.mod_lt a hb
  rcases lt_trichotomy (a / b) k with hlt | heq | hgt
  · exact nearestEven_le.trans hlt
  · have hhalf : 2 * (a % b) ≤ b := by
      rw [heq] at hdiv
      have : b * (2 * k + 1) = 2 * (b * k) + b := by ring
      omega
    rw [nearestEven, heq]
    split_ifs <;> omega
  · have hle : b * (k + 1) ≤ b * (a / b) := Nat.mul_le_mul_left b hgt
    have : 2 * (b * (k + 1)) = b * (2 * k + 1) + b := by ring
    omega

/-- More than half a unit above an integer goes up. -/
theorem lt_nearestEven_of_half (hb : 0 < b) (h : b * (2 * k + 1) < 2 * a) :
    k < nearestEven a b := by
  have hdiv := Nat.div_add_mod a b
  have hmod := Nat.mod_lt a hb
  rcases lt_trichotomy (a / b) k with hlt | heq | hgt
  · have hle : b * (a / b + 1) ≤ b * k := Nat.mul_le_mul_left b hlt
    have h₁ : b * (a / b + 1) = b * (a / b) + b := by ring
    have h₂ : b * (2 * k + 1) = 2 * (b * k) + b := by ring
    omega
  · have hhalf : b < 2 * (a % b) := by
      rw [heq] at hdiv
      have : b * (2 * k + 1) = 2 * (b * k) + b := by ring
      omega
    rw [nearestEven, heq, if_neg (by omega), if_pos hhalf]
    exact Nat.lt_succ_self k
  · exact lt_of_lt_of_le hgt le_nearestEven

/-! ## What is left of a quotient -/

theorem div_lt_pow_excess : a / b < 2 ^ (24 + excess a b) := by
  refine lt_of_lt_of_le Nat.lt_log2_self (Nat.pow_le_pow_right (by norm_num) ?_)
  rw [excess]
  omega

theorem pow_excess_le (h : 0 < excess a b) : 2 ^ (23 + excess a b) ≤ a / b := by
  have hlog : 23 + excess a b = (a / b).log2 := by
    rw [excess] at h ⊢
    omega
  rw [hlog]
  refine Nat.log2_self_le fun hzero => ?_
  rw [excess, hzero] at h
  simp at h

theorem excess_of_pow (hle : 2 ^ i ≤ a / b) (hlt : a / b < 2 ^ (i + 1)) : excess a b = i - 23 := by
  have hpos : a / b ≠ 0 := fun hzero => by
    rw [hzero] at hle
    exact absurd hle (by simp)
  have hlog : (a / b).log2 = i := by
    rw [Nat.log2_eq_iff hpos]
    exact ⟨hle, hlt⟩
  rw [excess, hlog]

theorem nearestEven_excess_le : nearestEven a (b * 2 ^ excess a b) ≤ 2 ^ 24 := by
  refine nearestEven_le.trans ?_
  rw [← Nat.div_div_eq_div_mul]
  refine (Nat.div_lt_iff_lt_mul (Nat.two_pow_pos _)).mpr ?_
  rw [← pow_add]
  exact div_lt_pow_excess

theorem round24_digits (a b : ℕ) : Digits24 (round24 a b) := ⟨_, nearestEven_excess_le, _, rfl⟩

theorem round24_le_pow_excess : round24 a b ≤ 2 ^ (24 + excess a b) := by
  rw [round24, pow_add]
  exact Nat.mul_le_mul_right _ nearestEven_excess_le

theorem pow_excess_le_round24 (h : 0 < excess a b) : 2 ^ (23 + excess a b) ≤ round24 a b := by
  rw [round24, pow_add]
  refine Nat.mul_le_mul_right _ (le_trans ?_ le_nearestEven)
  rw [← Nat.div_div_eq_div_mul, Nat.le_div_iff_mul_le (Nat.two_pow_pos _), ← pow_add]
  exact pow_excess_le h

theorem round24_mono (h : a ≤ a') : round24 a b ≤ round24 a' b := by
  have hexcess : excess a b ≤ excess a' b := by
    by_contra hmore
    have hlarge : 2 ^ (23 + excess a b) < 2 ^ (24 + excess a' b) :=
      (pow_excess_le (by omega)).trans_lt
        ((Nat.div_le_div_right h).trans_lt div_lt_pow_excess)
    have := (Nat.pow_lt_pow_iff_right (by norm_num)).mp hlarge
    omega
  rcases hexcess.lt_or_eq with hlt | heq
  · calc
      round24 a b ≤ 2 ^ (24 + excess a b) := round24_le_pow_excess
      _ ≤ 2 ^ (23 + excess a' b) := Nat.pow_le_pow_right (by norm_num) (by omega)
      _ ≤ round24 a' b := pow_excess_le_round24 (by omega)
  · rw [round24, round24, heq]
    exact Nat.mul_le_mul_right _ (nearestEven_mono h)

/-- What 24 digits hold is not rounded. -/
theorem round24_of_digits (hb : 0 < b) (hu : Digits24 u) : round24 (b * u) b = u := by
  obtain ⟨k, hk, i, rfl⟩ := hu
  generalize hj : excess (b * (k * 2 ^ i)) b = j
  have hdvd : 2 ^ j ∣ k * 2 ^ i := by
    rcases Nat.lt_or_ge i j with hlt | hle
    · -- Only the least number with one digit more has an exponent to spare.
      have hge : 2 ^ (23 + j) ≤ k * 2 ^ i := by
        have h := pow_excess_le (a := b * (k * 2 ^ i)) (b := b) (by omega)
        rwa [hj, Nat.mul_div_cancel_left _ hb] at h
      have hlt' : k * 2 ^ i < 2 ^ (24 + j) := by
        have h := div_lt_pow_excess (a := b * (k * 2 ^ i)) (b := b)
        rwa [hj, Nat.mul_div_cancel_left _ hb] at h
      have hji : j = i + 1 := by
        have hpow : 2 ^ (23 + j) ≤ 2 ^ (24 + i) := by
          rw [pow_add 2 24 i]
          exact hge.trans (Nat.mul_le_mul_right _ hk)
        have := (Nat.pow_le_pow_iff_right (by norm_num : 1 < 2)).mp hpow
        omega
      have hk24 : k = 2 ^ 24 := by
        refine le_antisymm hk (Nat.le_of_mul_le_mul_right ?_ (Nat.two_pow_pos i))
        rw [← pow_add]
        exact (Nat.pow_le_pow_right (by norm_num) (by omega)).trans hge
      rw [hk24, ← pow_add]
      exact Nat.pow_dvd_pow 2 (by omega)
    · exact Dvd.dvd.mul_left (Nat.pow_dvd_pow 2 hle) k
  obtain ⟨c, hc⟩ := hdvd
  rw [round24, hj, hc, ← Nat.mul_assoc, nearestEven_mul (Nat.mul_pos hb (Nat.two_pow_pos j)),
    Nat.mul_comm]

theorem round24_pow (hb : 0 < b) (i : ℕ) : round24 (b * 2 ^ i) b = 2 ^ i :=
  round24_of_digits hb (digits24_pow i)

theorem round24_le_pow (hb : 0 < b) (h : a ≤ b * 2 ^ i) : round24 a b ≤ 2 ^ i :=
  (round24_mono h).trans (round24_pow hb i).le

theorem pow_le_round24 (hb : 0 < b) (h : b * 2 ^ i ≤ a) : 2 ^ i ≤ round24 a b :=
  (round24_pow hb i).ge.trans (round24_mono h)

/-- Between two powers of two, all numbers have the same exponent. -/
theorem round24_of_pow (hge : 2 ^ (23 + j) ≤ a / b) (hlt : a / b < 2 ^ (23 + j + 1)) :
    round24 a b = nearestEven a (b * 2 ^ j) * 2 ^ j := by
  rw [round24, excess_of_pow hge hlt, Nat.add_sub_cancel_left]

theorem half_unit_above (b j : ℕ) :
    b * 2 ^ (23 + j) * (2 ^ 24 + 1) = 2 ^ 23 * (b * 2 ^ j * (2 * 2 ^ 23 + 1)) := by
  rw [pow_add]
  ring

/-- A quotient goes down to a power of two from up to half a unit above it. -/
theorem round24_le_pow_of_half (hb : 0 < b) (hi : 23 ≤ i)
    (h : 2 ^ 24 * a ≤ b * 2 ^ i * (2 ^ 24 + 1)) : round24 a b ≤ 2 ^ i := by
  rcases Nat.lt_or_ge (a / b) (2 ^ i) with hlt | hge
  · refine round24_le_pow hb ?_
    rw [Nat.mul_comm]
    exact ((Nat.div_lt_iff_lt_mul hb).mp hlt).le
  · have hlt : a / b < 2 ^ (i + 1) := by
      rw [Nat.div_lt_iff_lt_mul hb, pow_succ]
      have hpos : 0 < b * 2 ^ i := Nat.mul_pos hb (Nat.two_pow_pos i)
      have : 2 ^ i * 2 * b = 2 * (b * 2 ^ i) := by ring
      omega
    obtain ⟨j, rfl⟩ := Nat.exists_eq_add_of_le hi
    rw [round24_of_pow hge hlt, pow_add]
    refine Nat.mul_le_mul_right _ (nearestEven_le_of_half (Nat.mul_pos hb (Nat.two_pow_pos j))
      (by norm_num) ?_)
    rw [half_unit_above, show 2 ^ 24 * a = 2 ^ 23 * (2 * a) by ring] at h
    exact Nat.le_of_mul_le_mul_left h (by norm_num)

/-- More than half a unit above a power of two, a quotient does not go down to it. -/
theorem pow_lt_round24 (hb : 0 < b) (hi : 23 ≤ i) (h : b * 2 ^ i * (2 ^ 24 + 1) < 2 ^ 24 * a) :
    2 ^ i < round24 a b := by
  rcases Nat.lt_or_ge (a / b) (2 ^ (i + 1)) with hlt | hge
  · have hge : 2 ^ i ≤ a / b := by
      rw [Nat.le_div_iff_mul_le hb]
      have : b * 2 ^ i * (2 ^ 24 + 1) = 2 ^ 24 * (2 ^ i * b) + b * 2 ^ i := by ring
      omega
    obtain ⟨j, rfl⟩ := Nat.exists_eq_add_of_le hi
    rw [round24_of_pow hge hlt, pow_add]
    refine (Nat.mul_lt_mul_right (Nat.two_pow_pos j)).mpr
      (lt_nearestEven_of_half (Nat.mul_pos hb (Nat.two_pow_pos j)) ?_)
    rw [half_unit_above, show 2 ^ 24 * a = 2 ^ 23 * (2 * a) by ring] at h
    exact Nat.lt_of_mul_lt_mul_left h
  · refine lt_of_lt_of_le (Nat.pow_lt_pow_right (by norm_num) (Nat.lt_succ_self i))
      (pow_le_round24 hb ?_)
    rw [Nat.mul_comm]
    exact (Nat.le_div_iff_mul_le hb).mp hge

/-- An integer number of larger units stays one. -/
theorem dvd_round24 (i k : ℕ) : 2 ^ i ∣ round24 (k * 2 ^ i) 1 := by
  rw [round24, Nat.one_mul]
  generalize excess (k * 2 ^ i) 1 = j
  rcases Nat.le_total i j with hle | hle
  · exact Dvd.dvd.mul_left (Nat.pow_dvd_pow 2 hle) _
  · obtain ⟨d, rfl⟩ := Nat.exists_eq_add_of_le hle
    have hsplit : k * 2 ^ (j + d) = 2 ^ j * (k * 2 ^ d) := by rw [pow_add]; ring
    rw [hsplit, nearestEven_mul (Nat.two_pow_pos j), pow_add]
    exact ⟨k, by ring⟩

/-! ## Numbers -/

/-- How many units a finite number has: there is no overflow. -/
structure FiniteUnits (u : ℕ) : Prop where
  below : u < 2 ^ 128 * 2 ^ 149
  digits : Digits24 u

/-- A number with its sign, in units of 2⁻¹⁴⁹; an infinity; or a NaN. -/
inductive Binary32
  | nan
  | infinite (negative : Bool)
  | finite (negative : Bool) (units : ℕ) (valid : FiniteUnits units)
  deriving DecidableEq

namespace Binary32

/-- `a / b` units, rounded. -/
def round (negative : Bool) (a b : ℕ) : Binary32 :=
  if h : round24 a b < 2 ^ 128 * 2 ^ 149 then .finite negative (round24 a b) ⟨h, round24_digits a b⟩
  else .infinite negative

/-- The number nearest to `p / q`. -/
def ratio (p q : ℕ) : Binary32 := round false (p * 2 ^ 149) q

/-- The units, with their sign. -/
def signed (negative : Bool) (u : ℕ) : ℤ := if negative then -u else u

/-- A sum is zero with a sign only if both terms have it. -/
def add : Binary32 → Binary32 → Binary32
  | nan, _ | _, nan => nan
  | infinite s, infinite t => if s = t then infinite s else nan
  | infinite s, finite .. => infinite s
  | finite .., infinite t => infinite t
  | finite s u _, finite t v _ =>
      let sum := signed s u + signed t v
      round (if sum = 0 then s && t else decide (sum < 0)) sum.natAbs 1

def div : Binary32 → Binary32 → Binary32
  | nan, _ | _, nan => nan
  | infinite _, infinite _ => nan
  | infinite s, finite t .. => infinite (s ^^ t)
  | finite s .., infinite t => round (s ^^ t) 0 1
  | finite s u _, finite t v _ =>
      if v ≠ 0 then round (s ^^ t) (u * 2 ^ 149) v
      else if u ≠ 0 then infinite (s ^^ t)
      else nan

def lt : Binary32 → Binary32 → Bool
  | nan, _ | _, nan => false
  | infinite s, infinite t => s && !t
  | infinite s, finite .. => s
  | finite .., infinite t => !t
  | finite s u _, finite t v _ => decide (signed s u < signed t v)

/-- The integer part, if `w` bits hold it. -/
def truncate (w : ℕ) : Binary32 → Option (BitVec w)
  | nan | infinite _ => none
  | finite s u _ =>
      if (s && decide (2 ^ 149 ≤ u)) || decide (2 ^ (149 + w) ≤ u) then none
      else some (BitVec.ofNat w (u / 2 ^ 149))

/-- A number that is not negative and at most 2ⁱ units. -/
def AtMost (i : ℕ) : Binary32 → Prop
  | finite s u _ => s = false ∧ u ≤ 2 ^ i
  | _ => False

/-- A number or infinity from 2ⁱ units on. -/
def AtLeast (i : ℕ) : Binary32 → Prop
  | finite s u _ => s = false ∧ 2 ^ i ≤ u
  | infinite s => s = false
  | nan => False

variable {x : Binary32} {m n w : ℕ}

theorem AtMost.round (hi : i < 128 + 149) (h : round24 a b ≤ 2 ^ i) :
    AtMost i (round false a b) := by
  have hbelow : ∀ n, i < n → round24 a b < 2 ^ n :=
    fun n hn => lt_of_le_of_lt h (Nat.pow_lt_pow_right (by norm_num) hn)
  have hlt : round24 a b < 2 ^ 128 * 2 ^ 149 := by
    rw [← pow_add]
    exact hbelow _ hi
  rw [Binary32.round, dif_pos hlt]
  exact ⟨rfl, h⟩

theorem AtLeast.round (h : 2 ^ i ≤ round24 a b) : AtLeast i (round false a b) := by
  rw [Binary32.round]
  split_ifs
  · exact ⟨rfl, h⟩
  · rfl

/-- A finite number is rounded to itself. -/
theorem round_finite {negative : Bool} (hb : 0 < b) (hu : FiniteUnits u) :
    round negative (b * u) b = finite negative u hu := by
  have hsame := round24_of_digits hb hu.digits
  rw [round, dif_pos (hsame.symm ▸ hu.below)]
  simp only [hsame]

theorem finiteUnits_pow (hn : n < 128) : FiniteUnits (2 ^ n * 2 ^ 149) := by
  have hlt : 2 ^ n < 2 ^ 128 := Nat.pow_lt_pow_right (by norm_num) hn
  refine ⟨Nat.mul_lt_mul_of_pos_right hlt (Nat.two_pow_pos _), ?_⟩
  rw [← pow_add]
  exact digits24_pow _

theorem ratio_pow (hn : n < 128) :
    ratio (2 ^ n) 1 = finite false (2 ^ n * 2 ^ 149) (finiteUnits_pow hn) := by
  have h : round false (1 * (2 ^ n * 2 ^ 149)) 1 = _ :=
    round_finite Nat.one_pos (finiteUnits_pow hn)
  rwa [Nat.one_mul] at h

/-! ## Quotients by a power of two -/

theorem AtMost.div_pow (hn : n < 128) (hi : i < 128 + 149) (h : AtMost (n + i) x) :
    AtMost i (div x (ratio (2 ^ n) 1)) := by
  rw [ratio_pow hn]
  cases x with
  | nan | infinite s => exact h.elim
  | finite s u hu =>
      obtain ⟨rfl, hle⟩ := h
      have hpos : 0 < 2 ^ n * 2 ^ 149 := by positivity
      rw [div, if_pos hpos.ne']
      refine AtMost.round hi (round24_le_pow hpos ?_)
      calc
        u * 2 ^ 149 ≤ 2 ^ (n + i) * 2 ^ 149 := Nat.mul_le_mul_right _ hle
        _ = 2 ^ n * 2 ^ 149 * 2 ^ i := by ring

theorem AtLeast.div_pow (hn : n < 128) (h : AtLeast (n + i) x) :
    AtLeast i (div x (ratio (2 ^ n) 1)) := by
  rw [ratio_pow hn]
  cases x with
  | nan => exact h.elim
  | infinite s =>
      obtain rfl : s = false := h
      rfl
  | finite s u hu =>
      obtain ⟨rfl, hle⟩ := h
      have hpos : 0 < 2 ^ n * 2 ^ 149 := by positivity
      rw [div, if_pos hpos.ne']
      refine AtLeast.round (pow_le_round24 hpos ?_)
      calc
        2 ^ n * 2 ^ 149 * 2 ^ i = 2 ^ (n + i) * 2 ^ 149 := by ring
        _ ≤ u * 2 ^ 149 := Nat.mul_le_mul_right _ hle

theorem AtMost.lt (h : AtMost i x) {hu : FiniteUnits u} (hlt : 2 ^ i < u) :
    lt x (finite false u hu) = true := by
  cases x with
  | nan | infinite s => exact h.elim
  | finite s v hv =>
      obtain ⟨rfl, hle⟩ := h
      simp only [Binary32.lt, signed, Bool.false_eq_true, if_false, decide_eq_true_eq]
      exact_mod_cast lt_of_le_of_lt hle hlt

theorem AtLeast.not_lt (h : AtLeast i x) {hu : FiniteUnits u} (hle : u ≤ 2 ^ i) :
    lt x (finite false u hu) = false := by
  cases x with
  | nan => exact h.elim
  | infinite s =>
      obtain rfl : s = false := h
      rfl
  | finite s v hv =>
      obtain ⟨rfl, hge⟩ := h
      simp only [Binary32.lt, signed, Bool.false_eq_true, if_false, decide_eq_false_iff_not]
      exact_mod_cast (hle.trans hge).not_gt

/-! ## Integers -/

theorem finiteUnits_one : FiniteUnits (2 ^ 149) :=
  ⟨lt_mul_of_one_lt_left (Nat.two_pow_pos 149) (by norm_num), digits24_pow 149⟩

theorem ratio_one : ratio 1 1 = finite false (2 ^ 149) finiteUnits_one :=
  round_finite Nat.one_pos finiteUnits_one

theorem div_one {negative : Bool} (hu : FiniteUnits u) :
    div (finite negative u hu) (ratio 1 1) = finite negative u hu := by
  have hpos : 0 < 2 ^ 149 := Nat.two_pow_pos 149
  rw [ratio_one, div, if_pos hpos.ne', Bool.xor_false, Nat.mul_comm]
  exact round_finite hpos hu

/-- The integer part of an integer that is at most 2ⁱ after rounding, divided by one. -/
theorem truncate_ratio (hiw : i < w) (hi : i < 128) (h : round24 (m * 2 ^ 149) 1 ≤ 2 ^ i * 2 ^ 149) :
    ∃ s : BitVec w, truncate w (div (ratio m 1) (ratio 1 1)) = some s ∧
      s.toNat * 2 ^ 149 = round24 (m * 2 ^ 149) 1 := by
  obtain ⟨c, hc⟩ := dvd_round24 149 m
  have hfinite : FiniteUnits (round24 (m * 2 ^ 149) 1) :=
    ⟨lt_of_le_of_lt h (finiteUnits_pow hi).below, round24_digits _ _⟩
  have hc' : c ≤ 2 ^ i := by
    rw [hc, Nat.mul_comm] at h
    exact Nat.le_of_mul_le_mul_right h (Nat.two_pow_pos _)
  have hcw : c < 2 ^ w := lt_of_le_of_lt hc' (Nat.pow_lt_pow_right (by norm_num) hiw)
  have hdiv : div (ratio m 1) (ratio 1 1) = finite false _ hfinite := by
    rw [ratio, round, dif_pos hfinite.below, div_one]
  refine ⟨BitVec.ofNat w c, ?_, ?_⟩
  · have hbelow : round24 (m * 2 ^ 149) 1 < 2 ^ (149 + w) := by
      rw [hc, pow_add]
      exact Nat.mul_lt_mul_of_pos_left hcw (Nat.two_pow_pos _)
    rw [hdiv, truncate, Bool.false_and, Bool.false_or, if_neg (by simpa using hbelow), hc,
      Nat.mul_div_cancel_left _ (Nat.two_pow_pos _)]
  · rw [BitVec.toNat_ofNat, Nat.mod_eq_of_lt hcw, hc, Nat.mul_comm]

end Binary32

end ThreeW3.Lib
