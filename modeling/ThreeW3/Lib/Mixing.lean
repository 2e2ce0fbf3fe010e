/-
# Mixing and even maps

A state of three parts is mixed in rounds, each of which changes one part in a way that can be
undone as long as the other two are known. What such rounds do to the state loses nothing, so
that a map which ends in them takes its values equally often.
-/

import Mathlib.Data.BitVec
import Mathlib.Data.FinEnum
import Mathlib.Data.Vector.Basic
import Mathlib.SetTheory.Cardinal.Finite

namespace ThreeW3.Lib

open Function

universe u v w

/-! ## Rounds -/

section Rounds

variable {X : Type u} {Y : Type v} {Z : Type w}

/-- The first part is changed and goes to the end. -/
def turn (f : Y → Z → X → X) (s : X × Y × Z) : Y × Z × X :=
  (s.2.1, s.2.2, f s.2.1 s.2.2 s.1)

theorem turn_bijective {f : Y → Z → X → X} (hf : ∀ y z, Bijective (f y z)) :
    Bijective (turn f) := by
  constructor
  · rintro ⟨x, y, z⟩ ⟨x', y', z'⟩ heq
    obtain ⟨rfl, hrest⟩ := Prod.mk.inj heq
    obtain ⟨rfl, hx⟩ := Prod.mk.inj hrest
    obtain rfl := (hf y z).injective hx
    rfl
  · rintro ⟨y, z, x⟩
    obtain ⟨x', hx'⟩ := (hf y z).surjective x
    exact ⟨(x', y, z), by rw [turn, hx']⟩

end Rounds

/-! ## Counting -/

/-- A map that is one to one in its first argument, whatever the second one is, meets a
condition as often for each second argument as there are values that meet it. -/
theorem card_of_bijective_left {X : Type u} {Y : Type v} {Z : Type w} {f : X → Y → Z}
    (hf : ∀ y, Bijective fun x => f x y) (P : Z → Prop) :
    Nat.card {p : X × Y // P (f p.1 p.2)} = Nat.card Y * Nat.card {z // P z} := by
  have hbijective : Bijective fun p : {p : X × Y // P (f p.1 p.2)} =>
      ((p.1.2, ⟨f p.1.1 p.1.2, p.2⟩) : Y × {z // P z}) := by
    constructor
    · rintro ⟨⟨x, y⟩, hx⟩ ⟨⟨x', y'⟩, hx'⟩ heq
      obtain ⟨rfl, hz⟩ := Prod.mk.inj heq
      obtain rfl := (hf y).injective (congrArg Subtype.val hz)
      rfl
    · rintro ⟨y, z, hz⟩
      obtain ⟨x, rfl⟩ := (hf y).surjective z
      exact ⟨⟨(x, y), hz⟩, rfl⟩
  rw [Nat.card_congr (Equiv.ofBijective _ hbijective), Nat.card_prod]

theorem card_bitVec (w : ℕ) : Nat.card (BitVec w) = 2 ^ w := by
  rw [Nat.card_congr (BitVec.equivFin (m := w)).toEquiv, Nat.card_fin]

theorem card_byte : Nat.card UInt8 = 2 ^ 8 := by
  rw [Nat.card_congr (FinEnum.equiv (α := UInt8)), Nat.card_fin]
  rfl

/-- The words whose low bits are these. -/
theorem card_low_bits {w k b : ℕ} (hk : k ≤ w) (hb : b < 2 ^ k) :
    Nat.card {v : BitVec w // v.toNat % 2 ^ k = b} = 2 ^ (w - k) := by
  have hpow : 2 ^ w = 2 ^ k * 2 ^ (w - k) := by rw [← Nat.pow_add, Nat.add_sub_cancel' hk]
  have hpos : 0 < 2 ^ k := Nat.two_pow_pos k
  let high : {v : BitVec w // v.toNat % 2 ^ k = b} → Fin (2 ^ (w - k)) := fun v =>
    ⟨v.1.toNat / 2 ^ k, Nat.div_lt_of_lt_mul (hpow ▸ v.1.isLt)⟩
  have hbijective : Bijective high := by
    constructor
    · rintro ⟨v, hv⟩ ⟨v', hv'⟩ heq
      have hdiv : v.toNat / 2 ^ k = v'.toNat / 2 ^ k := congrArg Fin.val heq
      refine Subtype.ext (BitVec.eq_of_toNat_eq ?_)
      rw [← Nat.div_add_mod v.toNat (2 ^ k), ← Nat.div_add_mod v'.toNat (2 ^ k), hv, hv', hdiv]
    · rintro ⟨q, hq⟩
      have hlt : 2 ^ k * q + b < 2 ^ w := by
        have hle : 2 ^ k * (q + 1) ≤ 2 ^ w := hpow ▸ Nat.mul_le_mul_left _ hq
        rw [Nat.mul_succ] at hle
        omega
      refine ⟨⟨BitVec.ofNat w (2 ^ k * q + b), ?_⟩, Fin.ext ?_⟩
      · rw [BitVec.toNat_ofNat, Nat.mod_eq_of_lt hlt, Nat.mul_add_mod, Nat.mod_eq_of_lt hb]
      · show (BitVec.ofNat w (2 ^ k * q + b)).toNat / 2 ^ k = q
        rw [BitVec.toNat_ofNat, Nat.mod_eq_of_lt hlt, Nat.mul_add_div hpos,
          Nat.div_eq_of_lt hb, Nat.add_zero]
  rw [Nat.card_congr (Equiv.ofBijective high hbijective), Nat.card_fin]

theorem card_vector (α : Type u) (n : ℕ) : Nat.card (List.Vector α n) = Nat.card α ^ n := by
  rw [Nat.card_congr (Equiv.vectorEquivFin α n), Nat.card_fun, Nat.card_fin]

/-- Lists of a length are made of two parts. -/
theorem card_append {α : Type u} {m n : ℕ} (P : List α → Prop) :
    Nat.card {l : List α // l.length = m + n ∧ P l} =
      Nat.card {p : List.Vector α m × List.Vector α n // P (p.1.1 ++ p.2.1)} := by
  let join : {p : List.Vector α m × List.Vector α n // P (p.1.1 ++ p.2.1)} →
      {l : List α // l.length = m + n ∧ P l} := fun p =>
    ⟨p.1.1.1 ++ p.1.2.1, by rw [List.length_append, p.1.1.2, p.1.2.2], p.2⟩
  have hbijective : Bijective join := by
    constructor
    · rintro ⟨⟨l, r⟩, hp⟩ ⟨⟨l', r'⟩, hp'⟩ heq
      have happend : l.1 ++ r.1 = l'.1 ++ r'.1 := congrArg Subtype.val heq
      obtain ⟨hl, hr⟩ := List.append_inj happend (l.2.trans l'.2.symm)
      obtain rfl := Subtype.ext hl
      obtain rfl := Subtype.ext hr
      rfl
    · rintro ⟨l, hlength, hP⟩
      have hsplit : l.take m ++ l.drop m = l := List.take_append_drop m l
      refine ⟨⟨(⟨l.take m, ?_⟩, ⟨l.drop m, ?_⟩), ?_⟩, Subtype.ext hsplit⟩
      · rw [List.length_take]
        omega
      · rw [List.length_drop]
        omega
      · show P (l.take m ++ l.drop m)
        rwa [hsplit]
  exact (Nat.card_congr (Equiv.ofBijective join hbijective)).symm

end ThreeW3.Lib
