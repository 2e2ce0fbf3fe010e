/-
# Parts of a heap

A heap may be put together from a part and the records beside it. What goes through on the
part goes through on the whole heap, with the same effect on the part, and the records beside
it stay as they are.
-/

import ThreeW3.Lib.Heap

namespace ThreeW3.Lib.Heap

universe u
variable {V : Type u} {h h' H : Heap V} {f : ℕ → Option V} {a : ℕ} {v : V}

/-- `H` is `h` with the records of `f` beside it. -/
structure Part (h : Heap V) (f : ℕ → Option V) (H : Heap V) : Prop where
  apart : ∀ a, h.load a = none ∨ f a = none
  union : ∀ a, H.load a = (h.load a).or (f a)

namespace Part

theorem load (hpart : h.Part f H) (ha : h.load a = some v) : H.load a = some v := by
  rw [hpart.union, ha, Option.some_or]

theorem beside (hpart : h.Part f H) (ha : h.load a = some v) : f a = none := by
  rcases hpart.apart a with hnone | hnone
  · rw [ha] at hnone
    cases hnone
  · exact hnone

/-- A record of the part, or a new one. -/
theorem store (hpart : h.Part f H) (ha : f a = none) (v : V) :
    (h.store a v).Part f (H.store a v) := by
  refine ⟨fun b => ?_, fun b => ?_⟩
  · by_cases hba : b = a
    · exact .inr (hba ▸ ha)
    · rw [load_store_of_ne hba]
      exact hpart.apart b
  · by_cases hba : b = a
    · rw [hba, load_store_self, load_store_self, Option.some_or]
    · rw [load_store_of_ne hba, load_store_of_ne hba]
      exact hpart.union b

theorem free (hpart : h.Part f H) (ha : f a = none) : (h.free a).Part f (H.free a) := by
  refine ⟨fun b => ?_, fun b => ?_⟩
  · rw [load_free]
    split_ifs
    · exact .inl rfl
    · exact hpart.apart b
  · rw [load_free, load_free]
    split_ifs with hba
    · rw [hba, ha]
      rfl
    · exact hpart.union b

theorem writeThrough (hpart : h.Part f H) {p : Ptr} {g : V → V}
    (hwrite : h.writeThrough p g = some h') :
    ∃ H', H.writeThrough p g = some H' ∧ h'.Part f H' := by
  cases p with
  | none =>
      obtain rfl := Option.some.inj hwrite
      exact ⟨H, rfl, hpart⟩
  | some a =>
      obtain ⟨v, hv, rfl⟩ := Option.map_eq_some_iff.mp hwrite
      exact ⟨H.store a (g v), by rw [Heap.writeThrough, hpart.load hv, Option.map_some],
        hpart.store (hpart.beside hv) (g v)⟩

end Part

end ThreeW3.Lib.Heap
