/-
# Records in buckets

Lists of records that are spread over buckets by a function of the record, and the
finite map that the records make up. What matters of the buckets is which records they
hold together, so the facts about the concatenated buckets are up to permutation.
-/

import Mathlib.Data.Finmap

namespace ThreeW3.Lib

universe u v w

/-! ## Buckets -/

section Buckets

variable {α : Type u} {f : α → ℕ} {bs : List (List α)} {c d : List α} {i n : ℕ} {x : α}

/-- Every record is in the bucket that `f` selects. -/
def Placed (f : α → ℕ) (bs : List (List α)) : Prop :=
  ∀ i c, bs[i]? = some c → ∀ x ∈ c, f x = i

namespace Placed

/-- A record is in its bucket if it is in any. -/
theorem mem_bucket (h : Placed f bs) (hc : bs[f x]? = some c) (hx : x ∈ bs.flatten) : x ∈ c := by
  obtain ⟨d, hd, hxd⟩ := List.mem_flatten.mp hx
  obtain ⟨i, hi⟩ := List.mem_iff_getElem?.mp hd
  have heq : f x = i := h i d hi x hxd
  rw [heq, hi] at hc
  rwa [← Option.some.inj hc]

/-- A bucket is changed. -/
theorem set (h : Placed f bs) (hd : ∀ x ∈ d, f x = i) : Placed f (bs.set i d) := by
  intro j c hj
  rw [List.getElem?_set] at hj
  split_ifs at hj with hij hlt
  · obtain rfl : d = c := Option.some.inj hj
    exact hij ▸ hd
  · exact h j c hj

theorem replicate (f : α → ℕ) (n : ℕ) : Placed f (List.replicate n []) := by
  intro i c hi x hx
  rw [List.getElem?_replicate] at hi
  split_ifs at hi
  obtain rfl : [] = c := Option.some.inj hi
  cases hx

end Placed

/-- One bucket, and the records of the others. -/
theorem exists_others (hc : bs[i]? = some c) :
    ∃ others, bs.flatten.Perm (c ++ others) ∧ ∀ d, (bs.set i d).flatten.Perm (d ++ others) := by
  obtain ⟨hi, rfl⟩ := List.getElem?_eq_some_iff.mp hc
  refine ⟨(bs.take i).flatten ++ (bs.drop (i + 1)).flatten, ?_, fun d => ?_⟩
  · calc bs.flatten = (bs.take i ++ bs[i] :: bs.drop (i + 1)).flatten := by
          rw [← List.drop_eq_getElem_cons hi, List.take_append_drop]
      _ = (bs.take i).flatten ++ (bs[i] ++ (bs.drop (i + 1)).flatten) := by
          rw [List.flatten_append, List.flatten_cons]
      _ |>.Perm _ := List.perm_append_comm_assoc _ _ _
  · rw [List.set_eq_take_append_cons_drop, if_pos hi, List.flatten_append, List.flatten_cons]
    exact List.perm_append_comm_assoc _ _ _

end Buckets

/-! ## The map of the records -/

section Map

variable {α : Type u} {K : Type v} {V : Type w} [DecidableEq K] {key : α → K} {val : α → V}
  {l l' : List α} {k : K} {x y : α}

/-- The finite map of some records. -/
def asMap (key : α → K) (val : α → V) (l : List α) : Finmap fun _ : K => V :=
  (l.map fun x => (⟨key x, val x⟩ : Sigma fun _ : K => V)).toFinmap

@[simp] theorem asMap_nil : asMap key val [] = ∅ := rfl

@[simp] theorem asMap_cons : asMap key val (x :: l) = (asMap key val l).insert (key x) (val x) :=
  Finmap.toFinmap_cons _ _ _

theorem mem_asMap : k ∈ asMap key val l ↔ ∃ x ∈ l, key x = k := by
  rw [asMap, Finmap.mem_list_toFinmap]
  simp only [List.mem_map, Sigma.mk.injEq]
  constructor
  · rintro ⟨_, x, hx, hk, -⟩
    exact ⟨x, hx, hk⟩
  · rintro ⟨x, hx, hk⟩
    exact ⟨val x, x, hx, hk, heq_of_eq rfl⟩

theorem keys_asMap : (asMap key val l).keys = (l.map key).toFinset := by
  ext k
  rw [Finmap.mem_keys, mem_asMap, List.mem_toFinset, List.mem_map]

/-- With distinct keys the order does not matter. -/
theorem asMap_perm (hnodup : (l.map key).Nodup) (hperm : l.Perm l') :
    asMap key val l = asMap key val l' := by
  apply Finmap.ext_lookup
  intro k
  rw [asMap, asMap, Finmap.dlookup_list_toFinmap, Finmap.dlookup_list_toFinmap]
  refine List.perm_dlookup k ?_ (hperm.map _)
  rwa [List.NodupKeys, List.keys, List.map_map]

/-- The value of a record, found under its key. -/
theorem lookup_asMap (hnodup : (l.map key).Nodup) (hx : x ∈ l) :
    (asMap key val l).lookup (key x) = some (val x) := by
  obtain ⟨before, after, rfl⟩ := List.append_of_mem hx
  rw [asMap_perm hnodup List.perm_middle, asMap_cons, Finmap.lookup_insert]

/-- Erasing a key that is not there. -/
theorem erase_of_notMem {m : Finmap fun _ : K => V} (hk : k ∉ m) : m.erase k = m := by
  apply Finmap.ext_lookup
  intro j
  by_cases hj : j = k
  · rw [hj, Finmap.lookup_erase, eq_comm, Finmap.lookup_eq_none]
    exact hk
  · rw [Finmap.lookup_erase_ne hj]

/-- A record takes the place of one with the same key. -/
theorem asMap_replace (hkey : key y = key x) :
    asMap key val (y :: l) = (asMap key val (x :: l)).insert (key x) (val y) := by
  rw [asMap_cons, asMap_cons, hkey, Finmap.insert_insert]

/-- A record goes. -/
theorem asMap_erase (hnodup : ((x :: l).map key).Nodup) :
    asMap key val l = (asMap key val (x :: l)).erase (key x) := by
  have hnone : key x ∉ asMap key val l := by
    rw [mem_asMap]
    rintro ⟨y, hy, heq⟩
    rw [List.map_cons, List.nodup_cons] at hnodup
    exact hnodup.1 (heq ▸ List.mem_map_of_mem hy)
  apply Finmap.ext_lookup
  intro k
  by_cases hk : k = key x
  · rw [hk, Finmap.lookup_erase, Finmap.lookup_eq_none]
    exact hnone
  · rw [Finmap.lookup_erase_ne hk, asMap_cons, Finmap.lookup_insert_of_ne _ hk]

end Map

end ThreeW3.Lib
