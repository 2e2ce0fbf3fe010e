/-
# Maps in insertion order

Keys with values, each key once. A value for a new key goes to the end, a value for a key
that is there takes its place, and erasing a key leaves the others in their order. After a
list of changes a key has the value that was last set and has not been erased since.
-/

import Mathlib.Data.List.Induction
import Mathlib.Data.List.Nodup

namespace ThreeW3.Lib

universe u v

/-- Keys with values in order, each key once. -/
structure OrderedMap (K : Type u) (V : Type v) where
  entries : List (K × V)
  nodup : (entries.map Prod.fst).Nodup

namespace OrderedMap

variable {K : Type u} {V : Type v}

/-- The keys in order. -/
def keys (m : OrderedMap K V) : List K := m.entries.map Prod.fst

def empty : OrderedMap K V := ⟨[], List.nodup_nil⟩

variable [DecidableEq K] {m : OrderedMap K V} {k j : K} {v w : V} {before after : List (K × V)}

/-- The value of a key. -/
def lookup (m : OrderedMap K V) (k : K) : Option V :=
  (m.entries.find? fun e => e.1 = k).map Prod.snd

private theorem map_set_fst (l : List (K × V)) (k : K) (v : V) :
    (l.map fun e => if e.1 = k then (k, v) else e).map Prod.fst = l.map Prod.fst := by
  rw [List.map_map]
  refine List.map_congr_left fun e _ => ?_
  simp only [Function.comp_apply]
  split_ifs with he
  · exact he.symm
  · rfl

/-- Set the value of a key. -/
def insert (m : OrderedMap K V) (k : K) (v : V) : OrderedMap K V where
  entries :=
    if k ∈ m.keys then m.entries.map fun e => if e.1 = k then (k, v) else e
    else m.entries ++ [(k, v)]
  nodup := by
    split_ifs with hk
    · rw [map_set_fst]
      exact m.nodup
    · rw [List.map_append]
      refine List.nodup_append.mpr ⟨m.nodup, List.nodup_singleton _, ?_⟩
      intro i hi j hj heq
      obtain rfl : j = k := by simpa using hj
      exact hk (heq ▸ hi)

/-- Drop a key. -/
def erase (m : OrderedMap K V) (k : K) : OrderedMap K V where
  entries := m.entries.filter fun e => e.1 ≠ k
  nodup := m.nodup.sublist (List.Sublist.map _ List.filter_sublist)

omit [DecidableEq K] in
theorem mem_keys_iff : k ∈ m.keys ↔ ∃ v, (k, v) ∈ m.entries := by
  simp [keys]

/-! ## Where a key is -/

omit [DecidableEq K] in
/-- The other keys, on both sides of one. -/
theorem ne_of_split (hsplit : m.entries = before ++ (k, v) :: after) :
    (∀ e ∈ before, e.1 ≠ k) ∧ ∀ e ∈ after, e.1 ≠ k := by
  have hnodup := m.nodup
  rw [hsplit, List.map_append, List.map_cons, List.nodup_append, List.nodup_cons] at hnodup
  constructor
  · intro e he heq
    exact hnodup.2.2 e.1 (List.mem_map_of_mem he) k (by simp) heq
  · intro e he heq
    exact hnodup.2.1.1 (List.mem_map.mpr ⟨e, he, heq⟩)

theorem lookup_of_split (hsplit : m.entries = before ++ (k, v) :: after) :
    m.lookup k = some v := by
  have hbefore : before.find? (fun e => e.1 = k) = none := by
    rw [List.find?_eq_none]
    intro e he
    simpa using (ne_of_split hsplit).1 e he
  rw [lookup, hsplit, List.find?_append, hbefore, Option.none_or, List.find?_cons_of_pos (by simp)]
  rfl

theorem lookup_of_notMem (hk : k ∉ m.keys) : m.lookup k = none := by
  have hnone : m.entries.find? (fun e => e.1 = k) = none := by
    rw [List.find?_eq_none]
    intro e he heq
    exact hk (List.mem_map.mpr ⟨e, he, by simpa using heq⟩)
  rw [lookup, hnone]
  rfl

/-- A new key goes to the end. -/
theorem insert_of_notMem (hk : k ∉ m.keys) : (m.insert k v).entries = m.entries ++ [(k, v)] :=
  if_neg hk

/-- A key that is there keeps its place. -/
theorem insert_of_split (hsplit : m.entries = before ++ (k, w) :: after) :
    (m.insert k v).entries = before ++ (k, v) :: after := by
  have hmem : k ∈ m.keys := mem_keys_iff.mpr ⟨w, by rw [hsplit]; simp⟩
  have hsame : ∀ l : List (K × V), (∀ e ∈ l, e.1 ≠ k) →
      l.map (fun e => if e.1 = k then (k, v) else e) = l := by
    intro l hl
    refine (List.map_congr_left fun e he => if_neg (hl e he)).trans (List.map_id' l)
  obtain ⟨hbefore, hafter⟩ := ne_of_split hsplit
  have hentries : (m.insert k v).entries =
      m.entries.map fun e => if e.1 = k then (k, v) else e := if_pos hmem
  rw [hentries, hsplit, List.map_append, List.map_cons, hsame _ hbefore, hsame _ hafter, if_pos rfl]

theorem erase_of_notMem (hk : k ∉ m.keys) : (m.erase k).entries = m.entries := by
  refine List.filter_eq_self.mpr fun e he => ?_
  simpa using fun heq : e.1 = k => hk (heq ▸ List.mem_map_of_mem he)

theorem erase_of_split (hsplit : m.entries = before ++ (k, v) :: after) :
    (m.erase k).entries = before ++ after := by
  obtain ⟨hbefore, hafter⟩ := ne_of_split hsplit
  have hkeep : ∀ l : List (K × V), (∀ e ∈ l, e.1 ≠ k) → l.filter (fun e => e.1 ≠ k) = l :=
    fun l hl => List.filter_eq_self.mpr fun e he => by simpa using hl e he
  have hentries : (m.erase k).entries = m.entries.filter fun e => e.1 ≠ k := rfl
  rw [hentries, hsplit, List.filter_append, List.filter_cons_of_neg (by simp), hkeep _ hbefore,
    hkeep _ hafter]

/-- A key is there, in one place, or it is not. -/
theorem split_cases (m : OrderedMap K V) (k : K) :
    k ∉ m.keys ∨ ∃ before v after, m.entries = before ++ (k, v) :: after := by
  by_cases hk : k ∈ m.keys
  · obtain ⟨v, hv⟩ := mem_keys_iff.mp hk
    obtain ⟨before, after, hsplit⟩ := List.append_of_mem hv
    exact .inr ⟨before, v, after, hsplit⟩
  · exact .inl hk

/-- Replacing a value leaves the order of the keys. -/
theorem keys_insert (m : OrderedMap K V) (k : K) (v : V) :
    (m.insert k v).keys = if k ∈ m.keys then m.keys else m.keys ++ [k] := by
  rw [keys, insert]
  split_ifs
  · exact map_set_fst m.entries k v
  · rw [List.map_append]
    rfl

/-! ## Looking up -/

theorem lookup_insert_self : (m.insert k v).lookup k = some v := by
  rcases m.split_cases k with hk | ⟨before, w, after, hsplit⟩
  · exact lookup_of_split (insert_of_notMem hk)
  · exact lookup_of_split (insert_of_split hsplit)

theorem lookup_insert_of_ne (hjk : j ≠ k) : (m.insert k v).lookup j = m.lookup j := by
  have hskip : ∀ (u : V) (l : List (K × V)),
      ((k, u) :: l).find? (fun e => e.1 = j) = l.find? fun e => e.1 = j :=
    fun u l => List.find?_cons_of_neg (by simpa using hjk.symm)
  rcases m.split_cases k with hk | ⟨before, w, after, hsplit⟩
  · rw [lookup, lookup, insert_of_notMem hk, List.find?_append, hskip, List.find?_nil, Option.or_none]
  · rw [lookup, lookup, insert_of_split hsplit, hsplit, List.find?_append, List.find?_append, hskip,
      hskip]

theorem lookup_erase_self : (m.erase k).lookup k = none := by
  refine lookup_of_notMem ?_
  rw [keys, erase]
  simp

theorem lookup_erase_of_ne (hjk : j ≠ k) : (m.erase k).lookup j = m.lookup j := by
  rcases m.split_cases k with hk | ⟨before, w, after, hsplit⟩
  · rw [lookup, lookup, erase_of_notMem hk]
  · rw [lookup, lookup, erase_of_split hsplit, hsplit, List.find?_append, List.find?_append,
      List.find?_cons_of_neg (by simpa using hjk.symm)]

/-! ## Histories -/

/-- A change of a map. -/
inductive Change (K : Type u) (V : Type v)
  | set (k : K) (v : V)
  | del (k : K)

def Change.key : Change K V → K
  | .set k _ => k
  | .del k => k

/-- The effect of a change. -/
def change (m : OrderedMap K V) : Change K V → OrderedMap K V
  | .set k v => m.insert k v
  | .del k => m.erase k

/-- The map after some changes. -/
def replay (cs : List (Change K V)) : OrderedMap K V := cs.foldl change empty

theorem replay_concat (cs : List (Change K V)) (c : Change K V) :
    replay (cs ++ [c]) = (replay cs).change c := by
  rw [replay, List.foldl_append]
  rfl

theorem lookup_change_of_ne {c : Change K V} (hkey : c.key ≠ k) :
    (m.change c).lookup k = m.lookup k := by
  cases c with
  | set j v => exact lookup_insert_of_ne (Ne.symm hkey)
  | del j => exact lookup_erase_of_ne (Ne.symm hkey)

/-- A key has a value exactly if that value was set and the key has not been changed since. -/
theorem lookup_replay_eq_some {cs : List (Change K V)} :
    (replay cs).lookup k = some v ↔
      ∃ pre post, cs = pre ++ .set k v :: post ∧ ∀ c ∈ post, c.key ≠ k := by
  induction cs using List.reverseRecOn with
  | nil => simp [replay, empty, lookup]
  | append_singleton cs c ih =>
      rw [replay_concat]
      by_cases hkey : c.key = k
      · -- Only the last change counts.
        have hlast : (∃ pre post, cs ++ [c] = pre ++ .set k v :: post ∧ ∀ d ∈ post, d.key ≠ k) ↔
            c = .set k v := by
          constructor
          · rintro ⟨pre, post, hcs, hpost⟩
            rcases List.eq_nil_or_concat post with rfl | ⟨post, d, rfl⟩
            · exact (List.append_inj' hcs rfl).2 |> List.singleton_injective
            · rw [List.concat_eq_append] at hcs hpost
              have hd : c = d := by
                have hend : cs ++ [c] = (pre ++ .set k v :: post) ++ [d] := by simpa using hcs
                exact List.singleton_injective (List.append_inj' hend rfl).2
              exact absurd (hd ▸ hkey) (hpost d (by simp))
          · rintro rfl
            exact ⟨cs, [], rfl, by simp⟩
        rw [hlast]
        cases c with
        | set j w =>
            obtain rfl : j = k := hkey
            rw [change, lookup_insert_self, Change.set.injEq, Option.some.injEq]
            exact ⟨fun h => ⟨rfl, h⟩, fun h => h.2⟩
        | del j =>
            obtain rfl : j = k := hkey
            rw [change, lookup_erase_self]
            simp
      · rw [lookup_change_of_ne hkey, ih]
        constructor
        · rintro ⟨pre, post, rfl, hpost⟩
          refine ⟨pre, post ++ [c], by simp, ?_⟩
          intro d hd
          rcases List.mem_append.mp hd with hd | hd
          · exact hpost d hd
          · rw [List.mem_singleton.mp hd]
            exact hkey
        · rintro ⟨pre, post, hcs, hpost⟩
          rcases List.eq_nil_or_concat post with rfl | ⟨post, d, rfl⟩
          · have hc := List.singleton_injective (List.append_inj' hcs rfl).2
            exact absurd (by rw [hc]; rfl) hkey
          · rw [List.concat_eq_append] at hcs hpost
            have hend : cs ++ [c] = (pre ++ .set k v :: post) ++ [d] := by simpa using hcs
            refine ⟨pre, post, (List.append_inj' hend rfl).1, fun e he => hpost e (by simp [he])⟩

end OrderedMap

end ThreeW3.Lib
