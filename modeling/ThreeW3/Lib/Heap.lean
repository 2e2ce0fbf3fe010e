/-
# A heap of records

Records of one type at numbered addresses, finitely many at a time. `load` is
`none` at an address that holds no record; a program that reads or writes there
faults. The field view `field` turns a pointer field of the records into a link
function, and the lemmas here say how each heap operation acts on such links.
-/

import Mathlib.Data.List.AList
import ThreeW3.Lib.Chain

namespace ThreeW3.Lib

universe u

/-- A pointer is an address, a plain number, or `none`, the null pointer. -/
abbrev Ptr := Option ℕ

/-- Records at finitely many addresses. -/
structure Heap (V : Type u) where
  /-- The records, each under its address. -/
  cells : AList (fun _ : ℕ => V)

namespace Heap

variable {V : Type u} {h : Heap V} {a b : ℕ} {v : V}

/-- The heap without records. -/
def empty : Heap V := ⟨∅⟩

/-- The record at an address. -/
def load (h : Heap V) (a : ℕ) : Option V := h.cells.lookup a

/-- Write a record, new or in place of the old one. -/
def store (h : Heap V) (a : ℕ) (v : V) : Heap V := ⟨h.cells.insert a v⟩

/-- Drop the record at an address. -/
def free (h : Heap V) (a : ℕ) : Heap V := ⟨h.cells.erase a⟩

/-- `if (p) *p = f(*p)`: nothing through a null pointer, a fault through a
pointer to no record. -/
def writeThrough (h : Heap V) (p : Ptr) (f : V → V) : Option (Heap V) :=
  match p with
  | none => some h
  | some a => (h.load a).map fun v => h.store a (f v)

/-- A pointer field of the records as a link function. -/
def field (h : Heap V) (get : V → Ptr) (a : ℕ) : Ptr := (h.load a).bind get

@[simp]
theorem load_empty : (empty : Heap V).load a = none := by
  simp [load, empty]

theorem load_store : (h.store a v).load b = if b = a then some v else h.load b := by
  by_cases hba : b = a
  · subst hba
    simp [load, store]
  · simp [load, store, hba, AList.lookup_insert_ne hba]

@[simp]
theorem load_store_self : (h.store a v).load a = some v := by
  simp [load_store]

theorem load_store_of_ne (hba : b ≠ a) : (h.store a v).load b = h.load b := by
  simp [load_store, hba]

theorem load_free : (h.free a).load b = if b = a then none else h.load b := by
  by_cases hba : b = a
  · subst hba
    simp [load, free]
  · simp [load, free, hba, AList.lookup_erase_ne hba]

/-- Writing through a pointer to a record succeeds and changes that record only. -/
theorem exists_writeThrough {p : Ptr} (f : V → V) (hp : ∀ a ∈ p, ∃ v, h.load a = some v) :
    ∃ h', h.writeThrough p f = some h' ∧
      ∀ b, h'.load b = if p = some b then (h.load b).map f else h.load b := by
  cases p with
  | none => exact ⟨h, rfl, fun b => by simp⟩
  | some a =>
      obtain ⟨v, hv⟩ := hp a rfl
      refine ⟨h.store a (f v), by simp [writeThrough, hv], fun b => ?_⟩
      by_cases hba : b = a
      · subst hba
        simp [hv]
      · simp [load_store_of_ne hba, Ne.symm hba]

theorem field_of_load {get : V → Ptr} (hv : h.load a = some v) : h.field get a = get v := by
  simp [field, hv]

theorem field_eq_of_load_eq {h' : Heap V} {get : V → Ptr} (heq : h'.load a = h.load a) :
    h'.field get a = h.field get a := by
  simp [field, heq]

theorem field_store {get : V → Ptr} :
    (h.store a v).field get = Function.update (h.field get) a (get v) := by
  funext b
  by_cases hba : b = a
  · subst hba
    simp [field]
  · simp [field, load_store, hba]

theorem field_free {get : V → Ptr} :
    (h.free a).field get = Function.update (h.field get) a none := by
  funext b
  by_cases hba : b = a
  · subst hba
    simp [field, load_free]
  · simp [field, load_free, hba]

/-- Writing another field of a record leaves a pointer field alone. -/
theorem field_eq_of_unchanged {h' : Heap V} {get : V → Ptr} {set : V → V} {p : Ptr}
    (hset : ∀ r, get (set r) = get r)
    (hload : ∀ b, h'.load b = if p = some b then (h.load b).map set else h.load b) :
    h'.field get = h.field get := by
  funext b
  rw [field, field, hload]
  split_ifs
  · cases h.load b <;> simp [hset]
  · rfl

/-- Writing `v` into a pointer field of the record before a removed one is the
splice of the link function of that field. -/
theorem field_eq_splice {h' : Heap V} {get : V → Ptr} {set : V → V} {p v : Ptr}
    (hset : ∀ r, get (set r) = v) (hp : ∀ a ∈ p, ∃ r, h.load a = some r)
    (hload : ∀ b, h'.load b = if p = some b then (h.load b).map set else h.load b) :
    h'.field get = Chain.splice (h.field get) p v := by
  funext b
  cases p with
  | none => exact field_eq_of_load_eq (by simpa using hload b)
  | some a =>
      obtain ⟨r, hr⟩ := hp a rfl
      by_cases hba : b = a
      · subst hba
        simp [field, hload, hr, hset, Chain.splice]
      · have : a ≠ b := Ne.symm hba
        simp [field, hload, this, hba, Chain.splice]

/-! ### Counting -/

/-- The number of records that satisfy a test. -/
def countP (h : Heap V) (test : ℕ → V → Bool) : ℕ := h.cells.entries.countP fun e => test e.1 e.2

section CountP

variable {p q : ℕ → V → Bool}

@[simp]
theorem countP_empty : (empty : Heap V).countP p = 0 := rfl

private theorem countP_eq_length (h : Heap V) (p : ℕ → V → Bool) :
    h.countP p = (h.cells.keys.filter fun a => (h.load a).elim false (p a)).length := by
  rw [countP, AList.keys, List.keys, ← List.countP_eq_length_filter, List.countP_map]
  refine List.countP_congr fun ⟨a, v⟩ hmem => ?_
  have hload : h.load a = some v := AList.mem_lookup_iff.mpr hmem
  simp [hload]

/-- The count depends on what is loaded only. -/
theorem countP_eq_of_load {h' : Heap V}
    (htest : ∀ a, (h'.load a).elim false (q a) = (h.load a).elim false (p a)) :
    h'.countP q = h.countP p := by
  have hmem : ∀ (g : Heap V) (t : ℕ → V → Bool) (a : ℕ),
      (a ∈ g.cells.keys.filter fun a => (g.load a).elim false (t a)) ↔
        (g.load a).elim false (t a) = true := by
    intro g t a
    rw [List.mem_filter, and_iff_right_iff_imp, ← AList.mem_keys, ← AList.lookup_isSome]
    intro ha
    change (g.load a).isSome
    cases hload : g.load a with
    | none => simp [hload] at ha
    | some v => rfl
  rw [countP_eq_length, countP_eq_length]
  refine List.Perm.length_eq ((List.perm_ext_iff_of_nodup (h'.cells.keys_nodup.filter _)
    (h.cells.keys_nodup.filter _)).mpr fun a => ?_)
  rw [hmem, hmem, htest]

/-- What is counted is there. -/
theorem exists_of_countP_pos (hpos : 0 < h.countP p) :
    ∃ a v, h.load a = some v ∧ p a v = true := by
  rw [countP_eq_length] at hpos
  obtain ⟨a, ha⟩ := List.exists_mem_of_length_pos hpos
  have htest := (List.mem_filter.mp ha).2
  cases hload : h.load a with
  | none => simp [hload] at htest
  | some v => exact ⟨a, v, hload, by simpa [hload] using htest⟩

/-- Dropping a record drops it from the count. -/
theorem countP_free (hv : h.load a = some v) :
    (h.free a).countP p + (if p a v then 1 else 0) = h.countP p := by
  have hmem : a ∈ h.cells := AList.lookup_isSome.mp (by rw [← load, hv]; rfl)
  obtain ⟨w, l₁, l₂, -, hsplit, hrest⟩ := List.exists_of_kerase (AList.mem_keys.mp hmem)
  have hw : w = v := by
    have hin : (⟨a, w⟩ : Sigma fun _ : ℕ => V) ∈ h.cells.entries := by rw [hsplit]; simp
    rw [load, AList.mem_lookup_iff.mpr hin] at hv
    exact Option.some.inj hv
  subst hw
  have hfree : (h.free a).cells.entries = l₁ ++ l₂ := hrest
  simp only [countP, hfree, hsplit, List.countP_append, List.countP_cons]
  omega

/-- A test that does not count the record dropped. -/
theorem countP_free_of_false (hv : h.load a = some v) (htest : p a v = false) :
    (h.free a).countP p = h.countP p := by
  have hfree := countP_free (p := p) hv
  simpa [htest] using hfree

/-- A record more. -/
theorem countP_store_new (hnew : h.load a = none) :
    (h.store a v).countP p = h.countP p + if p a v then 1 else 0 := by
  have hentries : (h.store a v).cells.entries = ⟨a, v⟩ :: h.cells.entries :=
    AList.entries_insert_of_notMem (AList.lookup_eq_none.mp hnew)
  rw [countP, countP, hentries, List.countP_cons]

/-- Another record in place of one. -/
theorem countP_store {w : V} (hw : h.load a = some w) :
    (h.store a v).countP p + (if p a w then 1 else 0) =
      h.countP p + if p a v then 1 else 0 := by
  have hentries : (h.store a v).countP p = (h.free a).countP p + if p a v then 1 else 0 := by
    rw [countP, countP, store, free, AList.entries_insert, List.countP_cons]
    rfl
  have hfree := countP_free (p := p) hw
  omega

/-- A test that counts one record less. -/
theorem countP_without (hv : h.load a = some v)
    (htest : ∀ b w, b ≠ a → q b w = p b w) (hout : q a v = false) :
    h.countP q + (if p a v then 1 else 0) = h.countP p := by
  have hsame : (h.free a).countP q = (h.free a).countP p := by
    refine countP_eq_of_load fun b => ?_
    rw [load_free]
    split_ifs with hb
    · rfl
    · cases h.load b with
      | none => rfl
      | some w => exact htest b w hb
  have hfree := countP_free (p := p) hv
  have hfree' := countP_free_of_false hv hout
  omega

/-- Records below an address are no more than that. -/
theorem countP_le {n : ℕ} (hlt : ∀ a v, h.load a = some v → a < n) : h.countP p ≤ n := by
  have hkeys : h.cells.keys.length ≤ n := by
    refine length_le_of_nodup_of_lt h.cells.keys_nodup fun a ha => ?_
    obtain ⟨v, hv⟩ := Option.isSome_iff_exists.mp (AList.lookup_isSome.mpr (AList.mem_keys.mpr ha))
    exact hlt a v hv
  have hlength : h.cells.keys.length = h.cells.entries.length := by simp [AList.keys, List.keys]
  exact le_trans List.countP_le_length (hlength ▸ hkeys)

end CountP

end Heap

end ThreeW3.Lib
