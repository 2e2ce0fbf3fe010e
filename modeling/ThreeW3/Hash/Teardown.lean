/-
# Destroying a table

What `hash_destroy` is for: it hands every stored value to the release function, leaves no
page of the pool mapped, and gives the bucket array, the pool and the table back to free(3).
The pool comes from `allocd`, whose pointers lie past the header of their block, so its
address is none that free(3) may get.
-/

import ThreeW3.Hash.Ownership

namespace ThreeW3.Hash

open ThreeW3.Lib ThreeW3.Pool HashTable

variable {R D : Type} {L : Layout} {G : Geometry L} {ht ht' : HashTable R D}

/-- The address may be given to free(3): it is that of a block, and if the block is one of this
code then it has been given out. -/
def Address.Freeable (m : Malloc) (p : Address) : Prop :=
  p.offset = 0 ∧ ∀ n, p.block = .own n → n < m.count

/-- A complete and valid teardown. -/
structure Complete (ht : HashTable R D) (hf : Bool) (w : Destroyed D) : Prop where
  released : w.released.Perm (if hf then ht.nodes.map HashEntry.data else [])
  unmapped : ∀ b, w.mp.page.load b = none
  frees : ∃ frees, w.malloc.freed = ht.malloc.freed ++ frees ∧
    (∀ addr ∈ ht.array, addr ∈ frees) ∧ (∃ p ∈ frees, p.block = ht.mpAddr.block) ∧
    ht.addr ∈ frees ∧ ∀ p ∈ frees, p.Freeable w.malloc

/-! ## The pool of a table -/

/-- No call moves the pool. -/
theorem perform_mpAddr [FloatOps R] {a : Alloc} {op : Op R D} {reply : Reply D}
    (hperform : perform G ht a op = some (ht', reply)) : ht'.mpAddr = ht.mpAddr := by
  obtain ⟨ht₁, hchange, hresized⟩ := perform_cases hperform
  have hchanged : ht₁.mpAddr = ht.mpAddr := by
    cases hchange with
    | grown m hgrown hleft => exact hleft.mpAddr
    | inserted arg key harg hkey hinserted =>
        obtain ⟨_, _, _, _, hleft⟩ := hinserted
        exact hleft.mpAddr
    | updated data hupdated =>
        obtain ⟨_, _, _, hleft⟩ := hupdated
        exact hleft.mpAddr
    | removed arg key hkey hremoved =>
        obtain ⟨_, _, _, _, _, _, hleft⟩ := hremoved
        exact hleft.mpAddr
    | flagged flags hleft => exact hleft.mpAddr
  cases hresized with
  | kept hleft => exact hleft.mpAddr.trans hchanged
  | moved addr harray halloc hleft => exact hleft.mpAddr.trans hchanged
  | lost addr harray halloc hnodes hleft => exact hleft.mpAddr.trans hchanged

theorem exec_mpAddr [FloatOps R] {ht₀ : HashTable R D} {calls : List (Op R D × Alloc)}
    (hexec : (lender G ht₀).exec ht calls = some ht') : ht'.mpAddr = ht.mpAddr := by
  induction calls generalizing ht with
  | nil =>
      obtain rfl := Option.some.inj hexec
      rfl
  | cons call calls ih =>
      obtain ⟨ht₁, hstep, hrest⟩ := Option.bind_eq_some_iff.mp hexec
      obtain ⟨⟨ht₂, reply⟩, hperform, rfl⟩ := Option.map_eq_some_iff.mp hstep
      rw [ih hrest, perform_mpAddr hperform]

theorem hashNew_mpAddr [FloatOps R] {size : BitVec 32} {lock : Bool} {flags : BitVec 32}
    {boot : NewAlloc} (hnew : hashNew size lock flags boot = some (some ht)) :
    ht.mpAddr.offset = allocDataOffset := by
  rw [hashNew] at hnew
  obtain ⟨ns, -, hrest⟩ := Option.bind_eq_some_iff.mp hnew
  split_ifs at hrest
  · simp at hrest
  obtain rfl := Option.some.inj (Option.some.inj hrest)
  rfl

/-! ## Teardown -/

/-- The address of the pool is freed as it is. -/
theorem not_complete (hobject : ht.mpAddr.offset = allocDataOffset) (hf : Bool) :
    ¬ ∃ w, hashDestroy L ht hf = some w ∧ Complete ht hf w := by
  rintro ⟨w, hdestroy, hcomplete⟩
  obtain ⟨frees, hfreed, -, -, -, hfreeable⟩ := hcomplete.frees
  obtain ⟨addr, -, -, hmalloc⟩ := hashDestroy_cases hdestroy
  rw [hmalloc] at hfreed
  obtain rfl := List.append_cancel_left hfreed
  have hoffset := (hfreeable ht.mpAddr (by simp)).1
  rw [hobject] at hoffset
  simp [allocDataOffset, ptrSize] at hoffset

/-- No table that any calls make of a new one is torn down completely. -/
theorem teardown_not_complete [FloatOps R] {size : BitVec 32} {lock : Bool} {flags : BitVec 32}
    {boot : NewAlloc} (hnew : hashNew size lock flags boot = some (some ht))
    (calls : List (Op R D × Alloc)) (hexec : (lender G ht).exec ht calls = some ht') (hf : Bool) :
    ¬ ∃ w, hashDestroy L ht' hf = some w ∧ Complete ht' hf w :=
  not_complete (by rw [exec_mpAddr hexec, hashNew_mpAddr hnew]) hf

/-- All else is as it should be, if each key is settled as at its insertion and the pool takes
every chunk back: the address of the pool is the only one that free(3) may not get. -/
theorem teardown_but_pool (hheld : ht.Held G) (harray : ht.array ≠ none) (hsettled : ht.Settled L)
    (hf : Bool) :
    ∃ w frees, hashDestroy L ht hf = some w ∧
      w.released = (if hf then ht.nodes.map HashEntry.data else []) ∧
      (∀ b, w.mp.page.load b = none) ∧ w.malloc.freed = ht.malloc.freed ++ frees ∧
      (∀ addr ∈ ht.array, addr ∈ frees) ∧ ht.mpAddr ∈ frees ∧ ht.addr ∈ frees ∧
      ∀ p ∈ frees, p.Freeable w.malloc ↔ p ≠ ht.mpAddr := by
  obtain ⟨w, hdestroy, hunmapped⟩ := hashDestroy_spec hheld.pool harray hsettled.drains hf
  obtain ⟨addr, haddr, hreleased, hmalloc⟩ := hashDestroy_cases hdestroy
  obtain ⟨n, hobject⟩ := hheld.accounted.pool
  have hobjects := hheld.accounted.account.objects
  rw [haddr] at hobjects
  have hgiven : ∀ p : Address, p.GivenOut ht.malloc → (p.Freeable w.malloc ↔ p ≠ ht.mpAddr) := by
    rintro p ⟨k, hlt, rfl⟩
    refine iff_of_true ⟨rfl, ?_⟩ ?_
    · rintro m hm
      obtain rfl := Block.own.inj hm
      rwa [hmalloc]
    · rw [hobject]
      simp [allocDataOffset, ptrSize]
  refine ⟨w, _, hdestroy, hreleased, hunmapped, by rw [hmalloc], by simp [haddr], by simp,
    by simp, ?_⟩
  intro p hp
  rcases List.mem_append.mp hp with hp | hp
  · exact hgiven p (hheld.accounted.account.copied p (hheld.accounted.mem_copied hsettled.flag hp))
  simp only [List.mem_cons, List.not_mem_nil, or_false] at hp
  rcases hp with rfl | rfl | rfl
  · exact hgiven p (hobjects p (by simp)).1
  · refine iff_of_false ?_ (by simp)
    rintro ⟨hoffset, -⟩
    rw [hobject] at hoffset
    simp [allocDataOffset, ptrSize] at hoffset
  · exact hgiven _ (hobjects _ (by simp)).1

/-- The calls `loans` end with one entry. -/
theorem loans_not_complete :
    ∃ ht', (lender entryGeometry smallTable).exec smallTable loans = some ht' ∧ ht'.entries = 1 ∧
      ¬ ∃ w, hashDestroy lp64 ht' true = some w ∧ Complete ht' true w := by
  have hentries : ((lender entryGeometry smallTable).exec smallTable loans).map
      HashTable.entries = some 1 := by decide +kernel
  obtain ⟨ht', hexec, hone⟩ := Option.map_eq_some_iff.mp hentries
  exact ⟨ht', hexec, hone, teardown_not_complete smallTable_new loans hexec true⟩

/-- A new table is destroyed, and free(3) gets an address inside the block of the pool. -/
theorem smallTable_not_complete :
    (hashDestroy lp64 smallTable true).map (fun w => w.malloc.freed) =
        some [⟨.own 1, 0⟩, ⟨.own 2, allocDataOffset⟩, ⟨.own 0, 0⟩] ∧
      ¬ ∃ w, hashDestroy lp64 smallTable true = some w ∧ Complete smallTable true w :=
  ⟨by decide +kernel, not_complete rfl true⟩

end ThreeW3.Hash
