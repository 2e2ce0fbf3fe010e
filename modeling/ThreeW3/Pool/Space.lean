/-
# The space of a pool

A pool maps a page only when all of its pages are full, and unmaps one when its last chunk
comes back. So it never has more pages than the most chunks that were ever held at a time
need, however they were spread over the pages since, and none when nothing is held.
-/

import Mathlib.Algebra.Order.BigOperators.Group.Finset
import ThreeW3.Pool.Safety

namespace ThreeW3.Pool

open ThreeW3.Lib

variable {L : Layout} {G : Geometry L} {m m' : State} {out l : List ℕ} {stale : Ptr} {a p n : ℕ}
  {h : MempoolPage} {fl : List ℕ}

/-- The mapped pages. -/
def State.mapped (m : State) : List ℕ := m.page.cells.keys

theorem State.mem_mapped : a ∈ m.mapped ↔ (m.page.load a).isSome = true := by
  rw [mapped, Heap.load, AList.lookup_isSome]
  rfl

theorem State.mapped_nodup : m.mapped.Nodup := m.page.cells.nodupKeys

/-! ## Held chunks by page -/

/-- A page has as many held chunks as it counts. -/
theorem PageOk.inuse_le_held (hok : PageOk G m.word out a h fl) :
    h.inuse ≤ (out.toFinset.filter fun p => L.pageOf p = a).card := by
  have hindex : Function.Injective (chunk G a) := fun i j heq => chunk_index_injective heq
  let held := (Finset.range h.used \ fl.toFinset).map ⟨chunk G a, hindex⟩
  have hcard : held.card = h.inuse := by
    have hsub : fl.toFinset ⊆ Finset.range h.used := by
      intro i hi
      exact Finset.mem_range.mpr (hok.free_used i (List.mem_toFinset.mp hi))
    have hcount := hok.count
    rw [Finset.card_map, Finset.card_sdiff_of_subset hsub, Finset.card_range,
      List.toFinset_card_of_nodup hok.free_nodup]
    omega
  rw [← hcard]
  refine Finset.card_le_card fun p hp => ?_
  obtain ⟨i, hi, rfl⟩ := Finset.mem_map.mp hp
  obtain ⟨hused, hfree⟩ := Finset.mem_sdiff.mp hi
  have hlt := Finset.mem_range.mp hused
  refine Finset.mem_filter.mpr ⟨List.mem_toFinset.mpr ?_, ?_⟩
  · exact (hok.held_iff i hlt).mpr fun hmem => hfree (List.mem_toFinset.mpr hmem)
  · exact pageOf_chunk hok.aligned (Nat.lt_of_lt_of_le hlt hok.used_le)

/-- Pages with so many held chunks each. -/
theorem Chunks.mapped_mul_le (hc : Chunks G m.page.load m.word out) (k : ℕ)
    (hk : ∀ a h, m.page.load a = some h → k ≤ h.inuse) : m.mapped.length * k ≤ out.length := by
  have hmaps : ∀ p ∈ out.toFinset, L.pageOf p ∈ m.mapped.toFinset := by
    intro p hp
    obtain ⟨h, -, -, hload, -⟩ := hc.exists_page (List.mem_toFinset.mp hp)
    rw [List.mem_toFinset, State.mem_mapped, hload]
    rfl
  have hfibre : ∀ a ∈ m.mapped.toFinset, k ≤ (out.toFinset.filter fun p => L.pageOf p = a).card := by
    intro a ha
    obtain ⟨h, hload⟩ := Option.isSome_iff_exists.mp (State.mem_mapped.mp (List.mem_toFinset.mp ha))
    obtain ⟨fl, hok⟩ := hc.page_ok a h hload
    exact (hk a h hload).trans hok.inuse_le_held
  calc m.mapped.length * k = m.mapped.toFinset.card • k := by
        rw [List.toFinset_card_of_nodup State.mapped_nodup]
        rfl
    _ ≤ ∑ a ∈ m.mapped.toFinset, (out.toFinset.filter fun p => L.pageOf p = a).card :=
        Finset.card_nsmul_le_sum _ _ _ hfibre
    _ = out.toFinset.card := (Finset.card_eq_sum_card_fiberwise hmaps).symm
    _ = out.length := List.toFinset_card_of_nodup hc.out_nodup

/-- Every mapped page has a held chunk. -/
theorem Inv.mapped_le_held (hI : Inv G m out l stale) : m.mapped.length ≤ out.length := by
  have hmul := hI.chunks.mapped_mul_le 1 hI.inuse_pos
  rwa [Nat.mul_one] at hmul

/-- When no page is on the list, all pages are full. -/
theorem Inv.mapped_mul_le (hI : Inv G m out l stale) (hpages : m.pages = none) :
    m.mapped.length * G.cpp ≤ out.length := by
  refine hI.chunks.mapped_mul_le G.cpp fun a h hload => ?_
  by_contra hlt
  have hmem := (hI.list.mem_iff a).mpr ⟨h, hload, Nat.lt_of_not_le hlt⟩
  rw [hI.list.head, List.head?_eq_none_iff] at hpages
  rw [hpages] at hmem
  cases hmem

/-! ## Pages that come and go -/

theorem State.mapped_length_le {s : List ℕ}
    (hsub : ∀ a, (m.page.load a).isSome = true → a ∈ s) : m.mapped.length ≤ s.length :=
  (State.mapped_nodup.subperm fun a ha => hsub a (State.mem_mapped.mp ha)).length_le

/-- A header is written where one is. -/
theorem isSome_of_store {page : Heap MempoolPage} {b : ℕ} {v : MempoolPage}
    (hb : (page.load b).isSome = true) (ha : ((page.store b v).load a).isSome = true) :
    (page.load a).isSome = true := by
  rw [Heap.load_store] at ha
  split_ifs at ha with hab
  · rwa [hab]
  · exact ha

theorem isSome_of_writeThrough {page page' : Heap MempoolPage} {c : Ptr}
    {f : MempoolPage → MempoolPage} (hwrite : page.writeThrough c f = some page')
    (ha : (page'.load a).isSome = true) : (page.load a).isSome = true := by
  cases c with
  | none =>
      obtain rfl := Option.some.inj hwrite
      exact ha
  | some b =>
      obtain ⟨v, hv, rfl⟩ := Option.map_eq_some_iff.mp hwrite
      exact isSome_of_store (by rw [hv]; rfl) ha

theorem takeChunk_mapped (htake : takeChunk G n m = some (m', p))
    (ha : (m'.page.load a).isSome = true) : (m.page.load a).isSome = true := by
  obtain ⟨h, hload, hrest⟩ := Option.bind_eq_some_iff.mp htake
  obtain ⟨⟨q, h'⟩, -, hrest⟩ := Option.bind_eq_some_iff.mp hrest
  have hn : (m.page.load n).isSome = true := by rw [hload]; rfl
  dsimp only at hrest
  split_ifs at hrest
  all_goals
    obtain ⟨rfl, rfl⟩ := Prod.mk.inj (Option.some.inj hrest)
    exact isSome_of_store hn ha

theorem mempoolGet_isSome {fresh : ℕ} (hget : mempoolGet G fresh m = some (m', p))
    (ha : (m'.page.load a).isSome = true) :
    (m.pages = none ∧ a = fresh) ∨ (m.page.load a).isSome = true := by
  rw [mempoolGet] at hget
  cases hpages : m.pages with
  | some mpp =>
      rw [hpages] at hget
      exact .inr (takeChunk_mapped hget ha)
  | none =>
      rw [hpages] at hget
      have hload := takeChunk_mapped hget ha
      rw [State.mapPage, Heap.load_store] at hload
      split_ifs at hload with hfresh
      · exact .inl ⟨rfl, hfresh⟩
      · exact .inr hload

theorem mempoolGet_mapped {fresh : ℕ} (hget : mempoolGet G fresh m = some (m', p)) :
    m'.mapped.length ≤ if m.pages = none then m.mapped.length + 1 else m.mapped.length := by
  split_ifs with hpages
  · refine State.mapped_length_le (s := fresh :: m.mapped) fun a ha => ?_
    rcases mempoolGet_isSome hget ha with ⟨-, rfl⟩ | hload
    · exact List.mem_cons_self
    · exact List.mem_cons_of_mem _ (State.mem_mapped.mpr hload)
  · refine State.mapped_length_le fun a ha => ?_
    rcases mempoolGet_isSome hget ha with ⟨hnone, -⟩ | hload
    · exact absurd hnone hpages
    · exact State.mem_mapped.mpr hload

theorem mempoolFree_isSome (hfree : mempoolFree L p m = some m')
    (ha : (m'.page.load a).isSome = true) : (m.page.load a).isSome = true := by
  obtain ⟨h, hload, hrest⟩ := Option.bind_eq_some_iff.mp hfree
  have hp : (m.page.load (L.pageOf p)).isSome = true := by rw [hload]; rfl
  dsimp only at hrest
  split_ifs at hrest
  · obtain ⟨page, hwrite, hrest⟩ := Option.bind_eq_some_iff.mp hrest
    obtain ⟨page', hwrite', hrest⟩ := Option.bind_eq_some_iff.mp hrest
    obtain rfl := Option.some.inj hrest
    have ha' : (page'.load a).isSome = true := by
      rw [Heap.load_free] at ha
      split_ifs at ha
      · cases ha
      · exact ha
    exact isSome_of_store hp (isSome_of_writeThrough hwrite (isSome_of_writeThrough hwrite' ha'))
  · rw [releaseChunk] at hrest
    dsimp only at hrest
    split_ifs at hrest
    · obtain ⟨page, hwrite, hrest⟩ := Option.bind_eq_some_iff.mp hrest
      obtain rfl := Option.some.inj hrest
      rw [Heap.load_store] at ha
      split_ifs at ha with hap
      · exact hap ▸ hp
      · exact isSome_of_store hp (isSome_of_store (by simp) (isSome_of_writeThrough hwrite ha))
    · obtain rfl := Option.some.inj hrest
      exact isSome_of_store hp (isSome_of_store (by simp) ha)

theorem mempoolFree_mapped (hfree : mempoolFree L p m = some m') :
    m'.mapped.length ≤ m.mapped.length :=
  State.mapped_length_le fun _ ha => State.mem_mapped.mpr (mempoolFree_isSome hfree ha)

/-! ## Runs -/

/-- The pages that so many chunks need. -/
def pagesFor (G : Geometry L) (n : ℕ) : ℕ := (n + G.cpp - 1) / G.cpp

/-- The pool is in order, and has no more pages than `n` chunks need. -/
def Fits (G : Geometry L) (n : ℕ) (c : Client) : Prop :=
  InOrder G c ∧ c.mem.mapped.length ≤ pagesFor G n

theorem Fits.step {c c' : Client} {call : Call} (hc : Fits G n c) (henabled : call.Enabled L c)
    (horderly : call.Orderly L c) (hstep : c.step G call = some c') (hn : c'.out.length ≤ n) :
    Fits G n c' := by
  obtain ⟨⟨l, stale, hI⟩, hmapped⟩ := hc
  obtain ⟨c'', l', stale', hstep', hI', -⟩ := Client.step_spec hI henabled horderly
  obtain rfl := Option.some.inj (hstep.symm.trans hstep')
  refine ⟨⟨l', stale', hI'⟩, ?_⟩
  cases call with
  | write p v =>
      obtain rfl := Option.some.inj hstep
      exact hmapped
  | free p =>
      obtain ⟨m', hfree, rfl⟩ := Option.map_eq_some_iff.mp hstep
      exact (mempoolFree_mapped hfree).trans hmapped
  | get fresh =>
      obtain ⟨⟨m', p⟩, hget, rfl⟩ := Option.map_eq_some_iff.mp hstep
      have hle := mempoolGet_mapped hget
      split_ifs at hle with hpages
      · -- all pages are full, and the chunk makes one more than they hold
        have hfull := hI.mapped_mul_le hpages
        have hpos := G.cpp_pos
        rw [List.length_cons] at hn
        rw [pagesFor, Nat.le_div_iff_mul_le hpos]
        calc m'.mapped.length * G.cpp ≤ (c.mem.mapped.length + 1) * G.cpp :=
              Nat.mul_le_mul_right _ hle
          _ = c.mem.mapped.length * G.cpp + G.cpp := Nat.succ_mul _ _
          _ ≤ n + G.cpp - 1 := by omega
      · exact hle.trans hmapped

/-- If never more than `n` chunks are held at a time, a pool never has more pages than `n`
chunks need, nor more than the chunks that are held. -/
theorem pages_le_peak (calls : List Call) (hvalid : (machine G).Valid (machine G).init calls)
    (hguard : (machine G).AllSteps (fun c call => call.Orderly L c) (machine G).init calls)
    (hpeak : (machine G).AllStates (fun c => c.out.length ≤ n) (machine G).init calls) :
    (machine G).AllStates (fun c => c.mem.mapped.length ≤ pagesFor G n ∧
      c.mem.mapped.length ≤ c.out.length) (machine G).init calls := by
  have hfits : (machine G).AllStates (Fits G n) (machine G).init calls :=
    Machine.allStates_of_keeps
      (fun c call c' hc henabled hsafe hstep => hc.step henabled hsafe.1 hstep (hsafe.2 c' hstep))
      ⟨inOrder_init, Nat.zero_le _⟩ hvalid (hguard.and hpeak.after)
  refine hfits.mono fun c hc => ⟨hc.2, ?_⟩
  obtain ⟨⟨l, stale, hI⟩, -⟩ := hc
  exact hI.mapped_le_held

theorem refill_mapped :
    (machine twoAPage).AllStates (fun c => c.mem.mapped.length ≤ 2 ∧
      c.mem.mapped.length ≤ c.out.length) (machine twoAPage).init refill :=
  pages_le_peak (n := 4) refill (by decide) (by decide) (by decide)

end ThreeW3.Pool
