/-
# The chunks of a page

Where chunks lie, and the accounting of one page: which of its chunks are held,
which are on its free list, and which were never used. The accounting does not
mention the links between pages, so it survives whatever happens to them.
-/

import ThreeW3.Pool.Model

namespace ThreeW3.Pool

open ThreeW3.Lib

variable {L : Layout} {G : Geometry L}

/-! ## Addresses -/

theorem Layout.pageOf_eq (p : ℕ) : L.pageOf p = p / L.pagesize * L.pagesize := by
  simp only [Layout.pageOf, Layout.pagesize, Nat.shiftRight_eq_div_pow, Nat.shiftLeft_eq]

theorem Layout.pageOf_add {a k : ℕ} (ha : L.pageOf a = a) (hk : k < L.pagesize) :
    L.pageOf (a + k) = a := by
  rw [L.pageOf_eq] at ha ⊢
  have hpos : 0 < L.pagesize := Nat.lt_of_le_of_lt (Nat.zero_le k) hk
  have hdiv : (a + k) / L.pagesize = a / L.pagesize := by
    conv_lhs => rw [← ha, Nat.mul_comm, Nat.mul_add_div hpos, Nat.div_eq_of_lt hk]
    omega
  rw [hdiv, ha]

/-- A chunk ends inside the page it starts in. -/
theorem chunk_end_le {i : ℕ} (hi : i < G.cpp) :
    L.dataOffset + i * G.size + G.size ≤ L.pagesize := by
  have hmul : (i + 1) * G.size ≤ G.cpp * G.size := Nat.mul_le_mul_right _ hi
  have hfit := G.chunks_fit
  rw [Nat.add_mul, Nat.one_mul] at hmul
  omega

theorem pageOf_chunk {a i : ℕ} (ha : L.pageOf a = a) (hi : i < G.cpp) :
    L.pageOf (chunk G a i) = a := by
  have hend := chunk_end_le (G := G) hi
  have hsize := G.size_pos
  rw [chunk, Nat.add_assoc]
  exact L.pageOf_add ha (by omega)

theorem chunk_injective {a b i j : ℕ} (ha : L.pageOf a = a) (hb : L.pageOf b = b)
    (hi : i < G.cpp) (hj : j < G.cpp) (heq : chunk G a i = chunk G b j) : a = b ∧ i = j := by
  have hab : a = b := by
    rw [← pageOf_chunk (G := G) ha hi, heq, pageOf_chunk hb hj]
  subst hab
  refine ⟨rfl, Nat.eq_of_mul_eq_mul_right G.size_pos ?_⟩
  simpa [chunk] using heq

theorem chunk_index_injective {a i j : ℕ} (heq : chunk G a i = chunk G a j) : i = j :=
  Nat.eq_of_mul_eq_mul_right G.size_pos (by simpa [chunk] using heq)

/-- Two chunks have no byte in common. -/
def Apart (G : Geometry L) (p q : ℕ) : Prop := p + G.size ≤ q ∨ q + G.size ≤ p

instance (p q : ℕ) : Decidable (Apart G p q) :=
  inferInstanceAs (Decidable (p + G.size ≤ q ∨ q + G.size ≤ p))

theorem chunk_apart_of_lt {a i j : ℕ} (hij : i < j) :
    chunk G a i + G.size ≤ chunk G a j := by
  have hmul : (i + 1) * G.size ≤ j * G.size := Nat.mul_le_mul_right _ hij
  rw [Nat.add_mul, Nat.one_mul] at hmul
  simp only [chunk]
  omega

/-- The pages may be of two pools. -/
theorem chunk_apart_of_page_lt {G' : Geometry L} {a b i j : ℕ} (ha : L.pageOf a = a)
    (hb : L.pageOf b = b) (hi : i < G.cpp) (hab : a < b) :
    chunk G a i + G.size ≤ chunk G' b j := by
  have hend := chunk_end_le (G := G) hi
  rw [L.pageOf_eq] at ha hb
  have hquot : a / L.pagesize < b / L.pagesize := by
    by_contra hle
    have hmul := Nat.mul_le_mul_right L.pagesize (Nat.le_of_not_lt hle)
    omega
  have hmul := Nat.mul_le_mul_right L.pagesize (Nat.succ_le_of_lt hquot)
  rw [Nat.succ_mul] at hmul
  simp only [chunk]
  omega

/-- Different chunks of aligned pages have no byte in common. -/
theorem chunk_apart {a b i j : ℕ} (ha : L.pageOf a = a) (hb : L.pageOf b = b)
    (hi : i < G.cpp) (hj : j < G.cpp) (hne : chunk G a i ≠ chunk G b j) :
    Apart G (chunk G a i) (chunk G b j) := by
  rcases Nat.lt_trichotomy a b with hab | hab | hab
  · exact .inl (chunk_apart_of_page_lt ha hb hi hab)
  · subst hab
    rcases Nat.lt_trichotomy i j with hij | hij | hij
    · exact .inl (chunk_apart_of_lt hij)
    · exact absurd (by rw [hij]) hne
    · exact .inr (chunk_apart_of_lt hij)
  · exact .inr (chunk_apart_of_page_lt hb ha hj hab)

/-! ## One page -/

/-- The accounting of one page, with `fl` the indices on its free list: the
list is threaded through the words of its chunks, the held chunks are the used
ones outside it, and `inuse` counts them. -/
structure PageOk (G : Geometry L) (word : ℕ → Ptr) (out : List ℕ) (a : ℕ)
    (h : MempoolPage) (fl : List ℕ) : Prop where
  aligned : L.pageOf a = a
  used_le : h.used ≤ G.cpp
  free_head : h.free = (fl.map (chunk G a)).head?
  free_chain : Chain word (fl.map (chunk G a)) none
  free_nodup : fl.Nodup
  free_used : ∀ i ∈ fl, i < h.used
  count : h.inuse + fl.length = h.used
  held_iff : ∀ i, i < h.used → (chunk G a i ∈ out ↔ i ∉ fl)

namespace PageOk

variable {word word' : ℕ → Ptr} {out out' : List ℕ} {a i j : ℕ} {h h' : MempoolPage}
  {fl : List ℕ}

theorem inuse_le (hok : PageOk G word out a h fl) : h.inuse ≤ G.cpp := by
  have hcount := hok.count
  have hused := hok.used_le
  omega

/-- The accounting of a page reads its counters, the words of its free chunks
and which of its chunks are held; the links are no part of it. -/
theorem frame (hok : PageOk G word out a h fl)
    (hused : h'.used = h.used) (hinuse : h'.inuse = h.inuse) (hfree : h'.free = h.free)
    (hword : ∀ i ∈ fl, word' (chunk G a i) = word (chunk G a i))
    (hout : ∀ i, i < h.used → (chunk G a i ∈ out' ↔ chunk G a i ∈ out)) :
    PageOk G word' out' a h' fl where
  aligned := hok.aligned
  used_le := hused ▸ hok.used_le
  free_head := hfree ▸ hok.free_head
  free_chain := by
    refine hok.free_chain.congr fun p hp => ?_
    obtain ⟨i, hi, rfl⟩ := List.mem_map.mp hp
    exact hword i hi
  free_nodup := hok.free_nodup
  free_used := hused ▸ hok.free_used
  count := by rw [hinuse, hused, hok.count]
  held_iff i hi := by
    rw [hused] at hi
    exact (hout i hi).trans (hok.held_iff i hi)

/-- Holding a chunk leaves less than `used` of them free. -/
theorem inuse_pos (hok : PageOk G word out a h fl) (hi : i < h.used) (hheld : i ∉ fl) :
    0 < h.inuse := by
  have hlen := length_le_of_nodup_of_lt (List.nodup_cons.mpr ⟨hheld, hok.free_nodup⟩)
    (by simpa using ⟨hi, hok.free_used⟩)
  have hcount := hok.count
  simp only [List.length_cons] at hlen
  omega

/-- With one chunk in use, every other used chunk is free. -/
theorem mem_free_of_inuse_one (hok : PageOk G word out a h fl) (hone : h.inuse = 1)
    (hi : i < h.used) (hheld : i ∉ fl) (hj : j < h.used) (hne : j ≠ i) : j ∈ fl := by
  by_contra hfree
  have hnodup : (j :: i :: fl).Nodup := by
    simp [hne, hfree, hheld, hok.free_nodup]
  have hlen := length_le_of_nodup_of_lt hnodup (by simpa using ⟨hj, hi, hok.free_used⟩)
  have hcount := hok.count
  simp only [List.length_cons] at hlen
  omega

/-- Taking the head of a nonempty free list. -/
theorem pop (hok : PageOk G word out a h (i :: fl)) :
    PageOk G word (chunk G a i :: out) a
      { h with free := word (chunk G a i), inuse := h.inuse + 1 } fl where
  aligned := hok.aligned
  used_le := hok.used_le
  free_head := by simpa using hok.free_chain.1
  free_chain := hok.free_chain.2
  free_nodup := (List.nodup_cons.mp hok.free_nodup).2
  free_used j hj := hok.free_used j (by simp [hj])
  count := by
    have hcount := hok.count
    simp only [List.length_cons] at hcount ⊢
    omega
  held_iff j hj := by
    have hheld := hok.held_iff j hj
    by_cases hji : j = i
    · subst hji
      simp [(List.nodup_cons.mp hok.free_nodup).1]
    · have hchunk : chunk G a j ≠ chunk G a i := fun heq => hji (chunk_index_injective heq)
      simpa [hchunk, hji] using hheld

/-- Taking the first chunk that was never used, when the free list is empty. -/
theorem grow (hok : PageOk G word out a h []) (hroom : h.inuse < G.cpp) :
    PageOk G word (chunk G a h.used :: out) a
      { h with used := h.used + 1, inuse := h.inuse + 1 } [] where
  aligned := hok.aligned
  used_le := by
    have hcount := hok.count
    simp only [List.length_nil] at hcount ⊢
    omega
  free_head := hok.free_head
  free_chain := trivial
  free_nodup := List.nodup_nil
  free_used := by simp
  count := by simpa using hok.count
  held_iff j hj := by
    rcases Nat.lt_succ_iff_lt_or_eq.mp hj with hlt | rfl
    · simpa using Or.inr (by simpa using hok.held_iff j hlt)
    · simp

/-- Giving back a held chunk while others stay in use. -/
theorem push (hok : PageOk G word out a h fl) (hout : out.Nodup) (hi : i < h.used)
    (hheld : i ∉ fl) :
    PageOk G (Function.update word (chunk G a i) h.free) (out.erase (chunk G a i)) a
      { h with free := some (chunk G a i), inuse := h.inuse - 1 } (i :: fl) where
  aligned := hok.aligned
  used_le := hok.used_le
  free_head := by simp
  free_chain := by
    refine ⟨by simpa using hok.free_head, ?_⟩
    refine Chain.update_of_notMem (fun hmem => ?_) hok.free_chain
    obtain ⟨j, hj, heq⟩ := List.mem_map.mp hmem
    exact hheld (chunk_index_injective heq ▸ hj)
  free_nodup := List.nodup_cons.mpr ⟨hheld, hok.free_nodup⟩
  free_used := by simpa using ⟨hi, hok.free_used⟩
  count := by
    have hpos := hok.inuse_pos hi hheld
    have hcount := hok.count
    simp only [List.length_cons]
    omega
  held_iff j hj := by
    rw [List.Nodup.mem_erase_iff hout, hok.held_iff j hj]
    by_cases hji : j = i
    · simp [hji]
    · have hchunk : chunk G a j ≠ chunk G a i := fun heq => hji (chunk_index_injective heq)
      simp [hchunk, hji]

end PageOk

/-! ## All pages -/

/-- The accounting of a pool with the pages `load` whose clients hold `out`. -/
structure Chunks (G : Geometry L) (load : ℕ → Option MempoolPage) (word : ℕ → Ptr)
    (out : List ℕ) : Prop where
  page_ok : ∀ a h, load a = some h → ∃ fl, PageOk G word out a h fl
  out_chunk : ∀ p ∈ out, ∃ a h i, load a = some h ∧ i < h.used ∧ p = chunk G a i
  out_nodup : out.Nodup

/-- `p` is a chunk inside the data area of a mapped page. -/
def InData (G : Geometry L) (load : ℕ → Option MempoolPage) (p : ℕ) : Prop :=
  ∃ a h i, load a = some h ∧ i < G.cpp ∧ p = chunk G a i

namespace Chunks

variable {load load' : ℕ → Option MempoolPage} {word word' : ℕ → Ptr} {out : List ℕ}
  {a i p : ℕ} {h h' : MempoolPage}

theorem init : Chunks G (fun _ => none) word [] :=
  ⟨by simp, by simp, List.nodup_nil⟩

theorem aligned (hc : Chunks G load word out) (ha : load a = some h) : L.pageOf a = a := by
  obtain ⟨fl, hok⟩ := hc.page_ok a h ha
  exact hok.aligned

theorem inuse_le (hc : Chunks G load word out) (ha : load a = some h) : h.inuse ≤ G.cpp := by
  obtain ⟨fl, hok⟩ := hc.page_ok a h ha
  exact hok.inuse_le

theorem used_le (hc : Chunks G load word out) (ha : load a = some h) : h.used ≤ G.cpp := by
  obtain ⟨fl, hok⟩ := hc.page_ok a h ha
  exact hok.used_le

theorem inData (hc : Chunks G load word out) (hp : p ∈ out) : InData G load p := by
  obtain ⟨a, h, i, ha, hi, rfl⟩ := hc.out_chunk p hp
  exact ⟨a, h, i, ha, lt_of_lt_of_le hi (hc.used_le ha), rfl⟩

/-- Two chunks that are held have no byte in common. -/
theorem apart (hc : Chunks G load word out) {p q : ℕ} (hp : InData G load p)
    (hq : InData G load q) (hne : p ≠ q) : Apart G p q := by
  obtain ⟨a, h, i, ha, hi, rfl⟩ := hp
  obtain ⟨b, k, j, hb, hj, rfl⟩ := hq
  exact chunk_apart (hc.aligned ha) (hc.aligned hb) hi hj hne

/-- The page of a held chunk, and its index there. -/
theorem exists_page (hc : Chunks G load word out) (hp : p ∈ out) :
    ∃ h fl i, load (L.pageOf p) = some h ∧ PageOk G word out (L.pageOf p) h fl ∧
      i < h.used ∧ i ∉ fl ∧ p = chunk G (L.pageOf p) i := by
  obtain ⟨a, h, i, ha, hi, rfl⟩ := hc.out_chunk p hp
  obtain ⟨fl, hok⟩ := hc.page_ok a h ha
  have hpage := pageOf_chunk (G := G) hok.aligned (lt_of_lt_of_le hi hok.used_le)
  rw [hpage]
  exact ⟨h, fl, i, ha, hok, hi, (hok.held_iff i hi).mp hp, rfl⟩

/-- Chunks of different pages differ. -/
theorem chunk_ne (hc : Chunks G load word out) {b j : ℕ} {k : MempoolPage}
    (ha : L.pageOf a = a) (hi : i < G.cpp) (hb : load b = some k) (hj : j < k.used)
    (hne : b ≠ a) : chunk G b j ≠ chunk G a i := by
  intro heq
  have hjc := lt_of_lt_of_le hj (hc.used_le hb)
  exact hne (chunk_injective (hc.aligned hb) ha hjc hi heq).1

/-- A chunk past the used ones of its page is not held. -/
theorem notMem_out (hc : Chunks G load word out) (ha : L.pageOf a = a) (hi : i < G.cpp)
    (hfree : ∀ h, load a = some h → h.used ≤ i) : chunk G a i ∉ out := by
  intro hmem
  obtain ⟨b, k, j, hb, hj, heq⟩ := hc.out_chunk _ hmem
  have hjc := lt_of_lt_of_le hj (hc.used_le hb)
  obtain ⟨rfl, rfl⟩ := chunk_injective ha (hc.aligned hb) hi hjc heq
  have hle := hfree k hb
  omega

/-- The links between pages are no part of the accounting. -/
theorem congr (hc : Chunks G load word out)
    (hsame : ∀ b, (load' b).map (fun h => (h.used, h.inuse, h.free)) =
      (load b).map fun h => (h.used, h.inuse, h.free)) : Chunks G load' word out where
  page_ok a h ha := by
    obtain ⟨k, hk, hcounts⟩ : ∃ k, load a = some k ∧
        (k.used, k.inuse, k.free) = (h.used, h.inuse, h.free) := by
      simpa [ha] using (hsame a).symm
    obtain ⟨fl, hok⟩ := hc.page_ok a k hk
    simp only [Prod.mk.injEq] at hcounts
    exact ⟨fl, hok.frame hcounts.1.symm hcounts.2.1.symm hcounts.2.2.symm (fun _ _ => rfl)
      fun _ _ => Iff.rfl⟩
  out_chunk p hp := by
    obtain ⟨a, k, i, ha, hi, rfl⟩ := hc.out_chunk p hp
    obtain ⟨h, hh, hcounts⟩ : ∃ h, load' a = some h ∧
        (h.used, h.inuse, h.free) = (k.used, k.inuse, k.free) := by
      simpa [ha] using hsame a
    simp only [Prod.mk.injEq] at hcounts
    exact ⟨a, h, i, hh, hcounts.1 ▸ hi, rfl⟩
  out_nodup := hc.out_nodup

/-- One page changes its accounting, and the held chunks and words of all other
pages stay. -/
theorem update (hc : Chunks G load word out) {out' fl' : List ℕ}
    (hok' : PageOk G word' out' a h' fl')
    (hword : ∀ b k j, b ≠ a → load b = some k → j < k.used →
      word' (chunk G b j) = word (chunk G b j))
    (hout : ∀ b k j, b ≠ a → load b = some k → j < k.used →
      (chunk G b j ∈ out' ↔ chunk G b j ∈ out))
    (hnodup : out'.Nodup)
    (hold : ∀ p ∈ out', p ∈ out ∨ ∃ i, i < h'.used ∧ p = chunk G a i)
    (hused : ∀ h, load a = some h → h.used ≤ h'.used) :
    Chunks G (Function.update load a (some h')) word' out' where
  page_ok b k hb := by
    by_cases hba : b = a
    · subst hba
      obtain rfl : h' = k := by simpa using hb
      exact ⟨fl', hok'⟩
    · rw [Function.update_of_ne hba] at hb
      obtain ⟨fl, hok⟩ := hc.page_ok b k hb
      exact ⟨fl, hok.frame rfl rfl rfl (fun j hj => hword b k j hba hb (hok.free_used j hj))
        fun j hj => hout b k j hba hb hj⟩
  out_chunk p hp := by
    rcases hold p hp with hmem | ⟨i, hi, rfl⟩
    · obtain ⟨b, k, j, hb, hj, rfl⟩ := hc.out_chunk p hmem
      by_cases hba : b = a
      · subst hba
        exact ⟨b, h', j, by simp, lt_of_lt_of_le hj (hused k hb), rfl⟩
      · exact ⟨b, k, j, by rw [Function.update_of_ne hba, hb], hj, rfl⟩
    · exact ⟨a, h', i, by simp, hi, rfl⟩
  out_nodup := hnodup

/-- A page with room has a chunk that is not held, and taking it keeps the
accounting. -/
theorem pick {m : State} (hc : Chunks G m.page.load m.word out) (ha : m.page.load a = some h)
    (hroom : h.inuse < G.cpp) :
    ∃ i h', pickChunk G a m h = some (chunk G a i, h') ∧
      h'.next = h.next ∧ h'.prev = h.prev ∧ h'.inuse = h.inuse ∧ i < G.cpp ∧
      chunk G a i ∉ out ∧
      Chunks G (Function.update m.page.load a (some { h' with inuse := h'.inuse + 1 }))
        m.word (chunk G a i :: out) := by
  obtain ⟨fl, hok⟩ := hc.page_ok a h ha
  cases fl with
  | nil =>
      have hcount := hok.count
      simp only [List.length_nil, Nat.add_zero] at hcount
      have hi : h.used < G.cpp := by omega
      have hfresh : chunk G a h.used ∉ out :=
        hc.notMem_out hok.aligned hi fun k hk => by simp [Option.some.inj (ha.symm.trans hk)]
      refine ⟨h.used, { h with used := h.used + 1 }, ?_, rfl, rfl, rfl, hi, hfresh, ?_⟩
      · have hfree := hok.free_head
        simp only [List.map_nil, List.head?_nil] at hfree
        simp [pickChunk, hfree]
      · refine hc.update (hok.grow hroom) (fun _ _ _ _ _ _ => rfl) (fun b k j hne hb hj => ?_)
          (List.nodup_cons.mpr ⟨hfresh, hc.out_nodup⟩) (fun p hp => ?_) fun k hk => ?_
        · simp [hc.chunk_ne hok.aligned hi hb hj hne]
        · rcases List.mem_cons.mp hp with rfl | hp
          · exact .inr ⟨h.used, Nat.lt_succ_self _, rfl⟩
          · exact .inl hp
        · simp [Option.some.inj (ha.symm.trans hk)]
  | cons i fl =>
      have hiu : i < h.used := hok.free_used i (by simp)
      have hi : i < G.cpp := lt_of_lt_of_le hiu hok.used_le
      have hfresh : chunk G a i ∉ out := by simp [hok.held_iff i hiu]
      refine ⟨i, { h with free := m.word (chunk G a i) }, ?_, rfl, rfl, rfl, hi, hfresh, ?_⟩
      · have hfree := hok.free_head
        simp only [List.map_cons, List.head?_cons] at hfree
        simp [pickChunk, hfree, State.loadWord, pageOf_chunk hok.aligned hi, ha]
      · refine hc.update hok.pop (fun _ _ _ _ _ _ => rfl) (fun b k j hne hb hj => ?_)
          (List.nodup_cons.mpr ⟨hfresh, hc.out_nodup⟩) (fun p hp => ?_) fun k hk => ?_
        · simp [hc.chunk_ne hok.aligned hi hb hj hne]
        · rcases List.mem_cons.mp hp with rfl | hp
          · exact .inr ⟨i, hiu, rfl⟩
          · exact .inl hp
        · simp [Option.some.inj (ha.symm.trans hk)]

/-- A chunk goes back to a page that keeps others in use. -/
theorem giveBack (hc : Chunks G load word out) (hp : p ∈ out)
    (ha : load (L.pageOf p) = some h) :
    Chunks G
      (Function.update load (L.pageOf p)
        (some { h with free := some p, inuse := h.inuse - 1 }))
      (Function.update word p h.free) (out.erase p) := by
  obtain ⟨k, fl, i, hk, hok, hi, hheld, hpi⟩ := hc.exists_page hp
  obtain rfl : k = h := Option.some.inj (hk.symm.trans ha)
  have hic : i < G.cpp := lt_of_lt_of_le hi hok.used_le
  have hne : ∀ b k j, b ≠ L.pageOf p → load b = some k → j < k.used → chunk G b j ≠ p := by
    intro b k' j hbp hb hj
    rw [hpi]
    exact hc.chunk_ne hok.aligned hic hb hj hbp
  have hpush := hok.push hc.out_nodup hi hheld
  rw [← hpi] at hpush
  refine hc.update hpush (fun b k' j hbp hb hj => ?_) (fun b k' j hbp hb hj => ?_)
    (hc.out_nodup.erase p) (fun q hq => .inl (List.mem_of_mem_erase hq)) fun k' hk' => ?_
  · simp [hne b k' j hbp hb hj]
  · simp [List.Nodup.mem_erase_iff hc.out_nodup, hne b k' j hbp hb hj]
  · simp [Option.some.inj (hk.symm.trans hk')]

/-- The last chunk of a page goes back, and with it the page. -/
theorem dropPage (hc : Chunks G load word out) (hp : p ∈ out)
    (ha : load (L.pageOf p) = some h) (hone : h.inuse = 1) :
    Chunks G (Function.update load (L.pageOf p) none) word (out.erase p) where
  page_ok b k hb := by
    have hbp : b ≠ L.pageOf p := fun heq => by simp [heq] at hb
    rw [Function.update_of_ne hbp] at hb
    obtain ⟨fl, hok⟩ := hc.page_ok b k hb
    refine ⟨fl, hok.frame rfl rfl rfl (fun _ _ => rfl) fun j hj => ?_⟩
    have hne : chunk G b j ≠ p := fun heq => by
      rw [← heq, pageOf_chunk hok.aligned (lt_of_lt_of_le hj hok.used_le)] at hbp
      exact hbp rfl
    simp [List.Nodup.mem_erase_iff hc.out_nodup, hne]
  out_chunk q hq := by
    rw [List.Nodup.mem_erase_iff hc.out_nodup] at hq
    obtain ⟨b, k, j, hb, hj, rfl⟩ := hc.out_chunk q hq.2
    refine ⟨b, k, j, ?_, hj, rfl⟩
    -- Another held chunk of this page would be free, as only `p` was in use.
    have hbp : b ≠ L.pageOf p := by
      rintro rfl
      obtain ⟨k', fl, i, hk, hok, hi, hheld, hpi⟩ := hc.exists_page hp
      obtain rfl : k' = h := Option.some.inj (hk.symm.trans ha)
      obtain rfl : k = k' := Option.some.inj (hb.symm.trans hk)
      have hji : j ≠ i := fun heq => hq.1 (by rw [heq, ← hpi])
      have hfree := hok.mem_free_of_inuse_one hone hi hheld hj hji
      exact (hok.held_iff j hj).mp hq.2 hfree
    rw [Function.update_of_ne hbp, hb]
  out_nodup := hc.out_nodup.erase p

/-- A fresh page holds no chunk, and its zeroed words are nobody's. -/
theorem mapPage (hc : Chunks G load word out) (ha : load a = none) (haligned : L.pageOf a = a)
    (hinuse : h.inuse = 0) (hused : h.used = 0) (hfree : h.free = none)
    (hword : ∀ p, L.pageOf p ≠ a → word' p = word p) :
    Chunks G (Function.update load a (some h)) word' out := by
  have hok : PageOk G word' out a h [] :=
    { aligned := haligned
      used_le := by omega
      free_head := by simp [hfree]
      free_chain := trivial
      free_nodup := List.nodup_nil
      free_used := by simp
      count := by simp [hinuse, hused]
      held_iff := by omega }
  refine hc.update hok (fun b k j hne hb hj => hword _ ?_) (fun _ _ _ _ _ _ => Iff.rfl)
    hc.out_nodup (fun _ => .inl) fun k hk => by simp [ha] at hk
  rwa [pageOf_chunk (hc.aligned hb) (lt_of_lt_of_le hj (hc.used_le hb))]

/-- Clients may write the chunks they hold. -/
theorem write (hc : Chunks G load word out) (hp : p ∈ out) (v : Ptr) :
    Chunks G load (Function.update word p v) out where
  page_ok a h ha := by
    obtain ⟨fl, hok⟩ := hc.page_ok a h ha
    refine ⟨fl, hok.frame rfl rfl rfl (fun i hi => ?_) fun _ _ => Iff.rfl⟩
    have hheld := (hok.held_iff i (hok.free_used i hi)).not.mpr (by simpa using hi)
    have hne : chunk G a i ≠ p := fun heq => hheld (heq ▸ hp)
    simp [hne]
  out_chunk := hc.out_chunk
  out_nodup := hc.out_nodup

end Chunks

end ThreeW3.Pool
