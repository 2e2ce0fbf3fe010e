/-
# What the pool operations do

The whole invariant of a pool, and one specification for each operation: from a
pool in order, `mempool_get` and `mempool_free` return, and they leave a pool in
order, as long as no call empties a head page that has a stale link and a
successor. Each specification also says whether a stale link can appear.
-/

import ThreeW3.Pool.PageList

namespace ThreeW3.Pool

open ThreeW3.Lib

variable {L : Layout} {G : Geometry L} {m : State} {out l : List ℕ} {stale : Ptr}

/-- A pool in order: its accounting, no mapped page without a chunk in use, and
its list of pages with room. -/
structure Inv (G : Geometry L) (m : State) (out l : List ℕ) (stale : Ptr) : Prop where
  chunks : Chunks G m.page.load m.word out
  inuse_pos : ∀ a h, m.page.load a = some h → 0 < h.inuse
  list : PageList G m l stale

theorem Inv.init : Inv G State.empty [] [] none where
  chunks := by
    have hload : State.empty.page.load = fun _ => none := by
      funext a
      simp [State.empty]
    rw [hload]
    exact Chunks.init
  inuse_pos := by simp [State.empty]
  list := PageList.init

/-- Storing a header with the counters of `h'` has the accounting of storing `h'`. -/
theorem Chunks.store {load load' : ℕ → Option MempoolPage} {word : ℕ → Ptr} {a : ℕ}
    {h' k : MempoolPage} (hc : Chunks G (Function.update load a (some h')) word out)
    (hload : ∀ b, load' b = if b = a then some k else load b)
    (hcounts : (k.used, k.inuse, k.free) = (h'.used, h'.inuse, h'.free)) :
    Chunks G load' word out := by
  refine hc.congr fun b => ?_
  by_cases hba : b = a
  · subst hba
    simpa [hload] using hcounts
  · simp [hload, hba]

theorem inuse_pos_of_store {load load' : ℕ → Option MempoolPage} {a : ℕ} {k : MempoolPage}
    (hpos : ∀ b h, b ≠ a → load b = some h → 0 < h.inuse)
    (hload : ∀ b, load' b = if b = a then some k else load b) (hk : 0 < k.inuse) :
    ∀ b h, load' b = some h → 0 < h.inuse := by
  intro b h hb
  by_cases hba : b = a
  · subst hba
    obtain rfl : k = h := by simpa [hload] using hb
    exact hk
  · exact hpos b h hba (by simpa [hload, hba] using hb)

/-! ## Taking a chunk -/

/-- Take a chunk from the head of the list. The page itself may be one without
a chunk in use, as a page just mapped is. A stale link appears exactly when the
page fills up and has a successor. -/
theorem takeChunk_spec {a : ℕ} (hc : Chunks G m.page.load m.word out)
    (hpos : ∀ b h, b ≠ a → m.page.load b = some h → 0 < h.inuse)
    (hl : PageList G m (a :: l) stale) :
    ∃ m' p l' stale', takeChunk G a m = some (m', p) ∧ p ∉ out ∧
      Inv G m' (p :: out) l' stale' ∧
      ((∃ h ∈ m.page.load a, h.inuse + 1 = G.cpp ∧ h.next ≠ none) → l' ≠ [] ∧ stale' ≠ none) ∧
      (stale = none → ¬ (∃ h ∈ m.page.load a, h.inuse + 1 = G.cpp ∧ h.next ≠ none) →
        stale' = none) := by
  obtain ⟨h, ha, hroom⟩ := hl.exists_load (a := a) (by simp)
  obtain ⟨i, h', hpick, hnext, hprev, hinuse, hi, hfresh, hc'⟩ := hc.pick ha hroom
  have hnextl : h.next = l.head? := (hl.head_links ha).1
  by_cases hfull : h.inuse + 1 = G.cpp
  · -- The page is full now and leaves the list.
    let k : MempoolPage := { h' with inuse := h'.inuse + 1, next := none, prev := none }
    let m' : State := { m with pages := h'.next, page := m.page.store a k }
    have htake : takeChunk G a m = some (m', chunk G a i) := by
      simp [takeChunk, ha, hpick, hinuse, hfull, m', k]
    have hload : ∀ b, m'.page.load b = if b = a then some k else m.page.load b :=
      fun b => Heap.load_store
    have hchunks : Chunks G m'.page.load m'.word (chunk G a i :: out) :=
      hc'.store hload rfl
    have hpos' := inuse_pos_of_store hpos hload (Nat.succ_pos _)
    have hlist : PageList G m' l (some a) :=
      hl.pop ⟨rfl, rfl⟩ (by simp [k, hinuse, hfull]) (by simp [m', hnext, hnextl]) hload
    by_cases hnil : l = []
    · subst hnil
      refine ⟨m', _, [], none, htake, hfresh, ⟨hchunks, hpos', hlist.forget_stale⟩, ?_,
        fun _ _ => rfl⟩
      rintro ⟨h₀, hh₀, _, hne⟩
      obtain rfl : h = h₀ := Option.some.inj (ha.symm.trans hh₀)
      exact absurd hnextl hne
    · refine ⟨m', _, l, some a, htake, hfresh, ⟨hchunks, hpos', hlist⟩,
        fun _ => ⟨hnil, by simp⟩, fun _ hguard => ?_⟩
      refine absurd ⟨h, ha, hfull, ?_⟩ hguard
      rw [hnextl]
      exact fun hnone => hnil (List.head?_eq_none_iff.mp hnone)
  · let k : MempoolPage := { h' with inuse := h'.inuse + 1 }
    let m' : State := { m with page := m.page.store a k }
    have htake : takeChunk G a m = some (m', chunk G a i) := by
      simp [takeChunk, ha, hpick, hinuse, hfull, m', k]
    have hload : ∀ b, m'.page.load b = if b = a then some k else m.page.load b :=
      fun b => Heap.load_store
    have hchunks : Chunks G m'.page.load m'.word (chunk G a i :: out) :=
      hc'.store hload rfl
    have hpos' := inuse_pos_of_store hpos hload (Nat.succ_pos _)
    have hstay : k.inuse < G.cpp ↔ h.inuse < G.cpp := by
      simp only [k, hinuse]
      omega
    have hlist : PageList G m' (a :: l) stale :=
      hl.store_of_links ha (show k.next = h.next from hnext) hprev hstay rfl hload
    refine ⟨m', _, a :: l, stale, htake, hfresh, ⟨hchunks, hpos', hlist⟩, ?_, fun hs _ => hs⟩
    rintro ⟨h₀, hh₀, hfull₀, _⟩
    obtain rfl : h = h₀ := Option.some.inj (ha.symm.trans hh₀)
    exact absurd hfull₀ hfull

/-- Mapping a page when the list is empty. -/
theorem Inv.mapPage {fresh : ℕ} (hI : Inv G m out [] stale) (hfresh : Fresh L m fresh) :
    Chunks G (m.mapPage L fresh).page.load (m.mapPage L fresh).word out ∧
      (∀ b h, b ≠ fresh → (m.mapPage L fresh).page.load b = some h → 0 < h.inuse) ∧
      PageList G (m.mapPage L fresh) [fresh] none := by
  obtain ⟨_, haligned, hnone⟩ := hfresh
  let h₀ : MempoolPage := { next := none, prev := none, used := 0, inuse := 0, free := none }
  have hload : ∀ b, (m.mapPage L fresh).page.load b =
      if b = fresh then some h₀ else m.page.load b := fun b => Heap.load_store
  refine ⟨?_, ?_, ?_⟩
  · have hword : ∀ p, L.pageOf p ≠ fresh → (m.mapPage L fresh).word p = m.word p :=
      fun p hp => by simp [State.mapPage, hp]
    have hmap := hI.chunks.mapPage (h := h₀) hnone haligned rfl rfl rfl hword
    refine hmap.congr fun b => ?_
    by_cases hb : b = fresh
    · subst hb
      simp [hload]
    · simp [hload, hb]
  · intro b h hb hbl
    exact hI.inuse_pos b h (by simpa [hload, hb] using hbl)
  · refine
      { nodup := by simp
        head := rfl
        next := ⟨by simp [Heap.field, hload, h₀], trivial⟩
        prev := ⟨by simp [Heap.field, hload, h₀], trivial⟩
        mem_iff := fun b => ?_
        off_list := fun b h hb hbl => ?_
        stale_mapped := by simp }
    · by_cases hb : b = fresh
      · subst hb
        simp [hload, h₀, G.cpp_pos]
      · simpa [hload, hb] using hI.list.mem_iff b
    · have hb' : b ≠ fresh := by simpa using hbl
      exact hI.list.off_list b h (by simpa [hload, hb'] using hb) (by simp)

/-- `mempool_get` on a pool in order returns a chunk that nobody holds. -/
theorem mempoolGet_spec {fresh : ℕ} (hI : Inv G m out l stale)
    (hfresh : m.pages = none → Fresh L m fresh) :
    ∃ m' p l' stale', mempoolGet G fresh m = some (m', p) ∧ p ∉ out ∧
      Inv G m' (p :: out) l' stale' ∧
      (FillsLinkedHead G m → l' ≠ [] ∧ stale' ≠ none) ∧
      (stale = none → ¬ FillsLinkedHead G m → stale' = none) := by
  cases l with
  | nil =>
      have hpages : m.pages = none := hI.list.head
      obtain ⟨hc, hpos, hl⟩ := hI.mapPage (hfresh hpages)
      obtain ⟨m', p, l', stale', htake, hp, hI', _, hstale⟩ := takeChunk_spec hc hpos hl
      refine ⟨m', p, l', stale', by simp [mempoolGet, hpages, htake], hp, hI', ?_,
        fun _ _ => hstale rfl ?_⟩
      · rintro ⟨a, ha, _⟩
        simp [hpages] at ha
      · -- A page just mapped has no successor.
        rintro ⟨h, hh, _, hnext⟩
        have hload := Heap.load_store_self (h := m.page) (a := fresh)
          (v := { next := none, prev := none, used := 0, inuse := 0, free := none })
        obtain rfl := Option.some.inj (hload.symm.trans hh)
        exact hnext rfl
  | cons a l =>
      have hpages : m.pages = some a := hI.list.head
      have hfills : FillsLinkedHead G m ↔
          ∃ h ∈ m.page.load a, h.inuse + 1 = G.cpp ∧ h.next ≠ none := by
        simp [FillsLinkedHead, hpages]
      obtain ⟨m', p, l', stale', htake, hp, hI', hstale⟩ :=
        takeChunk_spec hI.chunks (fun b h _ hb => hI.inuse_pos b h hb) hI.list
      rw [← hfills] at hstale
      exact ⟨m', p, l', stale', by simp [mempoolGet, hpages, htake], hp, hI', hstale⟩

/-! ## Giving a chunk back -/

/-- What the unlinking and unmapping of a page leaves of each header. -/
theorem releasePage_eq {a : ℕ} {h : MempoolPage}
    (hnext : ∀ b ∈ h.next, ∃ k, m.page.load b = some k)
    (hprev : ∀ b ∈ h.prev, ∃ k, m.page.load b = some k) :
    ∃ m', releasePage a h m = some m' ∧ m'.word = m.word ∧
      m'.pages = (if m.pages = some a then h.next else m.pages) ∧
      ∀ b, m'.page.load b = if b = a then none else
        (m.page.load b).map fun k =>
          { k with
            next := if h.prev = some b then h.next else k.next
            prev := if h.next = some b then h.prev else k.prev } := by
  obtain ⟨p₁, hwrite₁, hload₁⟩ :=
    m.page.exists_writeThrough (p := h.next) (fun n => { n with prev := h.prev }) hnext
  have hprev₁ : ∀ b ∈ h.prev, ∃ k, p₁.load b = some k := by
    intro b hb
    obtain ⟨k, hk⟩ := hprev b hb
    by_cases hn : h.next = some b <;> simp [hload₁, hn, hk]
  obtain ⟨p₂, hwrite₂, hload₂⟩ :=
    p₁.exists_writeThrough (p := h.prev) (fun q => { q with next := h.next }) hprev₁
  refine ⟨{ m with pages := if m.pages = some a then h.next else m.pages, page := p₂.free a },
    by simp [releasePage, hwrite₁, hwrite₂], rfl, rfl, fun b => ?_⟩
  by_cases hba : b = a
  · simp [Heap.load_free, hba]
  · by_cases hn : h.next = some b <;> by_cases hp : h.prev = some b <;>
      cases hk : m.page.load b <;> simp [Heap.load_free, hba, hload₂, hload₁, hn, hp, hk]

/-- The last chunk of a page goes back, and the page is unmapped. -/
theorem releasePage_spec {p : ℕ} {h : MempoolPage} (h' : MempoolPage)
    (hI : Inv G m out l stale) (hp : p ∈ out) (hh : m.page.load (L.pageOf p) = some h)
    (hone : h.inuse = 1)
    (hguard : ¬ EmptiesStaleHead L m p) (hnext : h'.next = h.next) (hprev : h'.prev = h.prev) :
    ∃ m' l' stale', releasePage (L.pageOf p) h'
        { m with page := m.page.store (L.pageOf p) h' } = some m' ∧
      Inv G m' (out.erase p) l' stale' ∧ (stale = none → stale' = none) := by
  set a := L.pageOf p with ha
  obtain ⟨hn, hv⟩ := hI.list.neighbours hh
  have hstore : ∀ b, b ≠ a → (m.page.store a h').load b = m.page.load b :=
    fun b hb => Heap.load_store_of_ne hb
  obtain ⟨m', hrel, hword, hpages, hload'⟩ := releasePage_eq
    (m := { m with page := m.page.store a h' }) (a := a) (h := h')
    (fun b hb => by
      obtain ⟨hne, k, hk⟩ := hn b (hnext ▸ hb)
      exact ⟨k, (hstore b hne).trans hk⟩)
    (fun b hb => by
      obtain ⟨hne, k, hk⟩ := hv b (hprev ▸ hb)
      exact ⟨k, (hstore b hne).trans hk⟩)
  have hload : ∀ b, m'.page.load b = if b = a then none else
      (m.page.load b).map fun k =>
        { k with
          next := if h.prev = some b then h.next else k.next
          prev := if h.next = some b then h.prev else k.prev } := by
    intro b
    by_cases hba : b = a
    · simp [hload', hba]
    · simp [hload', hba, hstore b hba, hnext, hprev]
  rw [hnext] at hpages
  have hchunks : Chunks G m'.page.load m'.word (out.erase p) := by
    rw [hword]
    refine (hI.chunks.dropPage hp hh hone).congr fun b => ?_
    by_cases hba : b = a
    · simp [hload, hba, ha]
    · cases hk : m.page.load b <;> simp [hload, hba, ← ha, hk]
  have hpos : ∀ b k, m'.page.load b = some k → 0 < k.inuse := by
    intro b k hb
    have hba : b ≠ a := fun heq => by simp [hload, heq] at hb
    obtain ⟨k₀, hk₀, rfl⟩ : ∃ k₀, m.page.load b = some k₀ ∧ _ = k := by
      simpa [hload, hba] using hb
    exact hI.inuse_pos b k₀ hk₀
  by_cases hal : a ∈ l
  · obtain ⟨l₁, l₂, rfl⟩ := List.append_of_mem hal
    obtain ⟨hnl, hpl⟩ := hI.list.links hh
    refine ⟨m', l₁ ++ l₂, stale, hrel, ⟨hchunks, hpos, ?_⟩, id⟩
    refine hI.list.cut hh (fun hnil => ?_) hpages hload
    -- With nothing before it the page is the head, so the guard speaks of it.
    subst hnil
    by_contra hbad
    simp only [not_or] at hbad
    refine hguard ⟨by simpa using hI.list.head, h, hh, hone, ?_, ?_⟩
    · simpa [hpl] using hbad.1
    · simpa [hnl, List.head?_eq_none_iff] using hbad.2
  · -- Off the list the page is full, so pages hold one chunk each and none has room.
    have hfull : ¬ h.inuse < G.cpp := fun hlt => hal ((hI.list.mem_iff a).mpr ⟨h, hh, hlt⟩)
    have hnil : l = [] := by
      refine List.eq_nil_iff_forall_not_mem.mpr fun b hb => ?_
      obtain ⟨k, hk, hki⟩ := hI.list.exists_load hb
      have := hI.inuse_pos b k hk
      omega
    subst hnil
    obtain ⟨hn₀, hv₀⟩ := hI.list.off_list a h hh hal
    have hempty : m.pages = none := hI.list.head
    refine ⟨m', [], none, hrel, ⟨hchunks, hpos, ?_⟩, fun _ => rfl⟩
    refine hI.list.drop (a := a) (by simp [hpages, hempty]) fun b => ?_
    cases hk : m.page.load b <;> simp [hload, hn₀, hv₀, hk]

/-- A chunk goes back to a page with others in use, and a page that was full
enters the list. -/
theorem releaseChunk_spec {p : ℕ} {h : MempoolPage} (hI : Inv G m out l stale) (hp : p ∈ out)
    (hh : m.page.load (L.pageOf p) = some h) (hmore : 1 < h.inuse) :
    ∃ m' l' stale', releaseChunk (L.pageOf p) p { h with inuse := h.inuse - 1 }
        { m with page := m.page.store (L.pageOf p) { h with inuse := h.inuse - 1 } } = some m' ∧
      Inv G m' (out.erase p) l' stale' ∧ (stale = none → stale' = none) := by
  set a := L.pageOf p with ha
  have hback := hI.chunks.giveBack hp hh
  have hle := hI.chunks.inuse_le hh
  have hstore : ∀ b k₁ k₂, ((m.page.store a k₁).store a k₂).load b =
      if b = a then some k₂ else m.page.load b := by
    intro b k₁ k₂
    by_cases hba : b = a <;> simp [Heap.load_store, hba]
  by_cases hal : a ∈ l
  · -- A page of the list has a link or is the head, so it stays where it is.
    obtain ⟨l₁, l₂, rfl⟩ := List.append_of_mem hal
    obtain ⟨hn, hv⟩ := hI.list.links hh
    have hin : ¬ (h.next = none ∧ h.prev = none ∧ m.pages ≠ some a) := by
      rintro ⟨_, hv₀, hne⟩
      rw [hv] at hv₀
      rcases List.eq_nil_or_concat l₁ with rfl | ⟨l, y, rfl⟩
      · exact hne (by simpa using hI.list.head)
      · simp at hv₀
    let k : MempoolPage := { h with inuse := h.inuse - 1, free := some p }
    refine ⟨{ pages := m.pages
              page := (m.page.store a { h with inuse := h.inuse - 1 }).store a k
              word := Function.update m.word p h.free }, l₁ ++ a :: l₂, stale, ?_, ?_, id⟩
    · simp only [releaseChunk, if_neg hin, k]
    · obtain ⟨h₀, hh₀, hroom⟩ := hI.list.exists_load hal
      obtain rfl : h₀ = h := Option.some.inj (hh₀.symm.trans hh)
      have hstay : k.inuse < G.cpp ↔ h₀.inuse < G.cpp := by
        simp only [k]
        omega
      exact ⟨hback.store (fun b => hstore b _ _) rfl,
        inuse_pos_of_store (fun b r _ hb => hI.inuse_pos b r hb) (fun b => hstore b _ _)
          (by simp only [k]; omega),
        hI.list.store_of_links hh (show k.next = h₀.next from rfl) rfl hstay rfl
          fun b => hstore b _ _⟩
  · -- A page off the list is full and has null links: it becomes the head.
    obtain ⟨hn, hv⟩ := hI.list.off_list a h hh hal
    have hne : m.pages ≠ some a := by
      rw [hI.list.head]
      exact fun heq => hal (List.mem_of_head? heq)
    have hmapped : ∀ b ∈ m.pages, ∃ k,
        ((m.page.store a { h with inuse := h.inuse - 1 }).store a
          { h with inuse := h.inuse - 1, free := some p }).load b = some k := by
      intro b hb
      have hba : b ≠ a := fun heq => hne (heq ▸ hb)
      obtain ⟨k, hk, _⟩ := hI.list.exists_load (a := b)
        (by rw [hI.list.head] at hb; exact List.mem_of_head? hb)
      exact ⟨k, by simp [hstore, hba, hk]⟩
    obtain ⟨page, hwrite, hload⟩ :=
      Heap.exists_writeThrough (fun n : MempoolPage => { n with prev := some a }) hmapped
    let k : MempoolPage := { h with inuse := h.inuse - 1, free := some p, next := m.pages }
    have hload' : ∀ b, (page.store a k).load b = if b = a then some k else
        if m.pages = some b then (m.page.load b).map fun n => { n with prev := some a }
        else m.page.load b := by
      intro b
      by_cases hba : b = a
      · simp [hba]
      · simp [Heap.load_store_of_ne hba, hload, hba]
    refine ⟨{ pages := some a, page := page.store a k, word := Function.update m.word p h.free },
      a :: l, none, ?_, ?_, fun _ => rfl⟩
    · simp only [releaseChunk, hn, hv, true_and, if_pos hne]
      simp only [hn, hv] at hwrite
      simp [hwrite, k, hv]
    · have hroom : k.inuse < G.cpp := by
        simp only [k]
        omega
      refine ⟨?_, ?_, hI.list.push hh hal (show k.next = m.pages from rfl) hv hroom rfl hload'⟩
      · refine hback.congr fun b => ?_
        by_cases hba : b = a
        · simp [hload', hba, ← ha, k]
        · by_cases hbp : m.pages = some b <;> cases hk : m.page.load b <;>
            simp [hload', hba, ← ha, hbp, hk]
      · intro b r hb
        by_cases hba : b = a
        · obtain rfl : k = r := by simpa [hload', hba] using hb
          simp only [k]
          omega
        · by_cases hbp : m.pages = some b
          · obtain ⟨r₀, hr₀, rfl⟩ : ∃ r₀, m.page.load b = some r₀ ∧ _ = r := by
              simpa [hload', hba, hbp] using hb
            exact hI.inuse_pos b r₀ hr₀
          · exact hI.inuse_pos b r (by simpa [hload', hba, hbp] using hb)

/-- `mempool_free` of a held chunk on a pool in order. -/
theorem mempoolFree_spec {p : ℕ} (hI : Inv G m out l stale) (hp : p ∈ out)
    (hguard : ¬ EmptiesStaleHead L m p) :
    ∃ m' l' stale', mempoolFree L p m = some m' ∧ Inv G m' (out.erase p) l' stale' ∧
      (stale = none → stale' = none) := by
  obtain ⟨h, fl, i, hh, hok, hi, hheld, _⟩ := hI.chunks.exists_page hp
  have hpos := hok.inuse_pos hi hheld
  have hpred : sizePred h.inuse = h.inuse - 1 := by
    simp [sizePred, Nat.pos_iff_ne_zero.mp hpos]
  by_cases hone : h.inuse = 1
  · obtain ⟨m', l', stale', hrel, hI', hs⟩ :=
      releasePage_spec { h with inuse := h.inuse - 1 } hI hp hh hone hguard rfl rfl
    refine ⟨m', l', stale', ?_, hI', hs⟩
    simp only [hone, Nat.sub_self] at hrel hpred
    simp [mempoolFree, hh, hone, hpred, hrel]
  · obtain ⟨m', l', stale', hrel, hI', hs⟩ := releaseChunk_spec hI hp hh (by omega)
    have hne : h.inuse - 1 ≠ 0 := by omega
    exact ⟨m', l', stale', by simp [mempoolFree, hh, hpred, hne, hrel], hI', hs⟩

/-- When no chunk is handed out no page is mapped. -/
theorem Inv.unmapped (hI : Inv G m [] l stale) (a : ℕ) : m.page.load a = none := by
  by_contra hmapped
  obtain ⟨h, hh⟩ := Option.ne_none_iff_exists'.mp hmapped
  obtain ⟨fl, hok⟩ := hI.chunks.page_ok a h hh
  have hpos := hI.inuse_pos a h hh
  have hcount := hok.count
  have hall := length_filter_notMem hok.free_nodup hok.free_used
  have hnone : (List.range h.used).filter (· ∉ fl) = [] := by
    rw [List.filter_eq_nil_iff]
    intro i hi
    have hheld := hok.held_iff i (List.mem_range.mp hi)
    simpa using hheld
  rw [hnone, List.length_nil] at hall
  omega

end ThreeW3.Pool
