/-
# The list of pages with room

The pages with a free chunk form a doubly linked list from `pages`. One link is
not kept in order: when the head fills up and leaves, the page that becomes the
head keeps its `prev`, which now names a full page outside the list. `PageList`
carries that link as `stale`. The stale link does harm in one place only, when
the head is emptied while it has a successor, and every other call keeps the
list.
-/

import ThreeW3.Pool.Chunks

namespace ThreeW3.Pool

open ThreeW3.Lib

variable {L : Layout} {G : Geometry L}

/-- The `next` fields as a link function. -/
abbrev State.next (m : State) : ℕ → Ptr := m.page.field MempoolPage.next

/-- The `prev` fields as a link function. -/
abbrev State.prev (m : State) : ℕ → Ptr := m.page.field MempoolPage.prev

/-- `l` is the list of pages with room, whose head has `stale` as its `prev`. -/
structure PageList (G : Geometry L) (m : State) (l : List ℕ) (stale : Ptr) : Prop where
  nodup : l.Nodup
  head : m.pages = l.head?
  next : Chain m.next l none
  prev : Chain m.prev l.reverse stale
  mem_iff : ∀ a, a ∈ l ↔ ∃ h, m.page.load a = some h ∧ h.inuse < G.cpp
  off_list : ∀ a h, m.page.load a = some h → a ∉ l → h.next = none ∧ h.prev = none
  stale_mapped : ∀ b ∈ stale, b ∉ l ∧ ∃ h, m.page.load b = some h

/-- The call gives back the last chunk of the head page, while both links of
that page are set. -/
def EmptiesStaleHead (L : Layout) (m : State) (p : ℕ) : Prop :=
  m.pages = some (L.pageOf p) ∧ ∃ h ∈ m.page.load (L.pageOf p),
    h.inuse = 1 ∧ h.prev ≠ none ∧ h.next ≠ none

/-- The call takes the last chunk of the head page, while another page follows
it in the list. -/
def FillsLinkedHead (G : Geometry L) (m : State) : Prop :=
  ∃ a ∈ m.pages, ∃ h ∈ m.page.load a, h.inuse + 1 = G.cpp ∧ h.next ≠ none

instance (m : State) (p : ℕ) : Decidable (EmptiesStaleHead L m p) :=
  inferInstanceAs (Decidable (_ ∧ _))

instance (m : State) : Decidable (FillsLinkedHead G m) :=
  inferInstanceAs (Decidable (∃ a ∈ m.pages, _))

namespace PageList

variable {m m' : State} {l l₁ l₂ : List ℕ} {stale : Ptr} {a b : ℕ} {h h' : MempoolPage}

theorem init : PageList G State.empty [] none where
  nodup := List.nodup_nil
  head := rfl
  next := trivial
  prev := trivial
  mem_iff := by simp [State.empty]
  off_list := by simp [State.empty]
  stale_mapped := by simp

theorem exists_load (hl : PageList G m l stale) (ha : a ∈ l) :
    ∃ h, m.page.load a = some h ∧ h.inuse < G.cpp :=
  (hl.mem_iff a).mp ha

/-- The links of a page of the list. -/
theorem links (hl : PageList G m (l₁ ++ a :: l₂) stale) (ha : m.page.load a = some h) :
    h.next = l₂.head? ∧ h.prev = l₁.getLast?.or stale := by
  have hnext := hl.next.link_eq
  have hprev : Chain m.prev (l₂.reverse ++ a :: l₁.reverse) stale := by simpa using hl.prev
  rw [State.next, Heap.field_of_load ha] at hnext
  have hprev := hprev.link_eq
  rw [State.prev, Heap.field_of_load ha] at hprev
  exact ⟨by simpa using hnext, by simpa using hprev⟩

theorem head_links (hl : PageList G m (a :: l) stale) (ha : m.page.load a = some h) :
    h.next = l.head? ∧ h.prev = stale := by
  rw [← List.nil_append (a :: l)] at hl
  simpa using hl.links ha

/-- The pages that a mapped page links to are mapped, and none is the page
itself. -/
theorem neighbours (hl : PageList G m l stale) (ha : m.page.load a = some h) :
    (∀ b ∈ h.next, b ≠ a ∧ ∃ k, m.page.load b = some k) ∧
      ∀ b ∈ h.prev, b ≠ a ∧ ∃ k, m.page.load b = some k := by
  by_cases hal : a ∈ l
  · obtain ⟨l₁, l₂, rfl⟩ := List.append_of_mem hal
    obtain ⟨hnext, hprev⟩ := hl.links ha
    have hnotin := (List.nodup_cons.mp (List.nodup_middle.mp hl.nodup)).1
    have hin : ∀ b ∈ l₁ ++ l₂, b ≠ a ∧ ∃ k, m.page.load b = some k := by
      intro b hb
      obtain ⟨k, hk, _⟩ := hl.exists_load (a := b)
        (by rcases List.mem_append.mp hb with hb | hb <;> simp [hb])
      exact ⟨fun heq => hnotin (heq ▸ hb), k, hk⟩
    rw [hnext, hprev]
    refine ⟨fun b hb => hin b (by simp [List.mem_of_head? hb]), fun b hb => ?_⟩
    rcases Option.or_eq_some_iff.mp hb with hlast | ⟨_, hs⟩
    · exact hin b (by simp [List.mem_of_getLast? hlast])
    · obtain ⟨hbl, k, hk⟩ := hl.stale_mapped b hs
      exact ⟨fun heq => hbl (heq ▸ hal), k, hk⟩
  · obtain ⟨hnext, hprev⟩ := hl.off_list a h ha hal
    simp [hnext, hprev]

/-- An update of one page that keeps its links and its membership keeps the
list. -/
theorem store_of_links (hl : PageList G m l stale) (ha : m.page.load a = some h)
    (hnext : h'.next = h.next) (hprev : h'.prev = h.prev)
    (hroom : h'.inuse < G.cpp ↔ h.inuse < G.cpp) (hpages : m'.pages = m.pages)
    (hload : ∀ b, m'.page.load b = if b = a then some h' else m.page.load b) :
    PageList G m' l stale where
  nodup := hl.nodup
  head := hpages.trans hl.head
  next := by
    refine hl.next.congr fun b _ => ?_
    by_cases hba : b = a <;> simp [Heap.field, hload, hba, ha, hnext]
  prev := by
    refine hl.prev.congr fun b _ => ?_
    by_cases hba : b = a <;> simp [Heap.field, hload, hba, ha, hprev]
  mem_iff b := by
    rw [hl.mem_iff b]
    by_cases hba : b = a <;> simp [hload, hba, ha, hroom]
  off_list b k hb hbl := by
    by_cases hba : b = a
    · subst hba
      obtain rfl : h' = k := by simpa [hload] using hb
      simpa [hnext, hprev] using hl.off_list b h ha hbl
    · exact hl.off_list b k (by simpa [hload, hba] using hb) hbl
  stale_mapped b hb := by
    obtain ⟨hbl, k, hk⟩ := hl.stale_mapped b hb
    refine ⟨hbl, ?_⟩
    by_cases hba : b = a <;> simp [hload, hba, hk]

/-- The head fills up and leaves the list with null links. Its successor keeps
it as `prev`. -/
theorem pop (hl : PageList G m (a :: l) stale) (hload' : h'.next = none ∧ h'.prev = none)
    (hfull : ¬ h'.inuse < G.cpp) (hpages : m'.pages = l.head?)
    (hload : ∀ b, m'.page.load b = if b = a then some h' else m.page.load b) :
    PageList G m' l (some a) := by
  have hal : a ∉ l := (List.nodup_cons.mp hl.nodup).1
  have hother : ∀ b ∈ l, m'.page.load b = m.page.load b := by
    intro b hb
    have hba : b ≠ a := fun heq => hal (heq ▸ hb)
    simp [hload, hba]
  have hprev : Chain m.prev l.reverse (some a) := by
    have := hl.prev
    simp only [List.reverse_cons, Chain.append_iff] at this
    simpa using this.1
  refine
    { nodup := (List.nodup_cons.mp hl.nodup).2
      head := hpages
      next := hl.next.2.congr fun b hb => Heap.field_eq_of_load_eq (hother b hb)
      prev := hprev.congr fun b hb => Heap.field_eq_of_load_eq (hother b (by simpa using hb))
      mem_iff := fun b => ?_
      off_list := fun b k hb hbl => ?_
      stale_mapped := ?_ }
  · by_cases hba : b = a
    · subst hba
      simp [hload, hal, hfull]
    · have := hl.mem_iff b
      simp only [List.mem_cons, hba, false_or] at this
      simpa [hload, hba] using this
  · by_cases hba : b = a
    · subst hba
      obtain rfl : h' = k := by simpa [hload] using hb
      exact hload'
    · exact hl.off_list b k (by simpa [hload, hba] using hb) (by simp [hba, hbl])
  · rintro b ⟨⟩
    exact ⟨hal, h', by simp [hload]⟩

/-- Without a page in the list there is no stale link to speak of. -/
theorem forget_stale (hl : PageList G m [] stale) : PageList G m [] none :=
  ⟨hl.nodup, hl.head, trivial, trivial, hl.mem_iff, hl.off_list, by simp⟩

/-- Unmapping a page while no page is in the list. -/
theorem drop (hl : PageList G m [] stale) (hpages : m'.pages = none)
    (hload : ∀ b, m'.page.load b = if b = a then none else m.page.load b) :
    PageList G m' [] none where
  nodup := List.nodup_nil
  head := hpages
  next := trivial
  prev := trivial
  mem_iff b := by
    have hmem := hl.mem_iff b
    by_cases hba : b = a <;> simp_all
  off_list b k hb _ := by
    have hba : b ≠ a := fun heq => by simp [hload, heq] at hb
    exact hl.off_list b k (by simpa [hload, hba] using hb) (by simp)
  stale_mapped := by simp

/-- A full page that got room again becomes the head, and the old head gets it
as `prev`, in place of a stale link. -/
theorem push (hl : PageList G m l stale) (ha : m.page.load a = some h) (hal : a ∉ l)
    (hnext : h'.next = m.pages) (hprev : h'.prev = none) (hroom : h'.inuse < G.cpp)
    (hpages : m'.pages = some a)
    (hload : ∀ b, m'.page.load b = if b = a then some h' else
      if m.pages = some b then (m.page.load b).map fun n => { n with prev := some a }
      else m.page.load b) :
    PageList G m' (a :: l) none := by
  have hpagesl : ∀ b, m.pages = some b → b ∈ l := by
    intro b hb
    rw [hl.head] at hb
    exact List.mem_of_head? hb
  have hne : ∀ b ∈ l, b ≠ a := fun b hb heq => hal (heq ▸ hb)
  have hnext' : ∀ b ∈ l, m'.next b = m.next b := by
    intro b hb
    by_cases hbp : m.pages = some b <;> cases hk : m.page.load b <;>
      simp [Heap.field, hload, hne b hb, hbp, hk]
  refine
    { nodup := List.nodup_cons.mpr ⟨hal, hl.nodup⟩
      head := hpages
      next := ⟨?_, hl.next.congr hnext'⟩
      prev := ?_
      mem_iff := fun b => ?_
      off_list := fun b k hb hbl => ?_
      stale_mapped := by simp }
  · simp [Heap.field, hload, hnext, hl.head]
  · rw [List.reverse_cons, Chain.append_iff]
    refine ⟨?_, by simp [Heap.field, hload, hprev]⟩
    cases l with
    | nil => trivial
    | cons c l =>
        have hc : m.pages = some c := hl.head
        obtain ⟨k, hk, _⟩ := hl.exists_load (a := c) (by simp)
        have hcl : c ∉ l.reverse := by simpa using (List.nodup_cons.mp hl.nodup).1
        have hlast := hl.prev
        rw [List.reverse_cons] at hlast ⊢
        refine (hlast.update_last (v := some a) hcl).congr fun b hb => ?_
        have hbl : b ∈ c :: l := by simpa [or_comm] using hb
        by_cases hbc : b = c
        · subst hbc
          simp [Heap.field, hload, hne b hbl, hc, hk]
        · have hcb : ¬ c = b := Ne.symm hbc
          simp [Heap.field, hload, hne b hbl, hc, hbc, hcb]
  · by_cases hba : b = a
    · subst hba
      simp [hload, hroom]
    · by_cases hbp : m.pages = some b
      · obtain ⟨k, hk, hki⟩ := hl.exists_load (hpagesl b hbp)
        simp [hload, hba, hbp, hk, hki, hpagesl b hbp]
      · simp [hload, hba, hbp, hl.mem_iff b]
  · have hba : b ≠ a := by rintro rfl; simp at hbl
    have hbp : m.pages ≠ some b := fun heq => hbl (by simp [hpagesl b heq])
    exact hl.off_list b k (by simpa [hload, hba, hbp] using hb) (fun hmem => hbl (by simp [hmem]))

/-- An emptied page is cut out of the list, provided that it is not a head with
a stale link and a successor. -/
theorem cut (hl : PageList G m (l₁ ++ a :: l₂) stale) (ha : m.page.load a = some h)
    (hguard : l₁ = [] → stale = none ∨ l₂ = [])
    (hpages : m'.pages = if m.pages = some a then h.next else m.pages)
    (hload : ∀ b, m'.page.load b = if b = a then none else
      (m.page.load b).map fun k =>
        { k with
          next := if h.prev = some b then h.next else k.next
          prev := if h.next = some b then h.prev else k.prev }) :
    PageList G m' (l₁ ++ l₂) stale := by
  obtain ⟨hnext, hprev⟩ := hl.links ha
  have hnodup := hl.nodup
  have hal : a ∉ l₁ ++ l₂ := by
    have := List.nodup_middle.mp hnodup
    exact (List.nodup_cons.mp this).1
  have hne : ∀ b ∈ l₁ ++ l₂, b ≠ a := fun b hb heq => hal (heq ▸ hb)
  have hmap : ∀ b ∈ l₁ ++ l₂, ∃ k, m.page.load b = some k ∧ k.inuse < G.cpp := fun b hb =>
    hl.exists_load (by
      rcases List.mem_append.mp hb with hb | hb <;> simp [hb])
  refine
    { nodup := (List.nodup_cons.mp (List.nodup_middle.mp hnodup)).2
      head := ?_
      next := ?_
      prev := ?_
      mem_iff := fun b => ?_
      off_list := fun b k hb hbl => ?_
      stale_mapped := fun b hb => ?_ }
  · rw [hpages, hl.head, hnext]
    cases l₁ with
    | nil => simp
    | cons c l₁ =>
        have hca : c ≠ a := hne c (by simp)
        simp [hca]
  · refine (hl.next.splice_out hnodup).congr fun b hb => ?_
    obtain ⟨k, hk, _⟩ := hmap b hb
    have hnexta : m.next a = h.next := Heap.field_of_load ha
    rcases hlast : l₁.getLast? with _ | y
    · -- Without a predecessor, `prev` is null or stale, so it names no page of the list.
      have hb' : h.prev ≠ some b := by
        rw [hprev, hlast]
        exact fun heq => (hl.stale_mapped b (by simpa using heq)).1
          (by rcases List.mem_append.mp hb with hb | hb <;> simp [hb])
      simp [Heap.field, hload, hne b hb, hk, hb', Chain.splice]
    · have hy : h.prev = some y := by simp [hprev, hlast]
      by_cases hby : b = y
      · subst hby
        simp [Heap.field, hload, hne b hb, hk, hy, hnexta, Chain.splice]
      · have hyb : ¬ y = b := Ne.symm hby
        simp [Heap.field, hload, hne b hb, hk, hy, hyb, hby, Chain.splice]
  · have hrev : Chain m.prev (l₂.reverse ++ a :: l₁.reverse) stale := by simpa using hl.prev
    have hnodup' : (l₂.reverse ++ a :: l₁.reverse).Nodup := by
      simpa using List.nodup_reverse.mpr hnodup
    have hpreva : m.prev a = h.prev := Heap.field_of_load ha
    have hsplice := hrev.splice_out hnodup'
    rw [List.getLast?_reverse, ← hnext, hpreva] at hsplice
    rw [List.reverse_append]
    refine hsplice.congr fun b hb => ?_
    have hb' : b ∈ l₁ ++ l₂ := by simpa [or_comm] using hb
    obtain ⟨k, hk, _⟩ := hmap b hb'
    rcases hn : h.next with _ | y
    · simp [Heap.field, hload, hne b hb', hk, hn, Chain.splice]
    · by_cases hby : b = y
      · subst hby
        simp [Heap.field, hload, hne b hb', hk, hn, Chain.splice]
      · have hyb : ¬ y = b := Ne.symm hby
        simp [Heap.field, hload, hne b hb', hk, hn, hyb, hby, Chain.splice]
  · by_cases hba : b = a
    · subst hba
      simp [hload, hal]
    · have hmem := hl.mem_iff b
      simp only [List.mem_append, List.mem_cons, hba, false_or] at hmem
      rw [List.mem_append, hmem]
      cases hk : m.page.load b <;> simp [hload, hba, hk]
  · have hba : b ≠ a := fun heq => by simp [hload, heq] at hb
    have hbl' : b ∉ l₁ ++ a :: l₂ := by simpa [hba] using hbl
    obtain ⟨k₀, hk₀, rfl⟩ : ∃ k₀, m.page.load b = some k₀ ∧ _ = k := by
      simpa [hload, hba] using hb
    obtain ⟨hn₀, hp₀⟩ := hl.off_list b k₀ hk₀ hbl'
    have hnb : h.next ≠ some b := by
      rw [hnext]
      exact fun heq => hbl (by simp [List.mem_of_head? heq])
    have hpb : h.prev = some b → h.next = none := by
      rw [hprev]
      intro heq
      rcases List.eq_nil_or_concat l₁ with rfl | ⟨l, y, rfl⟩
      · rcases hguard rfl with hs | rfl
        · simp [hs] at heq
        · simp [hnext]
      · simp only [List.concat_eq_append, List.getLast?_concat, Option.some_or,
          Option.some.injEq] at heq
        subst heq
        simp at hbl
    by_cases hp : h.prev = some b
    · simp [hp, hpb hp, hp₀]
    · simp [hp, hnb, hn₀, hp₀]
  · obtain ⟨hbl, k, hk⟩ := hl.stale_mapped b hb
    have hba : b ≠ a := by rintro rfl; simp at hbl
    refine ⟨fun hmem => hbl ?_, ?_⟩
    · rcases List.mem_append.mp hmem with hmem | hmem <;> simp [hmem]
    · simp [hload, hba, hk]

end PageList

end ThreeW3.Pool
