/-
# The list of attributes of an object

What the loops of `attr_set`, `attr_get` and `attr_del` find, and how a list is relinked:
a new attribute goes to the end or into the place of the one with its name, and an
attribute that is taken out leaves the others in their order. The attribute taken out is
still there for `attr_free`.
-/

import ThreeW3.Objects.Model

namespace ThreeW3.Objects

open ThreeW3.Lib

variable {R F W : Type} {s s' : State R F W} {name : Name} {tca : ℕ} {l before after : List ℕ}

/-- An attribute but for its link. -/
structure Entry (R F : Type) where
  name : Option Name
  value : Ptr
  ref : Option (RefFn R)
  free : Option (FreeFn F)
  deriving DecidableEq, Repr

def Attri.entry (r : Attri R F) : Entry R F := ⟨r.name, r.value, r.ref, r.free⟩

namespace State

/-- The links of the attributes. -/
def next (s : State R F W) : ℕ → Ptr := s.attris.field Attri.next

/-- The attribute at an address, but for its link. -/
def entry (s : State R F W) (a : ℕ) : Option (Entry R F) := (s.attris.load a).map Attri.entry

/-- The attributes of an object, as the links give them. -/
def attributes (s : State R F W) (tca : ℕ) : List ℕ :=
  (s.objects.load tca).elim [] fun o => follow s.next s.count o.attr

end State

/-- Addresses are given out in order. -/
structure Bounded (s : State R F W) : Prop where
  objects : ∀ p o, s.objects.load p = some o → p < s.count
  attris : ∀ a r, s.attris.load a = some r → a < s.count

/-- The attributes of this list are there, linked one to the next. -/
structure Listed (s : State R F W) (l : List ℕ) : Prop where
  nodup : l.Nodup
  loaded : ∀ a ∈ l, ∃ r, s.attris.load a = some r
  chain : Chain s.next l none

theorem Listed.length_le (h : Listed s l) (hbounded : Bounded s) : l.length ≤ s.count :=
  length_le_of_nodup_of_lt h.nodup fun a ha =>
    let ⟨r, hr⟩ := h.loaded a ha
    hbounded.attris a r hr

/-- Following the links of an object gives its list. -/
theorem Listed.attributes_eq (h : Listed s l) (hbounded : Bounded s) {o : Alloc F}
    (ho : s.objects.load tca = some o) (hhead : o.attr = l.head?) : s.attributes tca = l := by
  rw [State.attributes, ho, Option.elim_some, hhead]
  exact h.chain.follow_eq (h.length_le hbounded)

theorem State.object_eq {p : ℕ} {o : Alloc F} (ho : s.objects.load p = some o) :
    s.object p = .ok o := by
  rw [object, ho, Option.elim_some]

theorem State.attri_eq {a : ℕ} {r : Attri R F} (hr : s.attris.load a = some r) :
    s.attri a = .ok r := by
  rw [attri, hr, Option.elim_some]

theorem State.next_eq {a : ℕ} {r : Attri R F} (hr : s.attris.load a = some r) :
    s.next a = r.next := Heap.field_of_load hr

theorem State.entry_eq {a : ℕ} {r : Attri R F} (hr : s.attris.load a = some r) :
    s.entry a = some r.entry := by
  rw [entry, hr, Option.map_some]

/-! ## Searching -/

/-- The attribute has this name. -/
def Named (s : State R F W) (name : Name) (a : ℕ) : Prop :=
  ∃ e ∈ s.entry a, e.name = some name

/-- The attribute has no name, since strdup(3) has failed. -/
def Nameless (s : State R F W) (a : ℕ) : Prop := ∃ e ∈ s.entry a, e.name = none

/-- Comparing a name with that of an attribute. -/
theorem strcmp_cases {a : ℕ} {r : Attri R F} (hr : s.attris.load a = some r) (name : Name) :
    (strcmp name r.name = .error .nullPointer ∧ Nameless s a) ∨
      (strcmp name r.name = .ok true ∧ ¬ Named s name a) ∨
      (strcmp name r.name = .ok false ∧ Named s name a) := by
  have hentry := State.entry_eq hr
  cases hname : r.name with
  | none => exact .inl ⟨rfl, r.entry, hentry, hname⟩
  | some name' =>
      by_cases heq : name = name'
      · refine .inr (.inr ⟨by simp [strcmp, heq], r.entry, hentry, ?_⟩)
        rw [Attri.entry, hname, heq]
      · refine .inr (.inl ⟨by simp [strcmp, heq], ?_⟩)
        rintro ⟨e, he, hename⟩
        obtain rfl : r.entry = e := Option.some.inj (hentry.symm.trans he)
        rw [Attri.entry, hname] at hename
        exact heq (Option.some.inj hename).symm

/-- Where the search for a name ends: it stops at an attribute without a name, finds none
with this name, or finds the first. -/
inductive Found (s : State R F W) (name : Name) (l : List ℕ) (p : Ptr) :
    Except Fault (Ptr × Ptr) → Prop
  | fault (a : ℕ) (ha : a ∈ l) (hnameless : Nameless s a) : Found s name l p (.error .nullPointer)
  | missing (hnone : ∀ a ∈ l, ¬ Named s name a) : Found s name l p (.ok (l.getLast?.or p, none))
  | found (before after : List ℕ) (a : ℕ) (hl : l = before ++ a :: after)
      (hbefore : ∀ b ∈ before, ¬ Named s name b) (hnamed : Named s name a) :
      Found s name l p (.ok (before.getLast?.or p, some a))

/-- One attribute more at the front. -/
theorem Found.cons {p : Ptr} {a : ℕ} {result : Except Fault (Ptr × Ptr)}
    (hother : ¬ Named s name a) (h : Found s name l (some a) result) :
    Found s name (a :: l) p result := by
  have hlast : ∀ l' : List ℕ, l'.getLast?.or (some a) = (a :: l').getLast?.or p := by
    intro l'
    rw [List.getLast?_cons]
    cases l'.getLast? <;> rfl
  cases h with
  | fault b hb hnameless => exact .fault b (List.mem_cons_of_mem a hb) hnameless
  | missing hnone =>
      rw [hlast]
      exact .missing (List.forall_mem_cons.mpr ⟨hother, hnone⟩)
  | found before after b hl hbefore hnamed =>
      rw [hlast]
      exact .found (a :: before) after b (by rw [hl, List.cons_append])
        (List.forall_mem_cons.mpr ⟨hother, hbefore⟩) hnamed

/-- The loop of `attr_del` -/
theorem attrDelLoop_spec (hloaded : ∀ a ∈ l, ∃ r, s.attris.load a = some r)
    (hchain : Chain s.next l none) {fuel : ℕ} (hfuel : l.length ≤ fuel) (p : Ptr) :
    Found s name l p (attrDelLoop s name fuel p l.head?) := by
  induction l generalizing fuel p with
  | nil =>
      have hend : attrDelLoop s name fuel p none = .ok (p, none) := by cases fuel <;> rfl
      rw [List.head?_nil, hend]
      exact .missing (by simp)
  | cons a l ih =>
      obtain ⟨fuel, rfl⟩ : ∃ k, fuel = k + 1 := ⟨fuel - 1, by simp at hfuel; omega⟩
      obtain ⟨r, hr⟩ := hloaded a List.mem_cons_self
      have hnext : r.next = l.head? := by
        rw [← State.next_eq hr]
        simpa using hchain.1
      rw [List.head?_cons, attrDelLoop, State.attri_eq hr, ok_bind]
      rcases strcmp_cases hr name with ⟨hcmp, hnameless⟩ | ⟨hcmp, hother⟩ | ⟨hcmp, hnamed⟩
      · rw [hcmp]
        exact .fault a List.mem_cons_self hnameless
      · rw [hcmp, ok_bind, if_pos rfl, hnext]
        exact (ih (fun b hb => hloaded b (List.mem_cons_of_mem a hb)) hchain.2
          (by simpa using hfuel) (some a)).cons hother
      · rw [hcmp]
        exact .found [] l a rfl (by simp) hnamed

/-- The loop of `attr_get` finds the same attribute. -/
theorem attrGetLoop_eq (s : State R F W) (name : Name) (fuel : ℕ) (p a : Ptr) :
    attrGetLoop s name fuel a = (attrDelLoop s name fuel p a).map Prod.snd := by
  induction fuel generalizing p a with
  | zero => cases a <;> rfl
  | succ fuel ih =>
      cases a with
      | none => rfl
      | some a =>
          rw [attrGetLoop, attrDelLoop]
          cases s.attri a with
          | error e => rfl
          | ok r =>
              rw [ok_bind, ok_bind]
              cases strcmp name r.name with
              | error e => rfl
              | ok differs =>
                  cases differs with
                  | true => exact ih (some a) r.next
                  | false => rfl

/-- Where the loop of `attr_set` ends: it stops at an attribute without a name, has nothing
to look at, or stops at the first attribute with this name or else at the last one. -/
inductive Stopped (s : State R F W) (name : Name) (l : List ℕ) (p : Ptr) :
    Except Fault (Ptr × Ptr) → Prop
  | fault (a : ℕ) (ha : a ∈ l) (hnameless : Nameless s a) :
      Stopped s name l p (.error .nullPointer)
  | empty (hl : l = []) : Stopped s name l p (.ok (p, none))
  | stopped (before after : List ℕ) (a : ℕ) (hl : l = before ++ a :: after)
      (hbefore : ∀ b ∈ before, ¬ Named s name b) (hstop : Named s name a ∨ after = []) :
      Stopped s name l p (.ok (before.getLast?.or p, some a))

theorem Stopped.cons {p : Ptr} {a b : ℕ} {result : Except Fault (Ptr × Ptr)}
    (hother : ¬ Named s name a) (h : Stopped s name (b :: l) (some a) result) :
    Stopped s name (a :: b :: l) p result := by
  cases h with
  | fault c hc hnameless => exact .fault c (List.mem_cons_of_mem a hc) hnameless
  | empty hl => cases hl
  | stopped before after c hl hbefore hstop =>
      have hlast : before.getLast?.or (some a) = (a :: before).getLast?.or p := by
        rw [List.getLast?_cons]
        cases before.getLast? <;> rfl
      rw [hlast]
      exact .stopped (a :: before) after c (by rw [hl, List.cons_append])
        (List.forall_mem_cons.mpr ⟨hother, hbefore⟩) hstop

theorem attrSetLoop_spec (hloaded : ∀ a ∈ l, ∃ r, s.attris.load a = some r)
    (hchain : Chain s.next l none) {fuel : ℕ} (hfuel : l.length ≤ fuel) (p : Ptr) :
    Stopped s name l p (attrSetLoop s name fuel p l.head?) := by
  induction l generalizing fuel p with
  | nil =>
      have hend : attrSetLoop s name fuel p none = .ok (p, none) := by cases fuel <;> rfl
      rw [List.head?_nil, hend]
      exact .empty rfl
  | cons a l ih =>
      obtain ⟨fuel, rfl⟩ : ∃ k, fuel = k + 1 := ⟨fuel - 1, by simp at hfuel; omega⟩
      obtain ⟨r, hr⟩ := hloaded a List.mem_cons_self
      have hnext : r.next = l.head? := by
        rw [← State.next_eq hr]
        simpa using hchain.1
      rw [List.head?_cons, attrSetLoop, State.attri_eq hr, ok_bind, hnext]
      cases l with
      | nil => exact .stopped [] [] a rfl (by simp) (.inr rfl)
      | cons b l =>
          rw [if_neg (by simp)]
          rcases strcmp_cases hr name with ⟨hcmp, hnameless⟩ | ⟨hcmp, hother⟩ | ⟨hcmp, hnamed⟩
          · rw [hcmp]
            exact .fault a List.mem_cons_self hnameless
          · rw [hcmp, ok_bind, if_pos rfl]
            exact (ih (fun c hc => hloaded c (List.mem_cons_of_mem a hc)) hchain.2
              (by simpa using hfuel) (some a)).cons hother
          · rw [hcmp]
            exact .stopped [] (b :: l) a rfl (by simp) (.inl hnamed)

/-! ## Relinking -/

/-- One object has another list of attributes, and nothing else has changed but links in it. -/
structure Relinked (s s' : State R F W) (tca : ℕ) (l : List ℕ) : Prop where
  object : ∃ o, s.objects.load tca = some o ∧
    s'.objects.load tca = some { o with attr := l.head? }
  objects : ∀ q, q ≠ tca → s'.objects.load q = s.objects.load q
  chain : Chain s'.next l none
  entry : ∀ a, s'.entry a = s.entry a
  outside : ∀ a, a ∉ l → s'.attris.load a = s.attris.load a
  count : s'.count = s.count
  world : s'.world = s.world
  ledger : s'.ledger = s.ledger

theorem State.loaded_iff {a : ℕ} : (∃ r, s.attris.load a = some r) ↔ s.entry a ≠ none := by
  rw [entry]
  cases s.attris.load a <;> simp

theorem State.setNext_eq {a : ℕ} {r : Attri R F} (hr : s.attris.load a = some r) (x : Ptr) :
    s.setNext a x = .ok { s with attris := s.attris.store a { r with next := x } } := by
  rw [setNext, attri_eq hr, ok_bind]

theorem State.setLink_none {o : Alloc F} (ho : s.objects.load tca = some o) (x : Ptr) :
    s.setLink tca none x = .ok { s with objects := s.objects.store tca { o with attr := x } } := by
  rw [setLink, object_eq ho, ok_bind]

/-- Writing a link. -/
theorem setNext_spec {a : ℕ} (ha : ∃ r, s.attris.load a = some r) (x : Ptr) :
    ∃ s', s.setNext a x = .ok s' ∧ s'.objects = s.objects ∧
      s'.next = Function.update s.next a x ∧ (∀ b, s'.entry b = s.entry b) ∧
      (∀ b, b ≠ a → s'.attris.load b = s.attris.load b) ∧
      s'.count = s.count ∧ s'.world = s.world ∧ s'.ledger = s.ledger := by
  obtain ⟨r, hr⟩ := ha
  refine ⟨_, State.setNext_eq hr x, rfl, Heap.field_store, ?_, ?_, rfl, rfl, rfl⟩
  · intro b
    rw [State.entry, State.entry, Heap.load_store]
    split_ifs with hb
    · rw [hb, hr]
      rfl
    · rfl
  · intro b hb
    exact Heap.load_store_of_ne hb

/-- Writing the link that leads past the attributes of `before`. -/
theorem setLink_spec {o : Alloc F} (ho : s.objects.load tca = some o)
    (hhead : o.attr = (before ++ after).head?)
    (hloaded : ∀ a ∈ before, ∃ r, s.attris.load a = some r) (x : Ptr) :
    ∃ s', s.setLink tca before.getLast? x = .ok s' ∧
      s'.objects.load tca = some { o with attr := before.head?.or x } ∧
      (∀ q, q ≠ tca → s'.objects.load q = s.objects.load q) ∧
      s'.next = Chain.splice s.next before.getLast? x ∧ (∀ b, s'.entry b = s.entry b) ∧
      (∀ b, b ∉ before → s'.attris.load b = s.attris.load b) ∧
      s'.count = s.count ∧ s'.world = s.world ∧ s'.ledger = s.ledger := by
  rcases List.eq_nil_or_concat before with rfl | ⟨before, a, rfl⟩
  · refine ⟨_, State.setLink_none ho x, by simp, ?_, rfl, fun b => rfl, fun b _ => rfl, rfl, rfl, rfl⟩
    intro q hq
    exact Heap.load_store_of_ne hq
  · rw [List.concat_eq_append] at hhead hloaded ⊢
    obtain ⟨s', hset, hobjects, hnext, hentry, hload, hrest⟩ :=
      setNext_spec (hloaded a (by simp)) x
    rw [List.getLast?_concat]
    refine ⟨s', hset, ?_, fun q _ => by rw [hobjects], hnext, hentry, ?_, hrest⟩
    · have hattr : (before ++ [a]).head?.or x = o.attr := by
        rw [hhead]
        cases before <;> rfl
      rw [hobjects, ho, hattr]
    · intro b hb
      refine hload b ?_
      rintro rfl
      exact hb (by simp)

theorem Listed.of_append (h : Listed s (before ++ after)) {a : ℕ} (ha : a ∈ before) :
    ∃ r, s.attris.load a = some r := h.loaded a (List.mem_append_left after ha)

/-- `attr_del` takes an attribute out. -/
theorem unlink_spec {o : Alloc F} {a : ℕ} {r : Attri R F} (ho : s.objects.load tca = some o)
    (h : Listed s (before ++ a :: after)) (hhead : o.attr = (before ++ a :: after).head?)
    (hr : s.attris.load a = some r) :
    ∃ s', s.setLink tca before.getLast? r.next = .ok s' ∧ Relinked s s' tca (before ++ after) := by
  have hlink : r.next = after.head? := by
    rw [← State.next_eq hr]
    simpa using h.chain.link_eq
  obtain ⟨s', hset, hobject, hobjects, hnext, hentry, hload, hcount, hworld, hledger⟩ :=
    setLink_spec ho hhead (fun b => h.of_append) r.next
  refine ⟨s', hset, ⟨o, ho, ?_⟩, hobjects, ?_, hentry, ?_, hcount, hworld, hledger⟩
  · rw [hobject, hlink]
    cases before <;> rfl
  · have hsplice := Chain.splice_out h.nodup h.chain
    rw [State.next_eq hr] at hsplice
    rwa [hnext]
  · intro b hb
    exact hload b fun hmem => hb (List.mem_append_left after hmem)

/-- `attr_set` appends a new attribute. -/
theorem append_spec {o : Alloc F} {n : ℕ} {r : Attri R F} (ho : s.objects.load tca = some o)
    (h : Listed s l) (hhead : o.attr = l.head?) (hn : n ∉ l) (hr : s.attris.load n = some r)
    (hnull : r.next = none) :
    ∃ s', s.setLink tca l.getLast? (some n) = .ok s' ∧ Relinked s s' tca (l ++ [n]) := by
  have hhead' : o.attr = (l ++ []).head? := by rwa [List.append_nil]
  obtain ⟨s', hset, hobject, hobjects, hnext, hentry, hload, hcount, hworld, hledger⟩ :=
    setLink_spec ho hhead' h.loaded (some n)
  refine ⟨s', hset, ⟨o, ho, ?_⟩, hobjects, ?_, hentry, ?_, hcount, hworld, hledger⟩
  · rw [hobject]
    cases l <;> rfl
  · have hsnoc := Chain.snoc h.nodup hn h.chain
    have hself : Chain.splice s.next l.getLast? (some n) n = none := by
      have hne : l.getLast? ≠ some n := fun hlast => hn (List.mem_of_getLast? hlast)
      rw [← hnull, ← State.next_eq hr]
      cases hlast : l.getLast? with
      | none => rfl
      | some y =>
          have hny : n ≠ y := by
            rintro rfl
            exact hne hlast
          exact Function.update_of_ne hny _ _
    rw [hnext]
    rwa [Function.update_eq_self_iff.mpr hself.symm] at hsnoc
  · intro b hb
    exact hload b fun hmem => hb (List.mem_append_left [n] hmem)

/-- `attr_set` puts a new attribute in the place of another one. -/
theorem replace_spec {o : Alloc F} {a n : ℕ} {r : Attri R F} (ho : s.objects.load tca = some o)
    (h : Listed s (before ++ a :: after)) (hhead : o.attr = (before ++ a :: after).head?)
    (hn : n ∉ before ++ a :: after) (hloaded : ∃ r, s.attris.load n = some r)
    (hr : s.attris.load a = some r) :
    ∃ s₁ s', s.setNext n r.next = .ok s₁ ∧ s₁.setLink tca before.getLast? (some n) = .ok s' ∧
      Relinked s s' tca (before ++ n :: after) := by
  obtain ⟨s₁, hset₁, hobjects₁, hnext₁, hentry₁, hload₁, hcount₁, hworld₁, hledger₁⟩ :=
    setNext_spec hloaded r.next
  have ho₁ : s₁.objects.load tca = some o := by rw [hobjects₁, ho]
  have hloaded₁ : ∀ b ∈ before, ∃ r, s₁.attris.load b = some r := by
    intro b hb
    rw [State.loaded_iff, hentry₁, ← State.loaded_iff]
    exact h.of_append hb
  obtain ⟨s', hset, hobject, hobjects, hnext, hentry, hload, hcount, hworld, hledger⟩ :=
    setLink_spec ho₁ hhead hloaded₁ (some n)
  refine ⟨s₁, s', hset₁, hset, ⟨o, ho, ?_⟩, ?_, ?_, ?_, ?_, hcount.trans hcount₁,
    hworld.trans hworld₁, hledger.trans hledger₁⟩
  · rw [hobject]
    cases before <;> rfl
  · intro q hq
    rw [hobjects q hq, hobjects₁]
  · have hreplace := Chain.replace h.nodup hn h.chain
    rw [State.next_eq hr] at hreplace
    rw [hnext, hnext₁]
    have hne : before.getLast? ≠ some n := fun hlast =>
      hn (List.mem_append_left _ (List.mem_of_getLast? hlast))
    cases hlast : before.getLast? with
    | none =>
        rw [hlast] at hreplace
        exact hreplace
    | some y =>
        have hny : n ≠ y := by
          rintro rfl
          exact hne hlast
        rw [hlast] at hreplace
        rwa [Chain.splice, Function.update_comm hny]
  · intro b
    rw [hentry, hentry₁]
  · intro b hb
    have hbn : b ≠ n := by
      rintro rfl
      exact hb (by simp)
    rw [hload b fun hmem => hb (List.mem_append_left _ hmem), hload₁ b hbn]

/-! ## Setting and deleting -/

/-- A new attribute for an object, which does not have it yet. -/
def State.make (s : State R F W) (tca : ℕ) (e : Entry R F) : State R F W :=
  { s with
    attris := s.attris.store s.count ⟨e.name, e.value, e.ref, e.free, none⟩
    count := s.count + 1
    ledger := { s.ledger with made := s.ledger.made ++ [(tca, s.count)] } }

/-- What `attr_set` writes into a new attribute. -/
def newEntry (name : Name) (val : Ptr) (r : Option (RefFn R)) (f : Option (FreeFn F)) (g : Grant) :
    Entry R F := ⟨if g.strdup then some name else none, val, r, f⟩

theorem Bounded.load_count (h : Bounded s) : s.attris.load s.count = none := by
  cases hload : s.attris.load s.count with
  | none => rfl
  | some r => exact absurd (h.attris _ r hload) (lt_irrefl _)

section Make

variable {e : Entry R F}

theorem State.make_load_of_ne {a : ℕ} (ha : a ≠ s.count) :
    (s.make tca e).attris.load a = s.attris.load a := Heap.load_store_of_ne ha

theorem State.make_load : (s.make tca e).attris.load s.count = some ⟨e.name, e.value, e.ref, e.free, none⟩ :=
  Heap.load_store_self

theorem State.make_entry_of_ne {a : ℕ} (ha : a ≠ s.count) : (s.make tca e).entry a = s.entry a := by
  rw [entry, make_load_of_ne ha, entry]

theorem State.make_entry : (s.make tca e).entry s.count = some e := by
  rw [entry, make_load]
  rfl

theorem Listed.lt_count (h : Listed s l) (hbounded : Bounded s) {a : ℕ} (ha : a ∈ l) :
    a < s.count := by
  obtain ⟨r, hr⟩ := h.loaded a ha
  exact hbounded.attris a r hr

theorem Listed.count_notMem (h : Listed s l) (hbounded : Bounded s) : s.count ∉ l := fun hmem =>
  lt_irrefl _ (h.lt_count hbounded hmem)

/-- The lists stay as they are. -/
theorem Listed.make (h : Listed s l) (hbounded : Bounded s) (tca : ℕ) (e : Entry R F) :
    Listed (s.make tca e) l := by
  have hne : ∀ a ∈ l, a ≠ s.count := fun a ha => ne_of_lt (h.lt_count hbounded ha)
  refine ⟨h.nodup, fun a ha => ?_, h.chain.congr fun a ha => ?_⟩
  · rw [State.make_load_of_ne (hne a ha)]
    exact h.loaded a ha
  · exact Heap.field_eq_of_load_eq (State.make_load_of_ne (hne a ha))

end Make

/-! ## What stays in order -/

theorem Listed.congr (h : Listed s l) (hload : ∀ a ∈ l, s'.attris.load a = s.attris.load a) :
    Listed s' l := by
  refine ⟨h.nodup, fun a ha => ?_, h.chain.congr fun a ha => Heap.field_eq_of_load_eq (hload a ha)⟩
  rw [hload a ha]
  exact h.loaded a ha

theorem Bounded.make (h : Bounded s) (tca : ℕ) (e : Entry R F) : Bounded (s.make tca e) := by
  refine ⟨fun p o ho => Nat.lt_succ_of_lt (h.objects p o ho), fun a r hr => ?_⟩
  by_cases ha : a = s.count
  · rw [ha]
    exact Nat.lt_succ_self _
  · rw [State.make_load_of_ne ha] at hr
    exact Nat.lt_succ_of_lt (h.attris a r hr)

namespace Relinked

variable (h : Relinked s s' tca l)

include h

theorem loaded_iff (a : ℕ) : (∃ r, s'.attris.load a = some r) ↔ ∃ r, s.attris.load a = some r := by
  rw [State.loaded_iff, State.loaded_iff, h.entry]

theorem listed (hnodup : l.Nodup) (hloaded : ∀ a ∈ l, ∃ r, s.attris.load a = some r) :
    Listed s' l := ⟨hnodup, fun a ha => (h.loaded_iff a).mpr (hloaded a ha), h.chain⟩

theorem bounded (hbounded : Bounded s) : Bounded s' := by
  constructor
  · intro q o ho
    rw [h.count]
    by_cases hq : q = tca
    · obtain ⟨o', ho', -⟩ := h.object
      exact hq ▸ hbounded.objects tca o' ho'
    · rw [h.objects q hq] at ho
      exact hbounded.objects q o ho
  · intro a r hr
    rw [h.count]
    obtain ⟨r', hr'⟩ := (h.loaded_iff a).mp ⟨r, hr⟩
    exact hbounded.attris a r' hr'

end Relinked

/-- A new attribute at the end, or in the place of another one, makes no attribute come twice. -/
theorem Listed.nodup_append (h : Listed s l) {n : ℕ} (hn : n ∉ l) : (l ++ [n]).Nodup :=
  List.nodup_append.mpr ⟨h.nodup, List.nodup_singleton n, by
    rintro a ha b hb rfl
    exact hn (List.mem_singleton.mp hb ▸ ha)⟩

theorem Listed.nodup_replace {a n : ℕ} (h : Listed s (before ++ a :: after))
    (hn : n ∉ before ++ a :: after) :
    (before ++ n :: after).Nodup ∧ a ∉ before ++ n :: after ∧ a ∉ before ++ after := by
  have hnodup := h.nodup
  simp only [List.nodup_append, List.nodup_cons, List.mem_append, List.mem_cons, not_or] at hnodup hn ⊢
  grind

section Calls

variable (H : Hooks R F W)

/-- What `attr_set` does: it stops at a null pointer, or there is a new attribute at the end
of the list, or in the place of the one with its name, which is then released. -/
inductive SetResult (s : State R F W) (tca : ℕ) (name : Name) (e : Entry R F) (g : Grant)
    (l : List ℕ) : Except Fault (State R F W) → Prop
  | fault (hcause : g.calloc = false ∨ ∃ a ∈ l, Nameless s a) :
      SetResult s tca name e g l (.error .nullPointer)
  | appended (s' : State R F W) (hgrant : g.calloc = true) (hnone : ∀ a ∈ l, ¬ Named s name a)
      (h : Relinked (s.make tca e) s' tca (l ++ [s.count])) : SetResult s tca name e g l (.ok s')
  | replaced (before after : List ℕ) (a : ℕ) (s' : State R F W) (hgrant : g.calloc = true)
      (hl : l = before ++ a :: after) (hbefore : ∀ b ∈ before, ¬ Named s name b)
      (hnamed : Named s name a) (h : Relinked (s.make tca e) s' tca (before ++ s.count :: after)) :
      SetResult s tca name e g l (attrFree H (FREE H) s' a)

/-- What `attr_del` does: it stops at a null pointer, finds nothing, or takes the attribute
out of the list and releases it. -/
inductive DelResult (s : State R F W) (tca : ℕ) (name : Name) (l : List ℕ) :
    Except Fault (State R F W) → Prop
  | fault (a : ℕ) (ha : a ∈ l) (hnameless : Nameless s a) :
      DelResult s tca name l (.error .nullPointer)
  | kept (hnone : ∀ a ∈ l, ¬ Named s name a) : DelResult s tca name l (.ok s)
  | removed (before after : List ℕ) (a : ℕ) (s' : State R F W) (hl : l = before ++ a :: after)
      (hbefore : ∀ b ∈ before, ¬ Named s name b) (hnamed : Named s name a)
      (h : Relinked s s' tca (before ++ after)) :
      DelResult s tca name l (attrFree H (FREE H) s' a)

variable {o : Alloc F} (hbounded : Bounded s) (ho : s.objects.load tca = some o)
  (h : Listed s l) (hhead : o.attr = l.head?)

include hbounded ho h hhead

theorem attrDel_spec (name : Name) : DelResult H s tca name l (attrDel H s tca name) := by
  have hfound : Found s name l none (attrDelLoop s name s.count none l.head?) :=
    attrDelLoop_spec h.loaded h.chain (h.length_le hbounded) none
  rw [attrDel, State.object_eq ho, ok_bind, hhead]
  generalize attrDelLoop s name s.count none l.head? = result at hfound
  cases hfound with
  | fault a ha hnameless => exact .fault a ha hnameless
  | missing hnone => exact .kept hnone
  | found before after a hl hbefore hnamed =>
      subst hl
      obtain ⟨r, hr⟩ := h.loaded a (by simp)
      obtain ⟨s', hset, hrelinked⟩ := unlink_spec ho h hhead hr
      rw [Option.or_none, ok_bind]
      simp only [State.attri_eq hr, ok_bind, hset]
      exact .removed before after a s' rfl hbefore hnamed hrelinked

theorem attrSet_spec (name : Name) (val : Ptr) (r : Option (RefFn R)) (f : Option (FreeFn F))
    (g : Grant) :
    SetResult H s tca name (newEntry name val r f g) g l (attrSet H s tca name val r f g) := by
  have hloop : Stopped s name l none (attrSetLoop s name s.count none l.head?) :=
    attrSetLoop_spec h.loaded h.chain (h.length_le hbounded) none
  rw [attrSet, State.object_eq ho, ok_bind, hhead]
  generalize attrSetLoop s name s.count none l.head? = result at hloop ⊢
  cases hcalloc : g.calloc with
  | false =>
      have hfault : ∀ pa : Ptr × Ptr, newAttri s tca name val r f g = .error .nullPointer := by
        intro pa
        rw [newAttri, hcalloc]
        rfl
      cases result with
      | error e =>
          cases hloop
          exact .fault (.inl hcalloc)
      | ok pa =>
          obtain ⟨p, a⟩ := pa
          simp only [ok_bind, hfault (p, a), error_bind]
          exact .fault (.inl hcalloc)
  | true =>
      have hnew : newAttri s tca name val r f g = .ok (s.make tca (newEntry name val r f g), s.count) := by
        rw [newAttri, hcalloc]
        rfl
      have hmade := h.make hbounded tca (newEntry name val r f g)
      have hfresh := h.count_notMem hbounded
      have hload : (s.make tca (newEntry name val r f g)).attris.load s.count = _ := State.make_load
      have hkept : ∀ a ∈ l, ∀ ra, s.attris.load a = some ra →
          (s.make tca (newEntry name val r f g)).attris.load a = some ra := by
        intro a ha ra hra
        rwa [State.make_load_of_ne (ne_of_lt (h.lt_count hbounded ha))]
      cases hloop with
      | fault a ha hnameless => exact .fault (.inr ⟨a, ha, hnameless⟩)
      | empty hl =>
          subst hl
          obtain ⟨s', hset, hrelinked⟩ := append_spec (s := s.make tca _) ho hmade hhead hfresh hload rfl
          simp only [ok_bind, hnew]
          rw [List.getLast?_nil] at hset
          rw [hset]
          exact .appended s' hcalloc (by simp) hrelinked
      | stopped before after a hl hbefore hstop =>
          subst hl
          obtain ⟨ra, hra⟩ := h.loaded a (by simp)
          have hra' := hkept a (by simp) ra hra
          simp only [ok_bind, hnew, Option.or_none, State.attri_eq hra']
          rcases strcmp_cases hra name with ⟨hcmp, hnameless⟩ | ⟨hcmp, hother⟩ | ⟨hcmp, hnamed⟩
          · rw [hcmp]
            exact .fault (.inr ⟨a, by simp, hnameless⟩)
          · obtain rfl := hstop.resolve_left hother
            obtain ⟨s', hset, hrelinked⟩ :=
              append_spec (s := s.make tca _) ho hmade hhead hfresh hload rfl
            rw [List.getLast?_concat] at hset
            rw [hcmp, ok_bind, if_pos rfl]
            change SetResult H s tca name _ g _ ((s.make tca _).setLink tca (some a) (some s.count))
            rw [hset]
            refine .appended s' hcalloc ?_ hrelinked
            exact List.forall_mem_append.mpr ⟨hbefore, by simpa using hother⟩
          · obtain ⟨s₁, s', hset₁, hset, hrelinked⟩ :=
              replace_spec (s := s.make tca _) ho hmade hhead hfresh ⟨_, hload⟩ hra'
            simp only [hcmp, ok_bind, Bool.false_eq_true, if_false, hset₁, hset]
            exact .replaced before after a s' hcalloc rfl hbefore hnamed hrelinked

end Calls

end ThreeW3.Objects
