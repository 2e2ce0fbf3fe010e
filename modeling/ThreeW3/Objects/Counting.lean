/-
# The account of references

A reference is held by a client or by an attribute. In the middle of a release there are
attributes that no object has any more (`loose`), some of which have given up their
reference already (`debt`), and objects whose count is zero but whose block is still there
(`dying`). The account says that every count is the number of references that are left, and
what has happened to the objects and attributes that are gone. Each operation has one lemma
on the account.
-/

import ThreeW3.Objects.Attributes

namespace ThreeW3.Objects

open ThreeW3.Lib

variable {R F W : Type} {s s' : State R F W} {own : ℕ → ℕ} {debt dying loose : List ℕ}
  {recs : ℕ → List ℕ} {p q a v : ℕ} {o : Alloc F} {r : Attri R F}

namespace State

/-- The count of an object, zero if it is gone. -/
def rc (s : State R F W) (q : ℕ) : ℤ := (s.objects.load q).elim 0 Alloc.rc

/-- How many attributes hold an object, but for those of a list. -/
def heldBut (s : State R F W) (debt : List ℕ) (q : ℕ) : ℕ :=
  s.attris.countP fun a r => decide (a ∉ debt ∧ r.value = some q)

/-- How many attributes hold an object. -/
def held (s : State R F W) (q : ℕ) : ℕ := s.attris.countP fun _ r => decide (r.value = some q)

/-- How many objects have a count. -/
def alive (s : State R F W) : ℕ := s.objects.countP fun _ o => decide (o.rc ≠ 0)

theorem rc_eq (ho : s.objects.load q = some o) : s.rc q = o.rc := by
  rw [rc, ho, Option.elim_some]

end State

/-! ## The account -/

/-- Every attribute is in the list of one object that has a count, or loose. -/
structure Shape (s : State R F W) (loose : List ℕ) (recs : ℕ → List ℕ) : Prop where
  bounded : Bounded s
  listed : ∀ p, Listed s (recs p)
  head : ∀ p o, s.objects.load p = some o → o.rc ≠ 0 → o.attr = (recs p).head?
  empty : ∀ p, s.rc p = 0 → recs p = []
  owner : ∀ p, ∀ a ∈ recs p, (p, a) ∈ s.ledger.made
  loose_nodup : loose.Nodup
  loose_loaded : ∀ a ∈ loose, ∃ r, s.attris.load a = some r
  loose_notMem : ∀ a ∈ loose, ∀ p, a ∉ recs p
  cover : ∀ a r, s.attris.load a = some r → (∃ p, a ∈ recs p) ∨ a ∈ loose

/-- Each object that is gone has been finalized and freed once. -/
structure Buried (s : State R F W) : Prop where
  given_nodup : (s.ledger.given.map Prod.fst).Nodup
  given_lt : ∀ x ∈ s.ledger.given, x.1 < s.count
  given_of_load : ∀ p o, s.objects.load p = some o → (p, o.free) ∈ s.ledger.given
  freed_nodup : s.ledger.freed.Nodup
  mem_freed : ∀ p, p ∈ s.ledger.freed ↔
    (∃ f, (p, f) ∈ s.ledger.given) ∧ s.objects.load p = none
  finalized_nodup : s.ledger.finalized.Nodup
  mem_finalized : ∀ p, p ∈ s.ledger.finalized ↔
    (∃ f, (p, some f) ∈ s.ledger.given) ∧ s.rc p = 0

/-- Each attribute that is gone has been released once. -/
structure Released (s : State R F W) : Prop where
  made_nodup : (s.ledger.made.map Prod.snd).Nodup
  made_lt : ∀ x ∈ s.ledger.made, x.2 < s.count
  made_of_load : ∀ a r, s.attris.load a = some r → ∃ p, (p, a) ∈ s.ledger.made
  released_nodup : s.ledger.released.Nodup
  mem_released : ∀ a, a ∈ s.ledger.released ↔
    (∃ p, (p, a) ∈ s.ledger.made) ∧ s.attris.load a = none

/-- The account, with the references that clients own. -/
structure Account (s : State R F W) (own : ℕ → ℕ) (debt dying loose : List ℕ)
    (recs : ℕ → List ℕ) : Prop extends Shape s loose recs, Buried s, Released s where
  count : ∀ q, s.rc q = own q + s.heldBut debt q
  dying_iff : ∀ q, q ∈ dying ↔ ∃ o, s.objects.load q = some o ∧ o.rc = 0
  debt_loose : ∀ a ∈ debt, a ∈ loose
  hooks : ∀ a r, s.attris.load a = some r →
    r.ref = some .ref ∧ r.free = some .free ∧ ∃ v, r.value = some v

/-- Nothing to account for. -/
theorem Account.start (w : W) :
    Account (State.start w : State R F W) (fun _ => 0) [] [] [] fun _ => [] := by
  have hobjects : ∀ p, (State.start w : State R F W).objects.load p = none := fun p =>
    Heap.load_empty
  have hattris : ∀ a, (State.start w : State R F W).attris.load a = none := fun a =>
    Heap.load_empty
  refine { (?_ : Buried (State.start w : State R F W)),
    (?_ : Released (State.start w : State R F W)) with
    bounded := ⟨fun p o ho => by simp [hobjects] at ho, fun a r hr => by simp [hattris] at hr⟩
    listed := fun p => ⟨List.nodup_nil, by simp, trivial⟩
    head := fun p o ho => by simp [hobjects] at ho
    empty := fun p _ => rfl
    owner := by simp
    loose_nodup := List.nodup_nil
    loose_loaded := by simp
    loose_notMem := by simp
    cover := fun a r hr => by simp [hattris] at hr
    count := fun q => by rw [State.rc, hobjects]; rfl
    dying_iff := fun q => by simp [hobjects]
    debt_loose := by simp
    hooks := fun a r hr => by simp [hattris] at hr }
  · exact ⟨List.nodup_nil, by simp [State.start], fun p o ho => by simp [hobjects] at ho,
      List.nodup_nil, by simp [State.start], List.nodup_nil, by simp [State.start]⟩
  · exact ⟨List.nodup_nil, by simp [State.start], fun a r hr => by simp [hattris] at hr,
      List.nodup_nil, by simp [State.start]⟩

/-- A new reference of a client. -/
def gain (own : ℕ → ℕ) (p : ℕ) : ℕ → ℕ := fun q => own q + if q = p then 1 else 0

theorem gain_self (own : ℕ → ℕ) (p : ℕ) : gain own p p = own p + 1 := by
  rw [gain, if_pos rfl]

/-! ## Counts -/

theorem State.heldBut_nil (s : State R F W) (q : ℕ) : s.heldBut [] q = s.held q :=
  Heap.countP_eq_of_load fun a => by cases s.attris.load a <;> simp

/-- An attribute gives up its reference. -/
theorem State.heldBut_cons (hr : s.attris.load a = some r) (ha : a ∉ debt) (q : ℕ) :
    s.heldBut (a :: debt) q + (if r.value = some q then 1 else 0) = s.heldBut debt q := by
  have hwithout := Heap.countP_without
    (p := fun a (r : Attri R F) => decide (a ∉ debt ∧ r.value = some q))
    (q := fun b (r : Attri R F) => decide (b ∉ a :: debt ∧ r.value = some q)) hr
    (fun b w hb => by simp [hb]) (by simp)
  simpa [heldBut, ha] using hwithout

/-- What holds an object that clients may not own. -/
theorem State.heldBut_pos (hr : s.attris.load a = some r) (ha : a ∉ debt) (hv : r.value = some q) :
    0 < s.heldBut debt q := by
  have hcons := heldBut_cons hr ha q
  rw [if_pos hv] at hcons
  omega

namespace Account

variable (h : Account s own debt dying loose recs)

include h

/-- An object with a reference has a count. -/
theorem exists_object (hpos : 0 < own q + s.heldBut debt q) :
    ∃ o, s.objects.load q = some o ∧ 0 < o.rc := by
  have hcount := h.count q
  rw [State.rc] at hcount
  cases ho : s.objects.load q with
  | none =>
      rw [ho, Option.elim_none] at hcount
      omega
  | some o =>
      rw [ho, Option.elim_some] at hcount
      exact ⟨o, rfl, by omega⟩

/-- An attribute is in the list of one object. -/
theorem owner_unique (hp : a ∈ recs p) (hq : a ∈ recs q) : p = q :=
  congrArg Prod.fst (List.inj_on_of_nodup_map h.made_nodup (h.owner p a hp) (h.owner q a hq) rfl)

/-- An object was given out once. -/
theorem free_unique {f f' : Option F} (hf : (p, f) ∈ s.ledger.given)
    (hf' : (p, f') ∈ s.ledger.given) : f = f' :=
  congrArg Prod.snd (List.inj_on_of_nodup_map h.given_nodup hf hf' rfl)

theorem notMem_debt (ha : a ∉ loose) : a ∉ debt := fun hmem => ha (h.debt_loose a hmem)

end Account

/-! ## Operations on objects -/

theorem rc_store (o' : Alloc F) (hobjects : s'.objects = s.objects.store p o') (q : ℕ) :
    s'.rc q = if q = p then o'.rc else s.rc q := by
  rw [State.rc, State.rc, hobjects, Heap.load_store]
  split_ifs <;> rfl

/-- Another record in place of one keeps the addresses in bounds. -/
theorem Bounded.store (hbounded : Bounded s) (ho : s.objects.load p = some o) {o' : Alloc F}
    (hobjects : s'.objects = s.objects.store p o') (hattris : s'.attris = s.attris)
    (hcount : s'.count = s.count) : Bounded s' := by
  constructor
  · intro q o'' ho''
    rw [hobjects, Heap.load_store] at ho''
    rw [hcount]
    split_ifs at ho'' with hq
    · exact hq ▸ hbounded.objects p o ho
    · exact hbounded.objects q o'' ho''
  · intro a r hr
    rw [hattris] at hr
    rw [hcount]
    exact hbounded.attris a r hr

/-- Nothing but the counts and the state of the hooks has changed. -/
structure Recounted (s s' : State R F W) (p : ℕ) (o : Alloc F) (n : ℤ) : Prop where
  load : s.objects.load p = some o
  objects : s'.objects = s.objects.store p { o with rc := n }
  attris : s'.attris = s.attris
  count : s'.count = s.count
  given : s'.ledger.given = s.ledger.given
  made : s'.ledger.made = s.ledger.made
  freed : s'.ledger.freed = s.ledger.freed
  released : s'.ledger.released = s.ledger.released

namespace Recounted

variable {n : ℤ} (hre : Recounted s s' p o n)

include hre

theorem rc (q : ℕ) : s'.rc q = if q = p then n else s.rc q := rc_store _ hre.objects q

theorem listed {l : List ℕ} (h : Listed s l) : Listed s' l :=
  h.congr fun a _ => by rw [hre.attris]

theorem heldBut (debt : List ℕ) (q : ℕ) : s'.heldBut debt q = s.heldBut debt q := by
  rw [State.heldBut, hre.attris, State.heldBut]

theorem load_of_ne (hq : q ≠ p) : s'.objects.load q = s.objects.load q := by
  rw [hre.objects, Heap.load_store_of_ne hq]

theorem load_self : s'.objects.load p = some { o with rc := n } := by
  rw [hre.objects, Heap.load_store_self]

/-- Objects keep their finalizers. -/
theorem free_eq (q : ℕ) :
    (s'.objects.load q).map Alloc.free = (s.objects.load q).map Alloc.free := by
  by_cases hq : q = p
  · rw [hq, hre.load_self, hre.load]
    rfl
  · rw [hre.load_of_ne hq]

end Recounted

/-! ## What a change keeps -/

/-- The same objects, with counts that are zero for the same ones. -/
theorem Buried.congr (h : Buried s)
    (hfree : ∀ q, (s'.objects.load q).map Alloc.free = (s.objects.load q).map Alloc.free)
    (hrc : ∀ q, s'.rc q = 0 ↔ s.rc q = 0) (hcount : s.count ≤ s'.count)
    (hgiven : s'.ledger.given = s.ledger.given) (hfreed : s'.ledger.freed = s.ledger.freed)
    (hfinalized : s'.ledger.finalized = s.ledger.finalized) : Buried s' := by
  have hnone : ∀ q, s'.objects.load q = none ↔ s.objects.load q = none := by
    intro q
    rw [← Option.map_eq_none_iff (f := Alloc.free), hfree, Option.map_eq_none_iff]
  constructor
  · rw [hgiven]
    exact h.given_nodup
  · rw [hgiven]
    exact fun x hx => lt_of_lt_of_le (h.given_lt x hx) hcount
  · intro q o ho
    have hsome := hfree q
    rw [ho, Option.map_some] at hsome
    obtain ⟨o₁, ho₁, heq⟩ := Option.map_eq_some_iff.mp hsome.symm
    rw [hgiven, ← heq]
    exact h.given_of_load q o₁ ho₁
  · rw [hfreed]
    exact h.freed_nodup
  · intro q
    rw [hfreed, hgiven, hnone, h.mem_freed]
  · rw [hfinalized]
    exact h.finalized_nodup
  · intro q
    rw [hfinalized, hgiven, hrc, h.mem_finalized]

/-- The same attributes. -/
theorem Released.congr (h : Released s)
    (hattris : ∀ a, (∃ r, s'.attris.load a = some r) ↔ ∃ r, s.attris.load a = some r)
    (hcount : s.count ≤ s'.count) (hmade : s'.ledger.made = s.ledger.made)
    (hreleased : s'.ledger.released = s.ledger.released) : Released s' := by
  have hnone : ∀ a, s'.attris.load a = none ↔ s.attris.load a = none := by
    intro a
    simp only [Option.eq_none_iff_forall_ne_some, ne_eq, ← not_exists, hattris]
  constructor
  · rw [hmade]
    exact h.made_nodup
  · rw [hmade]
    exact fun x hx => lt_of_lt_of_le (h.made_lt x hx) hcount
  · intro a r hr
    obtain ⟨r₁, hr₁⟩ := (hattris a).mp ⟨r, hr⟩
    rw [hmade]
    exact h.made_of_load a r₁ hr₁
  · rw [hreleased]
    exact h.released_nodup
  · intro a
    rw [hreleased, hmade, hnone, h.mem_released]

theorem Recounted.released_congr {n : ℤ} (hre : Recounted s s' p o n) (h : Released s) :
    Released s' :=
  h.congr (fun a => by rw [hre.attris]) (le_of_eq hre.count.symm) hre.made hre.released

namespace Account

variable (h : Account s own debt dying loose recs)

include h

/-! ## Counting up and down -/

/-- The count of an object that keeps a reference. -/
theorem recount {own' : ℕ → ℕ} {n : ℤ} (hre : Recounted s s' p o n)
    (hfinalized : s'.ledger.finalized = s.ledger.finalized) (hpos : 0 < o.rc) (hn : 0 < n)
    (hown : ∀ q, (own' q : ℤ) = own q + if q = p then n - o.rc else 0) :
    Account s' own' debt dying loose recs := by
  have hrcp : s.rc p = o.rc := State.rc_eq hre.load
  have hzero : ∀ q, s'.rc q = 0 ↔ s.rc q = 0 := by
    intro q
    rw [hre.rc]
    split_ifs with hq
    · subst hq
      omega
    · rfl
  refine { h.toBuried.congr hre.free_eq hzero (le_of_eq hre.count.symm) hre.given hre.freed
      hfinalized, hre.released_congr h.toReleased with
    bounded := h.bounded.store hre.load hre.objects hre.attris hre.count
    listed := fun q => hre.listed (h.listed q)
    head := ?_
    empty := fun q hq => h.empty q ((hzero q).mp hq)
    owner := by rw [hre.made]; exact h.owner
    loose_nodup := h.loose_nodup
    loose_loaded := by rw [hre.attris]; exact h.loose_loaded
    loose_notMem := h.loose_notMem
    cover := by rw [hre.attris]; exact h.cover
    count := ?_
    dying_iff := ?_
    debt_loose := h.debt_loose
    hooks := by rw [hre.attris]; exact h.hooks }
  · intro q o' ho' hne
    by_cases hq : q = p
    · subst hq
      obtain rfl := Option.some.inj (hre.load_self.symm.trans ho')
      exact h.head q o hre.load (by omega)
    · rw [hre.load_of_ne hq] at ho'
      exact h.head q o' ho' hne
  · intro q
    have hcount := h.count q
    rw [hre.rc, hre.heldBut, hown]
    split_ifs with hq
    · rw [hq, hrcp] at hcount
      rw [hq]
      omega
    · omega
  · intro q
    rw [h.dying_iff]
    by_cases hq : q = p
    · rw [hq, hre.load_self, hre.load]
      constructor
      · rintro ⟨o', ho', hrc⟩
        obtain rfl := Option.some.inj ho'
        omega
      · rintro ⟨o', ho', hrc⟩
        obtain rfl := Option.some.inj ho'
        change n = 0 at hrc
        omega
    · rw [hre.load_of_ne hq]

omit h in
/-- The last reference to an object is gone: it is finalized, and its attributes are loose. -/
theorem last (h : Account s (gain own p) debt dying loose recs) (hre : Recounted s s' p o 0)
    (hone : o.rc = 1) (hfinalized : s'.ledger.finalized =
      s.ledger.finalized ++ (o.free.map fun _ => p).toList) :
    Account s' own debt (p :: dying) (recs p ++ loose) (Function.update recs p []) := by
  have hrcp : s.rc p = 1 := (State.rc_eq hre.load).trans hone
  have hgiven := h.given_of_load p o hre.load
  have hnotMem : p ∉ s.ledger.finalized := fun hmem => by
    have hzero := ((h.mem_finalized p).mp hmem).2
    omega
  have hmem : ∀ q a, a ∈ Function.update recs p [] q ↔ q ≠ p ∧ a ∈ recs q := by
    intro q a
    by_cases hq : q = p
    · simp [hq]
    · simp [hq]
  refine { hre.released_congr h.toReleased with
    bounded := h.bounded.store hre.load hre.objects hre.attris hre.count
    listed := ?_
    head := ?_
    empty := ?_
    owner := fun q a ha => by rw [hre.made]; exact h.owner q a ((hmem q a).mp ha).2
    loose_nodup := ?_
    loose_loaded := ?_
    loose_notMem := ?_
    cover := ?_
    given_nodup := by rw [hre.given]; exact h.given_nodup
    given_lt := by rw [hre.given, hre.count]; exact h.given_lt
    given_of_load := ?_
    freed_nodup := by rw [hre.freed]; exact h.freed_nodup
    mem_freed := fun q => by
      rw [hre.freed, hre.given, h.mem_freed, ← Option.map_eq_none_iff (f := Alloc.free),
        ← hre.free_eq, Option.map_eq_none_iff]
    finalized_nodup := ?_
    mem_finalized := ?_
    count := ?_
    dying_iff := ?_
    debt_loose := fun a ha => List.mem_append_right _ (h.debt_loose a ha)
    hooks := by rw [hre.attris]; exact h.hooks }
  · intro q
    by_cases hq : q = p
    · rw [hq, Function.update_self]
      exact ⟨List.nodup_nil, by simp, trivial⟩
    · rw [Function.update_of_ne hq]
      exact hre.listed (h.listed q)
  · intro q o' ho' hne
    by_cases hq : q = p
    · subst hq
      obtain rfl := Option.some.inj (hre.load_self.symm.trans ho')
      exact absurd rfl hne
    · rw [hre.load_of_ne hq] at ho'
      rw [Function.update_of_ne hq]
      exact h.head q o' ho' hne
  · intro q hzero
    by_cases hq : q = p
    · rw [hq, Function.update_self]
    · rw [hre.rc, if_neg hq] at hzero
      rw [Function.update_of_ne hq]
      exact h.empty q hzero
  · refine List.nodup_append.mpr ⟨(h.listed p).nodup, h.loose_nodup, ?_⟩
    rintro a ha b hb rfl
    exact h.loose_notMem a hb p ha
  · intro a ha
    rw [hre.attris]
    exact (List.mem_append.mp ha).elim ((h.listed p).loaded a) (h.loose_loaded a)
  · intro a ha q hin
    obtain ⟨hq, hin⟩ := (hmem q a).mp hin
    rcases List.mem_append.mp ha with ha | ha
    · exact hq (h.owner_unique hin ha)
    · exact h.loose_notMem a ha q hin
  · intro a r hr
    rw [hre.attris] at hr
    rcases h.cover a r hr with ⟨q, hq⟩ | ha
    · by_cases hqp : q = p
      · exact .inr (List.mem_append_left _ (hqp ▸ hq))
      · exact .inl ⟨q, (hmem q a).mpr ⟨hqp, hq⟩⟩
    · exact .inr (List.mem_append_right _ ha)
  · intro q o' ho'
    rw [hre.given]
    by_cases hq : q = p
    · subst hq
      obtain rfl := Option.some.inj (hre.load_self.symm.trans ho')
      exact hgiven
    · rw [hre.load_of_ne hq] at ho'
      exact h.given_of_load q o' ho'
  · rw [hfinalized]
    refine List.nodup_append.mpr ⟨h.finalized_nodup, by cases o.free <;> simp, ?_⟩
    rintro a ha b hb rfl
    cases hfree : o.free with
    | none => simp [hfree] at hb
    | some f =>
        obtain rfl : a = p := by simpa [hfree] using hb
        exact hnotMem ha
  · intro q
    rw [hfinalized, hre.given, List.mem_append, h.mem_finalized, hre.rc]
    by_cases hq : q = p
    · subst hq
      rw [if_pos rfl]
      cases hfree : o.free with
      | none =>
          have hunique : ∀ f, (q, some f) ∉ s.ledger.given := fun f hf => by
            have heq := h.free_unique hf hgiven
            rw [hfree] at heq
            cases heq
          simp [hunique]
      | some f =>
          rw [hfree] at hgiven
          simpa using ⟨f, hgiven⟩
    · rw [if_neg hq]
      cases o.free <;> simp [hq]
  · intro q
    have hcount := h.count q
    rw [hre.rc, hre.heldBut]
    by_cases hq : q = p
    · subst hq
      rw [if_pos rfl]
      simp only [gain, if_pos] at hcount
      omega
    · rw [if_neg hq]
      simp only [gain, if_neg hq] at hcount
      exact hcount
  · intro q
    by_cases hq : q = p
    · subst hq
      exact ⟨fun _ => ⟨_, hre.load_self, rfl⟩, fun _ => List.mem_cons_self⟩
    · rw [hre.load_of_ne hq, ← h.dying_iff, List.mem_cons]
      simp [hq]

omit h in
/-- The block of a dying object is freed. -/
theorem bury (h : Account s own debt (p :: dying) loose recs) (hp : p ∉ dying)
    (hobjects : s'.objects = s.objects.free p) (hattris : s'.attris = s.attris)
    (hcount : s'.count = s.count)
    (hledger : s'.ledger = { s.ledger with freed := s.ledger.freed ++ [p] }) :
    Account s' own debt dying loose recs := by
  obtain ⟨o, ho, hzero⟩ := (h.dying_iff p).mp List.mem_cons_self
  have hload : ∀ q, s'.objects.load q = if q = p then none else s.objects.load q := by
    intro q
    rw [hobjects, Heap.load_free]
  have hof : ∀ q o', s'.objects.load q = some o' → q ≠ p ∧ s.objects.load q = some o' := by
    intro q o' ho'
    rw [hload] at ho'
    split_ifs at ho' with hq
    exact ⟨hq, ho'⟩
  have hrc : ∀ q, s'.rc q = s.rc q := by
    intro q
    by_cases hq : q = p
    · rw [hq, State.rc_eq ho, hzero, State.rc, hload, if_pos rfl, Option.elim_none]
    · rw [State.rc, hload, if_neg hq, State.rc]
  refine { h.toReleased.congr (fun a => by rw [hattris]) (le_of_eq hcount.symm) (by rw [hledger])
      (by rw [hledger]) with
    bounded := ⟨fun q o' ho' => hcount ▸ h.bounded.objects q o' (hof q o' ho').2, by
      rw [hattris, hcount]; exact h.bounded.attris⟩
    listed := fun q => (h.listed q).congr fun a _ => by rw [hattris]
    head := fun q o' ho' => h.head q o' (hof q o' ho').2
    empty := fun q hq => h.empty q (by rw [← hrc, hq])
    owner := by rw [hledger]; exact h.owner
    loose_nodup := h.loose_nodup
    loose_loaded := by rw [hattris]; exact h.loose_loaded
    loose_notMem := h.loose_notMem
    cover := by rw [hattris]; exact h.cover
    given_nodup := by rw [hledger]; exact h.given_nodup
    given_lt := by rw [hledger, hcount]; exact h.given_lt
    given_of_load := fun q o' ho' => by
      rw [hledger]; exact h.given_of_load q o' (hof q o' ho').2
    freed_nodup := ?_
    mem_freed := ?_
    finalized_nodup := by rw [hledger]; exact h.finalized_nodup
    mem_finalized := fun q => by rw [hledger, hrc]; exact h.mem_finalized q
    count := fun q => by rw [hrc, State.heldBut, hattris]; exact h.count q
    dying_iff := ?_
    debt_loose := h.debt_loose
    hooks := by rw [hattris]; exact h.hooks }
  · rw [hledger]
    refine List.nodup_append.mpr ⟨h.freed_nodup, List.nodup_singleton p, ?_⟩
    rintro q hq _ hq' rfl
    obtain rfl := List.mem_singleton.mp hq'
    rw [h.mem_freed, ho] at hq
    cases hq.2
  · intro q
    rw [hledger, List.mem_append, h.mem_freed, hload, List.mem_singleton]
    by_cases hq : q = p
    · rw [hq, if_pos rfl]
      simpa using ⟨o.free, h.given_of_load p o ho⟩
    · simp [hq]
  · intro q
    by_cases hq : q = p
    · rw [hq, hload, if_pos rfl]
      simp [hp]
    · rw [hload, if_neg hq, ← h.dying_iff, List.mem_cons]
      simp [hq]

/-! ## Giving up the reference of an attribute -/

omit h in
/-- A loose attribute gives its reference to the client that releases it. -/
theorem mark (h : Account s own debt dying loose recs) (hr : s.attris.load a = some r)
    (hloose : a ∈ loose) (ha : a ∉ debt) (hv : r.value = some v) :
    Account s (gain own v) (a :: debt) dying loose recs := by
  refine { h with
    count := fun q => ?_
    debt_loose := List.forall_mem_cons.mpr ⟨hloose, h.debt_loose⟩ }
  have hcount := h.count q
  have hcons := State.heldBut_cons hr ha q
  rw [hv] at hcons
  simp only [Option.some.injEq] at hcons
  rw [gain]
  by_cases hq : q = v
  · rw [if_pos hq]
    rw [if_pos hq.symm] at hcons
    omega
  · rw [if_neg hq]
    rw [if_neg (Ne.symm hq)] at hcons
    omega

omit h in
/-- An attribute that has given up its reference is released. -/
theorem drop (h : Account s own (a :: debt) dying (a :: loose) recs) (ha : a ∉ debt)
    (hattris : s'.attris = s.attris.free a) (hobjects : s'.objects = s.objects)
    (hcount : s'.count = s.count)
    (hledger : s'.ledger = { s.ledger with released := s.ledger.released ++ [a] }) :
    Account s' own debt dying loose recs := by
  have hloose := List.nodup_cons.mp h.loose_nodup
  have hload : ∀ b, s'.attris.load b = if b = a then none else s.attris.load b := by
    intro b
    rw [hattris, Heap.load_free]
  have hne : ∀ q, ∀ b ∈ recs q, b ≠ a := by
    rintro q b hb rfl
    exact h.loose_notMem b List.mem_cons_self q hb
  have hof : ∀ b r, s'.attris.load b = some r → b ≠ a ∧ s.attris.load b = some r := by
    intro b r hr
    rw [hload] at hr
    split_ifs at hr with hb
    exact ⟨hb, hr⟩
  have hrc : ∀ q, s'.rc q = s.rc q := fun q => by rw [State.rc, hobjects, State.rc]
  obtain ⟨r, hr⟩ := h.loose_loaded a List.mem_cons_self
  refine { h.toBuried.congr (fun q => by rw [hobjects]) (fun q => by rw [hrc])
      (le_of_eq hcount.symm) (by rw [hledger]) (by rw [hledger]) (by rw [hledger]) with
    bounded := ⟨by rw [hobjects, hcount]; exact h.bounded.objects, fun b r hr =>
      hcount ▸ h.bounded.attris b r (hof b r hr).2⟩
    listed := fun q => (h.listed q).congr fun b hb => by rw [hload, if_neg (hne q b hb)]
    head := by rw [hobjects]; exact h.head
    empty := fun q hq => h.empty q (by rw [← hrc, hq])
    owner := by rw [hledger]; exact h.owner
    loose_nodup := hloose.2
    loose_loaded := ?_
    loose_notMem := fun b hb => h.loose_notMem b (List.mem_cons_of_mem a hb)
    cover := ?_
    made_nodup := by rw [hledger]; exact h.made_nodup
    made_lt := by rw [hledger, hcount]; exact h.made_lt
    made_of_load := fun b r hr => by rw [hledger]; exact h.made_of_load b r (hof b r hr).2
    released_nodup := ?_
    mem_released := ?_
    count := ?_
    dying_iff := by rw [hobjects]; exact h.dying_iff
    debt_loose := ?_
    hooks := fun b r hr => h.hooks b r (hof b r hr).2 }
  · intro b hb
    rw [hload, if_neg fun heq : b = a => hloose.1 (heq ▸ hb)]
    exact h.loose_loaded b (List.mem_cons_of_mem a hb)
  · intro b r hr
    obtain ⟨hb, hr⟩ := hof b r hr
    exact (h.cover b r hr).imp_right fun hmem => (List.mem_cons.mp hmem).resolve_left hb
  · rw [hledger]
    refine List.nodup_append.mpr ⟨h.released_nodup, List.nodup_singleton a, ?_⟩
    rintro b hb _ hb' rfl
    obtain rfl := List.mem_singleton.mp hb'
    rw [h.mem_released, hr] at hb
    cases hb.2
  · intro b
    rw [hledger, List.mem_append, h.mem_released, hload, List.mem_singleton]
    by_cases hb : b = a
    · rw [hb, if_pos rfl]
      simpa using h.made_of_load a r hr
    · simp [hb]
  · intro q
    have hheld : s'.heldBut debt q = s.heldBut (a :: debt) q := by
      refine Heap.countP_eq_of_load fun b => ?_
      rw [hload]
      by_cases hb : b = a
      · subst hb
        cases s.attris.load b <;> simp
      · rw [if_neg hb]
        simp [hb]
    rw [hrc, hheld]
    exact h.count q
  · intro b hb
    have hne : b ≠ a := by
      rintro rfl
      exact ha hb
    exact (List.mem_cons.mp (h.debt_loose b (List.mem_cons_of_mem a hb))).resolve_left hne

/-! ## New objects and attributes -/

/-- `allocd` gives the client a reference to a new object. -/
theorem allocd (r f : Option F) :
    Account (Objects.allocd s r f true).1 (gain own s.count) debt dying loose recs := by
  have hnone : s.objects.load s.count = none := by
    cases ho : s.objects.load s.count with
    | none => rfl
    | some o => exact absurd (h.bounded.objects _ o ho) (lt_irrefl _)
  have hload : ∀ q, (Objects.allocd s r f true).1.objects.load q =
      if q = s.count then some ⟨1, r, f, none⟩ else s.objects.load q := fun q => Heap.load_store
  have hrc : ∀ q, (Objects.allocd s r f true).1.rc q = if q = s.count then 1 else s.rc q :=
    fun q => rc_store ⟨1, r, f, none⟩ rfl q
  have hzero : s.rc s.count = 0 := by rw [State.rc, hnone, Option.elim_none]
  have hnotMem : ∀ f, (s.count, f) ∉ s.ledger.given := fun f hf =>
    lt_irrefl _ (h.given_lt _ hf)
  have hreleased : Released (Objects.allocd s r f true).1 :=
    h.toReleased.congr (fun a => Iff.rfl) (Nat.le_succ _) rfl rfl
  refine { hreleased with
    bounded := ⟨fun q o ho => ?_, fun a r hr => Nat.lt_succ_of_lt (h.bounded.attris a r hr)⟩
    listed := fun q => (h.listed q).congr fun a _ => rfl
    head := ?_
    empty := ?_
    owner := h.owner
    loose_nodup := h.loose_nodup
    loose_loaded := h.loose_loaded
    loose_notMem := h.loose_notMem
    cover := h.cover
    given_nodup := ?_
    given_lt := ?_
    given_of_load := ?_
    freed_nodup := h.freed_nodup
    mem_freed := ?_
    finalized_nodup := h.finalized_nodup
    mem_finalized := ?_
    count := ?_
    dying_iff := ?_
    debt_loose := h.debt_loose
    hooks := h.hooks }
  · change q < s.count + 1
    rw [hload] at ho
    split_ifs at ho with hq
    · omega
    · exact Nat.lt_succ_of_lt (h.bounded.objects q o ho)
  · intro q o ho hne
    rw [hload] at ho
    split_ifs at ho with hq
    · obtain rfl := Option.some.inj ho
      rw [hq, h.empty _ hzero]
      rfl
    · exact h.head q o ho hne
  · intro q hq
    rw [hrc] at hq
    split_ifs at hq with hqc
    · omega
    · exact h.empty q hq
  · change ((s.ledger.given ++ [(s.count, f)]).map Prod.fst).Nodup
    rw [List.map_append]
    refine List.nodup_append.mpr ⟨h.given_nodup, List.nodup_singleton _, ?_⟩
    rintro q hq _ hq' rfl
    obtain rfl : q = s.count := List.mem_singleton.mp hq'
    obtain ⟨x, hx, hxq⟩ := List.mem_map.mp hq
    exact lt_irrefl _ (hxq ▸ h.given_lt x hx)
  · refine List.forall_mem_append.mpr ⟨fun x hx => Nat.lt_succ_of_lt (h.given_lt x hx), ?_⟩
    exact List.forall_mem_singleton.mpr (Nat.lt_succ_self _)
  · intro q o ho
    rw [hload] at ho
    refine List.mem_append.mpr ?_
    split_ifs at ho with hq
    · obtain rfl := Option.some.inj ho
      exact .inr (List.mem_singleton.mpr (Prod.ext hq rfl))
    · exact .inl (h.given_of_load q o ho)
  · intro q
    change q ∈ s.ledger.freed ↔ (∃ f', (q, f') ∈ s.ledger.given ++ [(s.count, f)]) ∧ _
    rw [h.mem_freed, hload]
    by_cases hq : q = s.count
    · simp [hq, hnotMem]
    · simp [hq]
  · intro q
    change q ∈ s.ledger.finalized ↔ (∃ f', (q, some f') ∈ s.ledger.given ++ [(s.count, f)]) ∧ _
    rw [h.mem_finalized, hrc]
    by_cases hq : q = s.count
    · simp [hq, hnotMem]
    · simp [hq]
  · intro q
    have hcount := h.count q
    rw [hrc, gain]
    change _ = _ + (s.heldBut debt q : ℤ)
    split_ifs with hq
    · rw [hq, hzero] at hcount
      rw [hq]
      push_cast
      omega
    · simpa using hcount
  · intro q
    rw [h.dying_iff, hload]
    split_ifs with hq
    · simp [hq, hnone]
    · rfl

omit h in
/-- A client gives its reference to a new attribute. -/
theorem make (h : Account s (gain own v) debt dying loose recs) (tca : ℕ) {e : Entry R F}
    (hv : e.value = some v) (href : e.ref = some .ref) (hfree : e.free = some .free) :
    Account (s.make tca e) own debt dying (s.count :: loose) recs := by
  have hnone := h.bounded.load_count
  have hload : ∀ a, (s.make tca e).attris.load a =
      if a = s.count then some ⟨e.name, e.value, e.ref, e.free, none⟩ else s.attris.load a :=
    fun a => Heap.load_store
  have hfresh : ∀ b r, s.attris.load b = some r → b ≠ s.count := fun b r hr =>
    ne_of_lt (h.bounded.attris b r hr)
  have hnotMem : ∀ q, (q, s.count) ∉ s.ledger.made := fun q hq =>
    lt_irrefl _ (h.made_lt _ hq)
  have hburied : Buried (s.make tca e) :=
    h.toBuried.congr (fun q => rfl) (fun q => Iff.rfl) (Nat.le_succ _) rfl rfl rfl
  refine { hburied with
    bounded := h.bounded.make tca e
    listed := fun q => (h.listed q).make h.bounded tca e
    head := h.head
    empty := h.empty
    owner := fun q a ha => List.mem_append_left _ (h.owner q a ha)
    loose_nodup := ?_
    loose_loaded := ?_
    loose_notMem := ?_
    cover := ?_
    made_nodup := ?_
    made_lt := ?_
    made_of_load := ?_
    released_nodup := h.released_nodup
    mem_released := ?_
    count := ?_
    dying_iff := h.dying_iff
    debt_loose := fun a ha => List.mem_cons_of_mem _ (h.debt_loose a ha)
    hooks := ?_ }
  · refine List.nodup_cons.mpr ⟨fun hmem => ?_, h.loose_nodup⟩
    obtain ⟨r, hr⟩ := h.loose_loaded _ hmem
    exact hfresh _ r hr rfl
  · refine List.forall_mem_cons.mpr ⟨⟨_, by rw [hload, if_pos rfl]⟩, fun a ha => ?_⟩
    obtain ⟨r, hr⟩ := h.loose_loaded a ha
    exact ⟨r, by rw [hload, if_neg (hfresh a r hr), hr]⟩
  · refine List.forall_mem_cons.mpr ⟨fun q hq => ?_, h.loose_notMem⟩
    obtain ⟨r, hr⟩ := (h.listed q).loaded _ hq
    exact hfresh _ r hr rfl
  · intro a r hr
    rw [hload] at hr
    split_ifs at hr with ha
    · exact .inr (ha ▸ List.mem_cons_self)
    · exact (h.cover a r hr).imp_right (List.mem_cons_of_mem _)
  · change ((s.ledger.made ++ [(tca, s.count)]).map Prod.snd).Nodup
    rw [List.map_append]
    refine List.nodup_append.mpr ⟨h.made_nodup, List.nodup_singleton _, ?_⟩
    rintro a ha _ ha' rfl
    obtain rfl : a = s.count := List.mem_singleton.mp ha'
    obtain ⟨x, hx, hxa⟩ := List.mem_map.mp ha
    exact lt_irrefl _ (hxa ▸ h.made_lt x hx)
  · refine List.forall_mem_append.mpr ⟨fun x hx => Nat.lt_succ_of_lt (h.made_lt x hx), ?_⟩
    exact List.forall_mem_singleton.mpr (Nat.lt_succ_self _)
  · intro a r hr
    rw [hload] at hr
    split_ifs at hr with ha
    · exact ⟨tca, List.mem_append_right _ (by simp [ha])⟩
    · exact (h.made_of_load a r hr).imp fun q hq => List.mem_append_left _ hq
  · intro a
    change a ∈ s.ledger.released ↔ (∃ q, (q, a) ∈ s.ledger.made ++ [(tca, s.count)]) ∧ _
    rw [h.mem_released, hload]
    by_cases ha : a = s.count
    · simp [ha, hnotMem]
    · simp [ha]
  · intro q
    have hcount := h.count q
    have hdebt : s.count ∉ debt := h.notMem_debt fun hmem => by
      obtain ⟨r, hr⟩ := h.loose_loaded _ hmem
      exact hfresh _ r hr rfl
    have hheld : (s.make tca e).heldBut debt q = s.heldBut debt q + if q = v then 1 else 0 := by
      have hnew := Heap.countP_store_new (v := (⟨e.name, e.value, e.ref, e.free, none⟩ : Attri R F))
        (p := fun a (r : Attri R F) => decide (a ∉ debt ∧ r.value = some q)) hnone
      rw [State.heldBut, State.heldBut]
      refine hnew.trans ?_
      simp [hdebt, hv, eq_comm]
    change s.rc q = _
    rw [hheld, hcount, gain]
    push_cast
    omega
  · intro a r hr
    rw [hload] at hr
    split_ifs at hr with ha
    · obtain rfl := Option.some.inj hr
      exact ⟨href, hfree, v, hv⟩
    · exact h.hooks a r hr

/-! ## Relinking -/

/-- An object has another list of attributes, some of which were loose. -/
theorem relink {tca : ℕ} {l loose' : List ℕ} (hrelinked : Relinked s s' tca l)
    (hrc : s.rc tca ≠ 0) (hperm : (l ++ loose').Perm (recs tca ++ loose))
    (howner : ∀ a ∈ l, (tca, a) ∈ s.ledger.made) (hdebt : ∀ a ∈ debt, a ∈ loose') :
    Account s' own debt dying loose' (Function.update recs tca l) := by
  obtain ⟨o, ho, ho'⟩ := hrelinked.object
  have hnodup : (l ++ loose').Nodup := by
    refine hperm.nodup_iff.mpr (List.nodup_append.mpr ⟨(h.listed tca).nodup, h.loose_nodup, ?_⟩)
    rintro a ha b hb rfl
    exact h.loose_notMem a hb tca ha
  have hmem : ∀ a, (a ∈ l ∨ a ∈ loose') ↔ a ∈ recs tca ∨ a ∈ loose := by
    intro a
    rw [← List.mem_append, hperm.mem_iff, List.mem_append]
  have hloaded : ∀ a, a ∈ l ∨ a ∈ loose' → ∃ r, s.attris.load a = some r := fun a ha =>
    ((hmem a).mp ha).elim ((h.listed tca).loaded a) (h.loose_loaded a)
  have hfree : ∀ q, (s'.objects.load q).map Alloc.free = (s.objects.load q).map Alloc.free := by
    intro q
    by_cases hq : q = tca
    · rw [hq, ho', ho]
      rfl
    · rw [hrelinked.objects q hq]
  have hrc' : ∀ q, s'.rc q = s.rc q := by
    intro q
    by_cases hq : q = tca
    · rw [hq, State.rc_eq ho', State.rc_eq ho]
    · rw [State.rc, hrelinked.objects q hq, State.rc]
  have hentry : ∀ a r, s'.attris.load a = some r →
      ∃ r', s.attris.load a = some r' ∧ r'.entry = r.entry := by
    intro a r hr
    have heq := hrelinked.entry a
    rw [State.entry_eq hr] at heq
    exact Option.map_eq_some_iff.mp heq.symm
  have hupdate : ∀ q, q ≠ tca → Function.update recs tca l q = recs q := fun q hq =>
    Function.update_of_ne hq _ _
  have hother : ∀ q, q ≠ tca → ∀ a ∈ recs q, a ∉ l ∧ a ∉ loose' := by
    intro q hq a ha
    have hnot : ¬ (a ∈ recs tca ∨ a ∈ loose) := by
      rintro (hin | hin)
      · exact hq (h.owner_unique ha hin)
      · exact h.loose_notMem a hin q ha
    rwa [← hmem, not_or] at hnot
  refine { h.toBuried.congr hfree (fun q => by rw [hrc']) (le_of_eq hrelinked.count.symm)
      (by rw [hrelinked.ledger]) (by rw [hrelinked.ledger]) (by rw [hrelinked.ledger]),
    h.toReleased.congr hrelinked.loaded_iff (le_of_eq hrelinked.count.symm)
      (by rw [hrelinked.ledger]) (by rw [hrelinked.ledger]) with
    bounded := hrelinked.bounded h.bounded
    listed := ?_
    head := ?_
    empty := ?_
    owner := ?_
    loose_nodup := (List.nodup_append.mp hnodup).2.1
    loose_loaded := fun a ha => (hrelinked.loaded_iff a).mpr (hloaded a (.inr ha))
    loose_notMem := ?_
    cover := ?_
    count := ?_
    dying_iff := ?_
    debt_loose := hdebt
    hooks := ?_ }
  · intro q
    by_cases hq : q = tca
    · rw [hq, Function.update_self]
      exact hrelinked.listed (List.nodup_append.mp hnodup).1 fun a ha => hloaded a (.inl ha)
    · rw [hupdate q hq]
      exact (h.listed q).congr fun a ha => hrelinked.outside a (hother q hq a ha).1
  · intro q o₁ ho₁ hne
    by_cases hq : q = tca
    · subst hq
      obtain rfl := Option.some.inj (ho'.symm.trans ho₁)
      rw [Function.update_self]
    · rw [hrelinked.objects q hq] at ho₁
      rw [hupdate q hq]
      exact h.head q o₁ ho₁ hne
  · intro q hzero
    rw [hrc'] at hzero
    rw [hupdate q fun hq => hrc (hq ▸ hzero)]
    exact h.empty q hzero
  · intro q a ha
    rw [hrelinked.ledger]
    by_cases hq : q = tca
    · subst hq
      rw [Function.update_self] at ha
      exact howner a ha
    · rw [hupdate q hq] at ha
      exact h.owner q a ha
  · intro a ha q hin
    by_cases hq : q = tca
    · subst hq
      rw [Function.update_self] at hin
      exact (List.nodup_append.mp hnodup).2.2 a hin a ha rfl
    · rw [hupdate q hq] at hin
      exact (hother q hq a hin).2 ha
  · intro a r hr
    obtain ⟨r', hr', -⟩ := hentry a r hr
    have hhere : a ∈ recs tca ∨ a ∈ loose →
        (∃ q, a ∈ Function.update recs tca l q) ∨ a ∈ loose' := by
      intro ha
      refine ((hmem a).mpr ha).imp_left fun hin => ⟨tca, ?_⟩
      rwa [Function.update_self]
    rcases h.cover a r' hr' with ⟨q, hq⟩ | ha
    · by_cases hqt : q = tca
      · exact hhere (.inl (hqt ▸ hq))
      · exact .inl ⟨q, by rwa [hupdate q hqt]⟩
    · exact hhere (.inr ha)
  · intro q
    have hheld : s'.heldBut debt q = s.heldBut debt q := by
      refine Heap.countP_eq_of_load fun a => ?_
      have heq := hrelinked.entry a
      rw [State.entry, State.entry] at heq
      cases hr : s.attris.load a with
      | none =>
          rw [hr, Option.map_none, Option.map_eq_none_iff] at heq
          rw [heq]
      | some r =>
          rw [hr, Option.map_some] at heq
          obtain ⟨r', hr', heq⟩ := Option.map_eq_some_iff.mp heq
          have hvalue : r'.value = r.value := congrArg Entry.value heq
          rw [hr', Option.elim_some, Option.elim_some, hvalue]
    rw [hrc', hheld]
    exact h.count q
  · intro q
    rw [h.dying_iff]
    by_cases hq : q = tca
    · rw [hq, ho, ho']
      simp
    · rw [hrelinked.objects q hq]
  · intro a r hr
    obtain ⟨r', hr', heq⟩ := hentry a r hr
    obtain ⟨href, hfree, v, hv⟩ := h.hooks a r' hr'
    have hentries : r'.ref = r.ref ∧ r'.free = r.free ∧ r'.value = r.value :=
      ⟨congrArg Entry.ref heq, congrArg Entry.free heq, congrArg Entry.value heq⟩
    exact ⟨hentries.1 ▸ href, hentries.2.1 ▸ hfree, v, hentries.2.2 ▸ hv⟩

end Account

end ThreeW3.Objects
