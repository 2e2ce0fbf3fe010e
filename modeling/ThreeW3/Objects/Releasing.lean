/-
# Releasing references

`FREE` recurs through the attributes of the objects that it releases. Each level has one
object with a count less, so it ends, whatever the graph of references is.
-/

import ThreeW3.Objects.Counting

namespace ThreeW3.Objects

open ThreeW3.Lib

variable {R F W : Type} {s s' t : State R F W} {own : ℕ → ℕ} {debt dying loose : List ℕ}
  {recs : ℕ → List ℕ} {p q a v : ℕ} {o : Alloc F} {r : Attri R F}

/-! ## Releasing -/

/-- What a release leaves alone. -/
structure Spared (s s' : State R F W) (loose : List ℕ) : Prop where
  alive : s'.alive ≤ s.alive
  attris : ∀ a r, s'.attris.load a = some r → s.attris.load a = some r
  loose : ∀ a ∈ loose, s'.attris.load a = s.attris.load a

theorem Spared.trans (h : Spared s s' loose) (h' : Spared s' t loose) : Spared s t loose :=
  ⟨le_trans h'.alive h.alive, fun a r hr => h.attris a r (h'.attris a r hr), fun a ha =>
    (h'.loose a ha).trans (h.loose a ha)⟩

/-- The release of a reference works as long as this many objects have a count. -/
def Frees (free : State R F W → Ptr → Except Fault (State R F W)) (depth : ℕ) : Prop :=
  ∀ {s own debt dying loose recs v}, Account s (gain own v) debt dying loose recs →
    s.alive ≤ depth → ∃ s' recs', free s (some v) = .ok s' ∧
      Account s' own debt dying loose recs' ∧ Spared s s' loose

section Hooks

variable {H : Hooks R F W} {free : State R F W → Ptr → Except Fault (State R F W)} {depth : ℕ}

/-- `attr_free` of an attribute that is in no list. -/
theorem Frees.attrFree (hfree : Frees free depth)
    (h : Account s own debt dying (a :: loose) recs) (ha : a ∉ debt) (halive : s.alive ≤ depth) :
    ∃ s' recs', attrFree H free s a = .ok s' ∧ Account s' own debt dying loose recs' ∧
      Spared s s' loose := by
  obtain ⟨r, hr⟩ := h.loose_loaded a List.mem_cons_self
  obtain ⟨-, hhook, v, hv⟩ := h.hooks a r hr
  obtain ⟨s₁, recs₁, hcall, h₁, hspared⟩ := hfree (h.mark hr List.mem_cons_self ha hv) halive
  have hr₁ : s₁.attris.load a = some r := (hspared.loose a List.mem_cons_self).trans hr
  have hnotMem := (List.nodup_cons.mp h.loose_nodup).1
  refine ⟨{ s₁ with
    attris := s₁.attris.free a
    ledger := { s₁.ledger with released := s₁.ledger.released ++ [a] } }, recs₁, ?_,
    h₁.drop ha rfl rfl rfl rfl, hspared.alive, fun b r' hr' => ?_, fun b hb => ?_⟩
  · rw [Objects.attrFree, State.attri_eq hr, ok_bind, hhook, hv]
    simp only [hcall, ok_bind, State.attri_eq hr₁]
  · change (s₁.attris.free a).load b = some r' at hr'
    rw [Heap.load_free] at hr'
    split_ifs at hr'
    exact hspared.attris b r' hr'
  · have hne : b ≠ a := by
      rintro rfl
      exact hnotMem hb
    change (s₁.attris.free a).load b = _
    rw [Heap.load_free, if_neg hne]
    exact hspared.loose b (List.mem_cons_of_mem a hb)

/-- The loop of `FREE` -/
theorem Frees.freeAttrs (hfree : Frees free depth) {rs : List ℕ}
    (h : Account s own debt dying (rs ++ loose) recs) (hdebt : ∀ a ∈ rs, a ∉ debt)
    (hchain : Chain s.next rs none) {fuel : ℕ} (hfuel : rs.length ≤ fuel)
    (halive : s.alive ≤ depth) :
    ∃ s' recs', freeAttrs H free fuel s rs.head? = .ok s' ∧
      Account s' own debt dying loose recs' ∧ Spared s s' loose := by
  induction rs generalizing s recs fuel with
  | nil =>
      refine ⟨s, recs, ?_, h, le_rfl, fun a r hr => hr, fun a ha => rfl⟩
      cases fuel <;> rfl
  | cons a rs ih =>
      obtain ⟨fuel, rfl⟩ : ∃ k, fuel = k + 1 := ⟨fuel - 1, by simp at hfuel; omega⟩
      obtain ⟨r, hr⟩ := h.loose_loaded a List.mem_cons_self
      have hnext : r.next = rs.head? := by
        rw [← State.next_eq hr]
        simpa using hchain.1
      obtain ⟨s₁, recs₁, hcall, h₁, hspared⟩ :=
        hfree.attrFree (H := H) h (hdebt a List.mem_cons_self) halive
      have hchain₁ : Chain s₁.next rs none := hchain.2.congr fun b hb =>
        Heap.field_eq_of_load_eq (hspared.loose b (List.mem_append_left loose hb))
      obtain ⟨s', recs', hloop, h', hspared'⟩ :=
        ih h₁ (fun b hb => hdebt b (List.mem_cons_of_mem a hb)) hchain₁ (by simpa using hfuel)
          (le_trans hspared.alive halive)
      refine ⟨s', recs', ?_, h', Spared.trans ⟨hspared.alive, hspared.attris, fun b hb =>
        hspared.loose b (List.mem_append_right rs hb)⟩ hspared'⟩
      rw [List.head?_cons, Objects.freeAttrs, State.attri_eq hr, ok_bind, hcall, ok_bind, hnext,
        hloop]

/-- The objects with a count, when one of them gets another count. -/
theorem Recounted.alive_eq {n : ℤ} (hre : Recounted s s' p o n) (hpos : o.rc ≠ 0) :
    s'.alive + 1 = s.alive + if n ≠ 0 then 1 else 0 := by
  have hstore := Heap.countP_store (v := { o with rc := n })
    (p := fun _ (o : Alloc F) => decide (o.rc ≠ 0)) hre.load
  rw [State.alive, State.alive, hre.objects]
  simpa [hpos] using hstore

/-- `FREE` of a reference that a client owns. -/
theorem freeDepth_frees (depth : ℕ) : Frees (freeDepth H depth) depth := by
  induction depth with
  | zero =>
      intro s own debt dying loose recs v h halive
      obtain ⟨o, ho, hpos⟩ := h.exists_object (q := v) (by rw [gain_self]; omega)
      have hre : Recounted s { s with objects := s.objects.store v { o with rc := 0 } } v o 0 :=
        ⟨ho, rfl, rfl, rfl, rfl, rfl, rfl, rfl⟩
      have heq := hre.alive_eq (by omega)
      rw [if_neg (by simp)] at heq
      omega
  | succ depth ih =>
      intro s own debt dying loose recs v h halive
      obtain ⟨o, ho, hpos⟩ := h.exists_object (q := v) (by rw [gain_self]; omega)
      rw [freeDepth, State.object_eq ho, ok_bind]
      by_cases hzero : o.rc - 1 = 0
      · have hone : o.rc = 1 := by omega
        let s₁ : State R F W := { s with
          objects := s.objects.store v { o with rc := 0 }
          world := callHook H o.free v s.world
          ledger := { s.ledger with
            finalized := s.ledger.finalized ++ (o.free.map fun _ => v).toList } }
        have hre : Recounted s s₁ v o 0 := ⟨ho, rfl, rfl, rfl, rfl, rfl, rfl, rfl⟩
        have halive₁ : s₁.alive + 1 = s.alive := by
          simpa using hre.alive_eq (by omega)
        have hdying : v ∉ dying := fun hmem => by
          obtain ⟨o', ho', hrc⟩ := (h.dying_iff v).mp hmem
          obtain rfl := Option.some.inj (ho.symm.trans ho')
          omega
        have hfuel : (recs v).length ≤ s₁.count := (h.listed v).length_le h.bounded
        obtain ⟨s₂, recs₂, hloop, h₂, hspared⟩ :=
          ih.freeAttrs (H := H) (h.last hre hone rfl)
            (fun a ha => h.notMem_debt fun hl => h.loose_notMem a hl v ha)
            (h.listed v).chain hfuel (by omega)
        rw [← h.head v o ho (by omega)] at hloop
        obtain ⟨o₂, ho₂, hrc₂⟩ := (h₂.dying_iff v).mp List.mem_cons_self
        refine ⟨{ s₂ with
          objects := s₂.objects.free v
          ledger := { s₂.ledger with freed := s₂.ledger.freed ++ [v] } }, recs₂, ?_,
          h₂.bury hdying rfl rfl rfl rfl, ?_, hspared.attris, hspared.loose⟩
        · rw [hzero, if_neg (by simp)]
          change (freeAttrs H (freeDepth H depth) s₁.count s₁ o.attr >>= _) = _
          rw [hloop, ok_bind, State.object_eq ho₂, ok_bind]
        · change (s₂.objects.free v).countP _ ≤ _
          rw [Heap.countP_free_of_false ho₂ (by simp [hrc₂])]
          exact le_trans hspared.alive (by omega)
      · have hre : Recounted s
            { s with objects := s.objects.store v { o with rc := o.rc - 1 } } v o (o.rc - 1) :=
          ⟨ho, rfl, rfl, rfl, rfl, rfl, rfl, rfl⟩
        have halive' := hre.alive_eq (by omega)
        rw [if_pos hzero] at halive'
        rw [if_pos hzero]
        refine ⟨_, recs, rfl, h.recount hre rfl hpos (by omega) fun q => ?_, by omega,
          fun a r hr => hr, fun a ha => rfl⟩
        rw [gain]
        split_ifs <;> omega

/-- `FREE` -/
theorem FREE_spec (h : Account s (gain own v) debt dying loose recs) :
    ∃ s' recs', FREE H s (some v) = .ok s' ∧ Account s' own debt dying loose recs' ∧
      Spared s s' loose :=
  freeDepth_frees s.count h (Heap.countP_le h.bounded.objects)

theorem FREE_frees (depth : ℕ) : Frees (FREE H) depth := fun h _ => FREE_spec h

/-! ## Taking references -/

/-- `ref` of an object that someone refers to. -/
theorem ref_spec (h : Account s own debt dying loose recs)
    (hpos : 0 < own p + s.heldBut debt p) :
    ∃ s', ref H s (some p) = .ok s' ∧ Account s' (gain own p) debt dying loose recs ∧
      s'.attris = s.attris := by
  obtain ⟨o, ho, hrc⟩ := h.exists_object hpos
  let s' : State R F W := { s with
    objects := s.objects.store p { o with rc := o.rc + 1 }
    world := callHook H o.ref p s.world }
  have hre : Recounted s s' p o (o.rc + 1) := ⟨ho, rfl, rfl, rfl, rfl, rfl, rfl, rfl⟩
  refine ⟨s', by rw [ref, State.object_eq ho, ok_bind], ?_, rfl⟩
  refine h.recount hre rfl hrc (by omega) fun q => ?_
  rw [gain]
  split_ifs <;> omega

/-- The value of an attribute, as `attr_get` and `attr_getall` read it. -/
theorem attrValue_spec (h : Account s own debt dying loose recs) (hr : s.attris.load a = some r)
    (ha : a ∉ debt) :
    ∃ s' v, r.value = some v ∧ attrValue H s r = .ok (s', some v) ∧
      Account s' (gain own v) debt dying loose recs ∧ s'.attris = s.attris := by
  obtain ⟨href, -, v, hv⟩ := h.hooks a r hr
  obtain ⟨s', hcall, h', hattris⟩ := ref_spec (H := H) h
    (Nat.add_pos_right (own v) (State.heldBut_pos hr ha hv))
  refine ⟨s', v, hv, ?_, h', hattris⟩
  rw [attrValue, href, hv]
  simp only [hcall, ok_bind]

/-! ## Changing attributes -/

/-- `attr_free` at the end of `attr_set` and `attr_del`. -/
theorem Account.attrFree (h : Account s own [] [] [a] recs) :
    ∃ s' recs', attrFree H (FREE H) s a = .ok s' ∧ Account s' own [] [] [] recs' ∧
      Spared s s' [] :=
  Frees.attrFree (FREE_frees s.alive) h (by simp) le_rfl

end Hooks

end ThreeW3.Objects
