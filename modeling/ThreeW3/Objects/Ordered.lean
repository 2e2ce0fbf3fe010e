/-
# Attributes are a map in insertion order

`attr_set` and `attr_del` on one object against a map in insertion order, whose values are
given with their hooks. The hooks are any functions of other files. Those of a value are
called where it is read, and where it is replaced or deleted, and nowhere else.
-/

import ThreeW3.Lib.OrderedMap
import ThreeW3.Objects.Attributes

namespace ThreeW3.Objects

open ThreeW3.Lib

variable {R F W : Type} {s s' : State R F W} {name : Name} {tca : ℕ} {l before after : List ℕ}

/-! ## The map -/

/-- A value with its hooks. -/
structure Value (R F : Type) where
  value : Ptr
  ref : Option R
  free : Option F
  deriving DecidableEq, Repr

/-- The attribute that has this name and value. -/
def Value.entry (name : Name) (v : Value R F) : Entry R F :=
  ⟨some name, v.value, v.ref.map .other, v.free.map .other⟩

/-- A call of `attr_set` or `attr_del`. -/
abbrev Edit (R F : Type) := OrderedMap.Change Name (Value R F)

section Hooks

variable (H : Hooks R F W)

/-- The effect of a call, for which calloc(3) and strdup(3) succeed. -/
def perform (tca : ℕ) (s : State R F W) : Edit R F → Except Fault (State R F W)
  | .set name v => attrSet H s tca name v.value (v.ref.map .other) (v.free.map .other) ⟨true, true⟩
  | .del name => attrDel H s tca name

/-- Reading a value. -/
def Value.read (v : Value R F) (w : W) : Ptr × W :=
  v.ref.elim (v.value, w) fun r => H.get r v.value w

/-- Releasing a value. -/
def Value.release (v : Value R F) (w : W) : W := callHook H v.free v.value w

/-- Reading some values one after another. -/
def readAll : List (Name × Value R F) → W → List (Option Name × Ptr) × W
  | [], w => ([], w)
  | (name, v) :: rest, w =>
      let (p, w) := v.read H w
      let (slots, w) := readAll rest w
      ((some name, p) :: slots, w)

/-- The map and the state of the hooks after a call: a value that the call replaces or deletes
is released. -/
def edit (mw : OrderedMap Name (Value R F) × W) (c : Edit R F) : OrderedMap Name (Value R F) × W :=
  (mw.1.change c, (mw.1.lookup c.key).elim mw.2 fun v => v.release H mw.2)

/-- The object at `tca` has the attributes of this map, in order. -/
structure Holds (s : State R F W) (tca : ℕ) (m : OrderedMap Name (Value R F)) : Prop where
  bounded : Bounded s
  object : ∃ o, s.objects.load tca = some o ∧ o.attr = (s.attributes tca).head?
  listed : Listed s (s.attributes tca)
  entries : (s.attributes tca).map s.entry = m.entries.map fun e => some (e.2.entry e.1)

end Hooks

/-! ## Lists of addresses and of entries -/

section Lists

variable {E : List (Name × Value R F)} {a : ℕ}

/-- The address of an entry. -/
theorem exists_address (h : l.map s.entry = E.map fun e => some (e.2.entry e.1))
    {E₁ E₂ : List (Name × Value R F)} {e : Name × Value R F} (hE : E = E₁ ++ e :: E₂) :
    ∃ l₁ a l₂, l = l₁ ++ a :: l₂ ∧ s.entry a = some (e.2.entry e.1) ∧
      l₁.map s.entry = E₁.map (fun e => some (e.2.entry e.1)) ∧
      l₂.map s.entry = E₂.map fun e => some (e.2.entry e.1) := by
  rw [hE, List.map_append, List.map_cons] at h
  obtain ⟨l₁, l', rfl, h₁, h'⟩ := List.map_eq_append_iff.mp h
  obtain ⟨a, l₂, rfl, ha, h₂⟩ := List.map_eq_cons_iff.mp h'
  exact ⟨l₁, a, l₂, rfl, ha, h₁, h₂⟩

/-- The entry at an address. -/
theorem exists_entry (h : l.map s.entry = E.map fun e => some (e.2.entry e.1))
    (hl : l = before ++ a :: after) :
    ∃ E₁ e E₂, E = E₁ ++ e :: E₂ ∧ s.entry a = some (e.2.entry e.1) ∧
      before.map s.entry = E₁.map (fun e => some (e.2.entry e.1)) ∧
      after.map s.entry = E₂.map fun e => some (e.2.entry e.1) := by
  rw [hl, List.map_append, List.map_cons, eq_comm] at h
  obtain ⟨E₁, E', rfl, h₁, h'⟩ := List.map_eq_append_iff.mp h
  obtain ⟨e, E₂, rfl, ha, h₂⟩ := List.map_eq_cons_iff.mp h'
  exact ⟨E₁, e, E₂, rfl, ha.symm, h₁.symm, h₂.symm⟩

/-- All attributes have names. -/
theorem not_nameless (h : l.map s.entry = E.map fun e => some (e.2.entry e.1)) (ha : a ∈ l) :
    ¬ Nameless s a := by
  obtain ⟨before, after, hl⟩ := List.append_of_mem ha
  obtain ⟨E₁, e, E₂, -, hentry, -, -⟩ := exists_entry h hl
  rintro ⟨e', he', hname⟩
  obtain rfl : e.2.entry e.1 = e' := Option.some.inj (hentry.symm.trans he')
  cases hname

theorem named_iff {v : Value R F} {name' : Name} (hentry : s.entry a = some (v.entry name')) :
    Named s name a ↔ name' = name := by
  constructor
  · rintro ⟨e, he, hname⟩
    obtain rfl : v.entry name' = e := Option.some.inj (hentry.symm.trans he)
    exact Option.some.inj hname
  · rintro rfl
    exact ⟨_, hentry, rfl⟩

end Lists

/-! ## One call -/

section Calls

variable (H : Hooks R F W) {m m' : OrderedMap Name (Value R F)} {a : ℕ}

/-- The release of an attribute with hooks of other files. -/
theorem attrFree_other {v : Value R F} (hentry : s.entry a = some (v.entry name))
    (free : State R F W → Ptr → Except Fault (State R F W)) :
    ∃ s', attrFree H free s a = .ok s' ∧ s'.objects = s.objects ∧
      s'.attris = s.attris.free a ∧ s'.count = s.count ∧ s'.world = v.release H s.world := by
  obtain ⟨r, hr, hrv⟩ := Option.map_eq_some_iff.mp hentry
  have hvalue : r.value = v.value := congrArg Entry.value hrv
  have hfree : r.free = v.free.map .other := congrArg Entry.free hrv
  rw [attrFree, State.attri_eq hr, ok_bind, hfree, hvalue]
  cases hv : v.free with
  | none =>
      simp only [Option.map_none, ok_bind, State.attri_eq hr]
      exact ⟨_, rfl, rfl, rfl, rfl, by rw [Value.release, hv]; rfl⟩
  | some f =>
      simp only [Option.map_some, ok_bind, State.attri]
      rw [hr, Option.elim_some, ok_bind]
      exact ⟨_, rfl, rfl, rfl, rfl, by rw [Value.release, hv]; rfl⟩

theorem Holds.of_listed (hbounded : Bounded s) {o : Alloc F} (ho : s.objects.load tca = some o)
    (hhead : o.attr = l.head?) (hlisted : Listed s l)
    (hentries : l.map s.entry = m.entries.map fun e => some (e.2.entry e.1)) : Holds s tca m := by
  have hattributes := hlisted.attributes_eq hbounded ho hhead
  exact ⟨hbounded, ⟨o, ho, by rw [hattributes, hhead]⟩, by rwa [hattributes],
    by rw [hattributes, hentries]⟩

/-- The object after its list has been relinked. -/
theorem Holds.of_relinked {s₁ : State R F W} (hbounded : Bounded s₁) (h : Relinked s₁ s' tca l)
    (hnodup : l.Nodup) (hloaded : ∀ a ∈ l, ∃ r, s₁.attris.load a = some r)
    (hentries : l.map s₁.entry = m.entries.map fun e => some (e.2.entry e.1)) :
    Holds s' tca m := by
  obtain ⟨o, -, ho'⟩ := h.object
  refine .of_listed (h.bounded hbounded) ho' rfl (h.listed hnodup hloaded) ?_
  rw [← hentries]
  exact List.map_congr_left fun a _ => h.entry a

/-- The release of an attribute that is no longer in the list. -/
theorem Holds.attrFree (h : Holds s tca m) (ha : a ∉ s.attributes tca) {v : Value R F}
    (hentry : s.entry a = some (v.entry name)) :
    ∃ s', attrFree H (FREE H) s a = .ok s' ∧ Holds s' tca m ∧
      s'.world = v.release H s.world := by
  obtain ⟨s', hfree, hobjects, hattris, hcount, hworld⟩ := attrFree_other H hentry (FREE H)
  obtain ⟨o, ho, hhead⟩ := h.object
  have hload : ∀ b ∈ s.attributes tca, s'.attris.load b = s.attris.load b := by
    intro b hb
    have hne : b ≠ a := by
      rintro rfl
      exact ha hb
    rw [hattris, Heap.load_free, if_neg hne]
  refine ⟨s', hfree, .of_listed ⟨?_, ?_⟩ (o := o) (by rw [hobjects, ho]) hhead
    (h.listed.congr hload) ?_, hworld⟩
  · intro p o ho
    rw [hobjects] at ho
    rw [hcount]
    exact h.bounded.objects p o ho
  · intro b r hr
    rw [hattris, Heap.load_free] at hr
    split_ifs at hr
    rw [hcount]
    exact h.bounded.attris b r hr
  · rw [← h.entries]
    refine List.map_congr_left fun b hb => ?_
    rw [State.entry, State.entry, hload b hb]

/-- The object after its list has been relinked without an attribute that is then released. -/
theorem Holds.of_relinked_free {s₁ : State R F W} (hbounded : Bounded s₁)
    (h : Relinked s₁ s' tca l) (hnodup : l.Nodup)
    (hloaded : ∀ a ∈ l, ∃ r, s₁.attris.load a = some r)
    (hentries : l.map s₁.entry = m.entries.map fun e => some (e.2.entry e.1)) (ha : a ∉ l)
    {v : Value R F} (hentry : s₁.entry a = some (v.entry name)) :
    ∃ s'', Objects.attrFree H (FREE H) s' a = .ok s'' ∧ Holds s'' tca m ∧
      s''.world = v.release H s₁.world := by
  have hholds : Holds s' tca m := .of_relinked hbounded h hnodup hloaded hentries
  obtain ⟨o, -, ho'⟩ := h.object
  have hattributes : s'.attributes tca = l :=
    (h.listed hnodup hloaded).attributes_eq (h.bounded hbounded) ho' rfl
  have hentry' : s'.entry a = some (v.entry name) := by rw [h.entry, hentry]
  obtain ⟨s'', hfree, hholds', hworld⟩ := hholds.attrFree H (by rwa [hattributes]) hentry'
  exact ⟨s'', hfree, hholds', by rw [hworld, h.world]⟩

/-- What an edit does to the state of the hooks. -/
theorem edit_snd_of_split {c : Edit R F} {w : W} {E₁ E₂ : List (Name × Value R F)} {v : Value R F}
    (hsplit : m.entries = E₁ ++ (c.key, v) :: E₂) : (edit H (m, w) c).2 = v.release H w := by
  rw [edit]
  change (m.lookup c.key).elim w _ = _
  rw [OrderedMap.lookup_of_split hsplit]
  rfl

theorem edit_snd_of_notMem {c : Edit R F} {w : W} (hmissing : c.key ∉ m.keys) :
    (edit H (m, w) c).2 = w := by
  rw [edit]
  change (m.lookup c.key).elim w _ = _
  rw [OrderedMap.lookup_of_notMem hmissing]
  rfl

/-- A name that no attribute has. -/
theorem Holds.notMem_keys (h : Holds s tca m) (hnone : ∀ a ∈ s.attributes tca, ¬ Named s name a) :
    name ∉ m.keys := by
  intro hmem
  obtain ⟨v, hv⟩ := OrderedMap.mem_keys_iff.mp hmem
  obtain ⟨E₁, E₂, hsplit⟩ := List.append_of_mem hv
  obtain ⟨l₁, a, l₂, hl, hentry, -, -⟩ := exists_address h.entries hsplit
  exact hnone a (by rw [hl]; simp) ((named_iff hentry).mpr rfl)

/-- The attribute with a name. -/
theorem Holds.split (h : Holds s tca m) (hl : s.attributes tca = before ++ a :: after)
    (hnamed : Named s name a) :
    ∃ E₁ v E₂, m.entries = E₁ ++ (name, v) :: E₂ ∧ s.entry a = some (v.entry name) ∧
      before.map s.entry = E₁.map (fun e => some (e.2.entry e.1)) ∧
      after.map s.entry = E₂.map fun e => some (e.2.entry e.1) := by
  obtain ⟨E₁, ⟨name', v⟩, E₂, hsplit, hentry, h₁, h₂⟩ := exists_entry h.entries hl
  obtain rfl := (named_iff hentry).mp hnamed
  exact ⟨E₁, v, E₂, hsplit, hentry, h₁, h₂⟩

/-- `attr_set` -/
theorem Holds.set (h : Holds s tca m) (name : Name) (v : Value R F) :
    ∃ s', perform H tca s (.set name v) = .ok s' ∧ Holds s' tca (m.insert name v) ∧
      s'.world = (edit H (m, s.world) (.set name v)).2 := by
  obtain ⟨o, ho, hhead⟩ := h.object
  have hresult := attrSet_spec H h.bounded ho h.listed hhead name v.value (v.ref.map .other)
    (v.free.map .other) ⟨true, true⟩
  have hfresh := h.listed.count_notMem h.bounded
  have hbounded := h.bounded.make tca (v.entry name)
  have hkeep : ∀ l' : List ℕ, (∀ b ∈ l', b ∈ s.attributes tca) →
      l'.map (s.make tca (v.entry name)).entry = l'.map s.entry := fun l' hl' =>
    List.map_congr_left fun b hb => State.make_entry_of_ne fun heq => hfresh (heq ▸ hl' b hb)
  have hloaded : ∀ b, b ∈ s.attributes tca ∨ b = s.count →
      ∃ r, (s.make tca (v.entry name)).attris.load b = some r := by
    rintro b (hb | rfl)
    · exact (h.listed.make h.bounded tca _).loaded b hb
    · exact ⟨_, State.make_load⟩
  rw [perform]
  change SetResult H s tca name (v.entry name) _ _ _ at hresult
  generalize attrSet H s tca name v.value (v.ref.map .other) (v.free.map .other) ⟨true, true⟩ =
    result at hresult
  cases hresult with
  | fault hcause =>
      rcases hcause with hcause | ⟨a, ha, hnameless⟩
      · cases hcause
      · exact absurd hnameless (not_nameless h.entries ha)
  | appended s' hgrant hnone hrelinked =>
      have hmissing := h.notMem_keys hnone
      refine ⟨s', rfl, .of_relinked hbounded hrelinked (h.listed.nodup_append hfresh) ?_ ?_, ?_⟩
      · intro b hb
        exact hloaded b (by simpa using hb)
      · rw [OrderedMap.insert_of_notMem hmissing, List.map_append, List.map_append,
          hkeep _ fun b hb => hb, h.entries]
        simp [State.make_entry]
      · rw [hrelinked.world, edit_snd_of_notMem H (c := .set name v) hmissing]
        rfl
  | replaced before after a s' hgrant hl hbefore hnamed hrelinked =>
      obtain ⟨E₁, w, E₂, hsplit, hentry, h₁, h₂⟩ := h.split hl hnamed
      have hlisted := h.listed
      rw [hl] at hlisted hfresh
      obtain ⟨hnodup, ha, -⟩ := hlisted.nodup_replace hfresh
      have hnew : ∀ b ∈ before ++ s.count :: after,
          ∃ r, (s.make tca (v.entry name)).attris.load b = some r := fun b hb => hloaded b (by
        rw [hl]
        simp only [List.mem_append, List.mem_cons] at hb ⊢
        tauto)
      have hentries : (before ++ s.count :: after).map (s.make tca (v.entry name)).entry =
          (m.insert name v).entries.map fun e => some (e.2.entry e.1) := by
        rw [OrderedMap.insert_of_split hsplit, List.map_append, List.map_append, List.map_cons,
          List.map_cons, hkeep before fun b hb => by rw [hl]; simp [hb],
          hkeep after fun b hb => by rw [hl]; simp [hb], h₁, h₂, State.make_entry]
      have hne : a ≠ s.count := fun heq => hfresh (heq ▸ by simp)
      have hentry' : (s.make tca (v.entry name)).entry a = some (w.entry name) := by
        rw [State.make_entry_of_ne hne, hentry]
      obtain ⟨s'', hfree, hholds, hworld⟩ :=
        Holds.of_relinked_free H hbounded hrelinked hnodup hnew hentries ha hentry'
      refine ⟨s'', hfree, hholds, ?_⟩
      rw [hworld, edit_snd_of_split H (c := .set name v) hsplit]
      rfl

/-- `attr_del` -/
theorem Holds.del (h : Holds s tca m) (name : Name) :
    ∃ s', perform H tca s (.del name) = .ok s' ∧ Holds s' tca (m.erase name) ∧
      s'.world = (edit H (m, s.world) (.del name)).2 := by
  obtain ⟨o, ho, hhead⟩ := h.object
  have hresult := attrDel_spec H h.bounded ho h.listed hhead name
  rw [perform]
  generalize attrDel H s tca name = result at hresult
  cases hresult with
  | fault a ha hnameless => exact absurd hnameless (not_nameless h.entries ha)
  | kept hnone =>
      have hmissing := h.notMem_keys hnone
      refine ⟨s, rfl, ⟨h.bounded, h.object, h.listed, ?_⟩, ?_⟩
      · rw [OrderedMap.erase_of_notMem hmissing, h.entries]
      · rw [edit_snd_of_notMem H (c := .del name) hmissing]
  | removed before after a s' hl hbefore hnamed hrelinked =>
      obtain ⟨E₁, w, E₂, hsplit, hentry, h₁, h₂⟩ := h.split hl hnamed
      have hlisted := h.listed
      rw [hl] at hlisted
      have hnodup : (before ++ after).Nodup := hlisted.nodup.sublist (by simp)
      have hloaded : ∀ b ∈ before ++ after, ∃ r, s.attris.load b = some r := fun b hb =>
        hlisted.loaded b (by simp only [List.mem_append, List.mem_cons] at hb ⊢; tauto)
      have hentries : (before ++ after).map s.entry =
          (m.erase name).entries.map fun e => some (e.2.entry e.1) := by
        rw [OrderedMap.erase_of_split hsplit, List.map_append, List.map_append, h₁, h₂]
      have ha : a ∉ before ++ after := List.Nodup.notMem (List.nodup_middle.mp hlisted.nodup)
      obtain ⟨s'', hfree, hholds, hworld⟩ :=
        Holds.of_relinked_free H h.bounded hrelinked hnodup hloaded hentries ha hentry
      refine ⟨s'', hfree, hholds, ?_⟩
      rw [hworld, edit_snd_of_split H (c := .del name) hsplit]

theorem Holds.perform (h : Holds s tca m) (c : Edit R F) :
    ∃ s', perform H tca s c = .ok s' ∧ Holds s' tca (m.change c) ∧
      s'.world = (edit H (m, s.world) c).2 := by
  cases c with
  | set name v => exact h.set H name v
  | del name => exact h.del H name

/-! ## Reading -/

/-- Only the state of the hooks is another one. -/
def State.withWorld (s : State R F W) (w : W) : State R F W := { s with world := w }

/-- Reading a value through its hook. -/
theorem attrValue_other {r : Attri R F} (hr : s.attris.load a = some r) {v : Value R F}
    (hentry : s.entry a = some (v.entry name)) :
    attrValue H s r = .ok (s.withWorld (v.read H s.world).2, (v.read H s.world).1) := by
  have hrv : r.entry = v.entry name := by
    rw [State.entry_eq hr] at hentry
    exact Option.some.inj hentry
  have hvalue : r.value = v.value := congrArg Entry.value hrv
  have href : r.ref = v.ref.map .other := congrArg Entry.ref hrv
  rw [attrValue, href, hvalue, Value.read]
  cases v.ref <;> rfl

/-- `attr_get` -/
theorem Holds.get (h : Holds s tca m) (name : Name) :
    attrGet H s tca name = .ok (match m.lookup name with
      | none => (s, none)
      | some v => (s.withWorld (v.read H s.world).2, (v.read H s.world).1)) := by
  obtain ⟨o, ho, hhead⟩ := h.object
  have hfound : Found s name (s.attributes tca) none
      (attrDelLoop s name s.count none (s.attributes tca).head?) :=
    attrDelLoop_spec h.listed.loaded h.listed.chain (h.listed.length_le h.bounded) none
  rw [attrGet, State.object_eq ho, ok_bind, hhead, attrGetLoop_eq s name s.count none]
  generalize attrDelLoop s name s.count none (s.attributes tca).head? = result at hfound
  cases hfound with
  | fault a ha hnameless => exact absurd hnameless (not_nameless h.entries ha)
  | missing hnone =>
      rw [OrderedMap.lookup_of_notMem (h.notMem_keys hnone)]
      rfl
  | found before after a hl hbefore hnamed =>
      obtain ⟨E₁, v, E₂, hsplit, hentry, -, -⟩ := h.split hl hnamed
      obtain ⟨r, hr⟩ := h.listed.loaded a (by rw [hl]; simp)
      rw [OrderedMap.lookup_of_split hsplit, Except.map, ok_bind]
      simp only [State.attri_eq hr, ok_bind, attrValue_other H hr hentry]

/-- The loop of `attr_getall` -/
theorem attrGetallLoop_spec {E : List (Name × Value R F)}
    (hentries : l.map s.entry = E.map fun e => some (e.2.entry e.1))
    (hchain : Chain s.next l none) (n : ℤ) {fuel : ℕ} (hfuel : l.length ≤ fuel) (i : ℤ) :
    attrGetallLoop H n fuel i s l.head? =
      .ok (s.withWorld (readAll H (E.take (n - i).toNat) s.world).2,
        (readAll H (E.take (n - i).toNat) s.world).1) := by
  induction l generalizing s E fuel i with
  | nil =>
      obtain rfl : E = [] := by simpa using hentries.symm
      cases fuel <;> simp [attrGetallLoop, readAll, State.withWorld]
  | cons a l ih =>
      obtain ⟨fuel, rfl⟩ : ∃ k, fuel = k + 1 := ⟨fuel - 1, by simp at hfuel; omega⟩
      cases E with
      | nil => simp at hentries
      | cons e E =>
          obtain ⟨name, v⟩ := e
          obtain ⟨hentry, hrest⟩ := List.cons_eq_cons.mp hentries
          obtain ⟨r, hr, hrv⟩ := Option.map_eq_some_iff.mp hentry
          have hname : r.name = some name := congrArg Entry.name hrv
          have hnext : r.next = l.head? := by
            rw [← State.next_eq hr]
            simpa using hchain.1
          rw [List.head?_cons, attrGetallLoop]
          by_cases hin : i < n
          · have htake : (n - i).toNat = (n - (i + 1)).toNat + 1 := by omega
            have hfuel' : l.length ≤ fuel := by simpa using hfuel
            have ih' := ih (s := s.withWorld (v.read H s.world).2) (E := E) hrest hchain.2
              hfuel' (i + 1)
            simp only [if_pos hin, State.attri_eq hr, ok_bind, attrValue_other H hr hentry, hnext,
              ih', hname, htake, List.take_succ_cons, readAll]
            rfl
          · have hnone : (n - i).toNat = 0 := by omega
            rw [if_neg hin, hnone, List.take_zero, readAll]
            rfl

/-- `attr_getall` -/
theorem Holds.getall (h : Holds s tca m) (n : ℤ) :
    attrGetall H s tca n = .ok (s.withWorld (readAll H (m.entries.take n.toNat) s.world).2,
      (readAll H (m.entries.take n.toNat) s.world).1) := by
  obtain ⟨o, ho, hhead⟩ := h.object
  have hloop := attrGetallLoop_spec H h.entries h.listed.chain n (h.listed.length_le h.bounded) 0
  rw [Int.sub_zero] at hloop
  rw [attrGetall, State.object_eq ho, ok_bind, hhead, hloop]

theorem length_readAll (E : List (Name × Value R F)) (w : W) :
    (readAll H E w).1.length = E.length := by
  induction E generalizing w with
  | nil => rfl
  | cons e E ih => simp [readAll, ih]

/-! ## Any calls -/

/-- What some calls on a new object should come to, from this state of the hooks on. -/
structure Mirrors (s : State R F W) (tca : ℕ) (w : W) (edits : List (Edit R F)) : Prop where
  /-- The attributes are those of the map, in its order. -/
  entries : (s.attributes tca).map s.entry =
    (OrderedMap.replay edits).entries.map fun e => some (e.2.entry e.1)
  /-- No name comes twice. -/
  unique : ((s.attributes tca).map fun a => (s.entry a).map Entry.name).Nodup
  /-- A name has the value that was last set, unless it has been deleted since. -/
  latest : ∀ name v, (OrderedMap.replay edits).lookup name = some v ↔
    ∃ pre post, edits = pre ++ .set name v :: post ∧ ∀ c ∈ post, c.key ≠ name
  /-- A new name goes to the end, and one that is there keeps its place. -/
  place : ∀ name v,
    (name ∈ (OrderedMap.replay edits).keys →
      (OrderedMap.replay (edits ++ [.set name v])).keys = (OrderedMap.replay edits).keys) ∧
    (name ∉ (OrderedMap.replay edits).keys →
      (OrderedMap.replay (edits ++ [.set name v])).keys =
        (OrderedMap.replay edits).keys ++ [name])
  /-- Values are released where they are replaced or deleted, in that order. -/
  world : s.world = (edits.foldl (edit H) (OrderedMap.empty, w)).2
  get : ∀ name, attrGet H s tca name = .ok (match (OrderedMap.replay edits).lookup name with
    | none => (s, none)
    | some v => (s.withWorld (v.read H s.world).2, (v.read H s.world).1))
  getall : ∀ n : ℤ, ∃ s' slots, attrGetall H s tca n = .ok (s', slots) ∧
    slots.length = min n.toNat (OrderedMap.replay edits).entries.length ∧
    (s', slots) = (s.withWorld
      (readAll H ((OrderedMap.replay edits).entries.take n.toNat) s.world).2,
      (readAll H ((OrderedMap.replay edits).entries.take n.toNat) s.world).1)

theorem Holds.unique (h : Holds s tca m) :
    ((s.attributes tca).map fun a => (s.entry a).map Entry.name).Nodup := by
  have hnames : (s.attributes tca).map (fun a => (s.entry a).map Entry.name) =
      (m.entries.map Prod.fst).map fun name => some (some name) := by
    have hmap := congrArg (List.map (Option.map Entry.name)) h.entries
    simpa [List.map_map, Function.comp_def, Value.entry] using hmap
  rw [hnames]
  exact m.nodup.map fun a b hab => by simpa using hab

theorem Holds.run (h : Holds s tca m) (edits : List (Edit R F)) :
    ∃ s', edits.foldlM (Objects.perform H tca) s = .ok s' ∧
      Holds s' tca (edits.foldl OrderedMap.change m) ∧
      s'.world = (edits.foldl (edit H) (m, s.world)).2 := by
  induction edits generalizing s m with
  | nil => exact ⟨s, rfl, h, rfl⟩
  | cons c edits ih =>
      obtain ⟨s₁, hstep, hholds, hworld⟩ := h.perform H c
      obtain ⟨s', hrun, hholds', hworld'⟩ := ih hholds
      refine ⟨s', by rw [List.foldlM_cons, hstep, ok_bind, hrun], hholds', ?_⟩
      rw [hworld', hworld]
      rfl

/-- A new object has no attributes. -/
theorem Holds.allocd (hbounded : Bounded s) (r f : Option F) :
    Holds (allocd s r f true).1 s.count (OrderedMap.empty : OrderedMap Name (Value R F)) := by
  refine .of_listed (l := []) ⟨?_, ?_⟩ (o := ⟨1, r, f, none⟩) Heap.load_store_self rfl
    ⟨List.nodup_nil, by simp, trivial⟩ rfl
  · intro p o ho
    change (s.objects.store s.count ⟨1, r, f, none⟩).load p = some o at ho
    change p < s.count + 1
    rw [Heap.load_store] at ho
    split_ifs at ho with hp
    · omega
    · exact Nat.lt_succ_of_lt (hbounded.objects p o ho)
  · intro a x hx
    exact Nat.lt_succ_of_lt (hbounded.attris a x hx)

/-- The attributes of an object are a map in insertion order. -/
theorem attributes_refine (hbounded : Bounded s) (r f : Option F) (edits : List (Edit R F)) :
    ∃ s', edits.foldlM (perform H s.count) (Objects.allocd s r f true).1 = .ok s' ∧
      Mirrors H s' s.count s.world edits := by
  obtain ⟨s', hrun, hholds, hworld⟩ := (Holds.allocd hbounded r f).run H edits
  refine ⟨s', hrun, hholds.entries, hholds.unique, fun name v => OrderedMap.lookup_replay_eq_some,
    fun name v => ?_, hworld, hholds.get H, fun n => ⟨_, _, hholds.getall H n, ?_, rfl⟩⟩
  · have hkeys := OrderedMap.keys_insert (OrderedMap.replay edits) name v
    rw [OrderedMap.replay_concat]
    exact ⟨fun hmem => hkeys.trans (if_pos hmem), fun hnew => hkeys.trans (if_neg hnew)⟩
  · rw [length_readAll, List.length_take]
    rfl

end Calls

/-! ## Concrete calls -/

/-- Hooks that keep a list of what they are called with. -/
def tracing : Hooks Bool Bool (List (Bool × Ptr)) where
  get r p w := (if r then p.map (· + 100) else p, w ++ [(r, p)])
  call f p w := w ++ [(f, p)]

/-- The middle one of three attributes is replaced, then the first is deleted. -/
def renamings : List (Edit Bool Bool) :=
  [.set [97] ⟨some 1, none, some true⟩, .set [98] ⟨some 2, some true, some true⟩,
    .set [99] ⟨some 3, none, none⟩, .set [98] ⟨some 4, some true, some false⟩, .del [97]]

theorem start_bounded (w : W) : Bounded (State.start w : State R F W) :=
  ⟨fun p o ho => by simp [State.start] at ho, fun a r hr => by simp [State.start] at hr⟩

/-- Memory without objects. -/
def untouched : State Bool Bool (List (Bool × Ptr)) := State.start []

theorem renamings_refine :
    ∃ s', renamings.foldlM (perform tracing untouched.count) (allocd untouched none none true).1 =
        .ok s' ∧
      Mirrors tracing s' untouched.count untouched.world renamings :=
  attributes_refine tracing (start_bounded []) none none renamings

end ThreeW3.Objects
