/-
# The graph of references

Clients allocate objects, put them into attributes of each other in any way, cycles
included, and release them. Every count is the number of references, an object goes when
that number becomes zero, and nothing reads what is gone.
-/

import ThreeW3.Lib.Machine
import ThreeW3.Objects.Releasing

namespace ThreeW3.Objects

open ThreeW3.Lib

variable {R F W : Type}

/-! ## Clients -/

/-- What clients call. -/
inductive Call (F : Type)
  | allocd (r f : Option F) (succeeds : Bool)
  | ref (p : ℕ)
  | free (p : ℕ)
  | attrSet (tca : ℕ) (name : Name) (val : ℕ) (g : Grant)
  | attrGet (tca : ℕ) (name : Name)
  | attrGetall (tca : ℕ) (n : ℤ)
  | attrDel (tca : ℕ) (name : Name)
  deriving DecidableEq, Repr

/-- The calls of `attr_set` get their memory. -/
def Call.Granted : Call F → Prop
  | .attrSet _ _ _ g => g = ⟨true, true⟩
  | _ => True

instance : DecidablePred (Call.Granted (F := F))
  | .attrSet _ _ _ g => inferInstanceAs (Decidable (g = ⟨true, true⟩))
  | .allocd .. | .ref _ | .free _ | .attrGet .. | .attrGetall .. | .attrDel .. => isTrue trivial

/-- The objects, and the references that clients own: an object is listed once for each. -/
structure Client (R F W : Type) where
  state : State R F W
  owned : List ℕ

namespace Client

variable (H : Hooks R F W)

/-- The references to an object. -/
def number (c : Client R F W) (p : ℕ) : ℕ := c.owned.count p + c.state.held p

/-- A client keeps what a call returns, and gives away what it releases or stores. -/
def call (c : Client R F W) : Call F → Except Fault (Client R F W)
  | .allocd r f succeeds =>
      let (s, p) := allocd c.state r f succeeds
      .ok ⟨s, p.toList ++ c.owned⟩
  | .ref p => do
      let s ← ref H c.state (some p)
      .ok ⟨s, p :: c.owned⟩
  | .free p => do
      let s ← FREE H c.state (some p)
      .ok ⟨s, c.owned.erase p⟩
  | .attrSet tca name val g => do
      let s ← attrSet H c.state tca name (some val) (some .ref) (some .free) g
      .ok ⟨s, c.owned.erase val⟩
  | .attrGet tca name => do
      let (s, p) ← attrGet H c.state tca name
      .ok ⟨s, p.toList ++ c.owned⟩
  | .attrGetall tca n => do
      let (s, slots) ← attrGetall H c.state tca n
      .ok ⟨s, slots.filterMap Prod.snd ++ c.owned⟩
  | .attrDel tca name => do
      let s ← attrDel H c.state tca name
      .ok ⟨s, c.owned⟩

/-- Clients use objects that someone refers to, and release and store only references that
they own. -/
def Enabled (c : Client R F W) : Call F → Prop
  | .allocd .. => True
  | .ref p => c.number p ≠ 0
  | .free p => p ∈ c.owned
  | .attrSet tca _ val _ => c.number tca ≠ 0 ∧ val ∈ c.owned
  | .attrGet tca _ | .attrGetall tca _ | .attrDel tca _ => c.number tca ≠ 0

instance (c : Client R F W) : DecidablePred (Enabled (F := F) c)
  | .allocd .. => isTrue trivial
  | .ref p => inferInstanceAs (Decidable (c.number p ≠ 0))
  | .free p => inferInstanceAs (Decidable (p ∈ c.owned))
  | .attrSet tca _ val _ => inferInstanceAs (Decidable (c.number tca ≠ 0 ∧ val ∈ c.owned))
  | .attrGet tca _ | .attrGetall tca _ | .attrDel tca _ =>
      inferInstanceAs (Decidable (c.number tca ≠ 0))

/-- The counts are right, and what has no reference is gone. -/
structure Accounted (c : Client R F W) : Prop where
  /-- A count is the number of references. -/
  count : ∀ p o, c.state.objects.load p = some o → o.rc = c.number p
  /-- An object is there as long as that number is not zero. -/
  loaded : ∀ x ∈ c.state.ledger.given, (∃ o, c.state.objects.load x.1 = some o) ↔
    c.number x.1 ≠ 0
  finalized : ∀ x ∈ c.state.ledger.given, c.state.ledger.finalized.count x.1 =
    if c.number x.1 = 0 ∧ x.2 ≠ none then 1 else 0
  freed : ∀ x ∈ c.state.ledger.given, c.state.ledger.freed.count x.1 =
    if c.number x.1 = 0 then 1 else 0
  /-- An attribute is there as long as it is in the list of its object. -/
  linked : ∀ x ∈ c.state.ledger.made, (∃ r, c.state.attris.load x.2 = some r) ↔
    x.2 ∈ c.state.attributes x.1
  released : ∀ x ∈ c.state.ledger.made, c.state.ledger.released.count x.2 =
    if x.2 ∈ c.state.attributes x.1 then 0 else 1
  /-- An object that is gone has no attributes. -/
  attributes : ∀ x ∈ c.state.ledger.given, c.number x.1 = 0 → c.state.attributes x.1 = []

/-- What holds between calls. -/
def Inv (c : Client R F W) : Prop :=
  ∃ recs, Account c.state (fun p => c.owned.count p) [] [] [] recs

variable {c : Client R F W}

theorem Inv.accounted (h : c.Inv) : c.Accounted := by
  obtain ⟨recs, h⟩ := h
  have hnumber : ∀ p, c.state.rc p = c.number p := by
    intro p
    rw [h.count, State.heldBut_nil, number]
    push_cast
    rfl
  have hloaded : ∀ p, (∃ o, c.state.objects.load p = some o) ↔ c.number p ≠ 0 := by
    intro p
    constructor
    · rintro ⟨o, ho⟩ hzero
      have hrc := hnumber p
      rw [State.rc_eq ho, hzero] at hrc
      exact absurd ((h.dying_iff p).mpr ⟨o, ho, hrc⟩) (by simp)
    · intro hne
      obtain ⟨o, ho, -⟩ := h.exists_object (q := p) (by
        rw [State.heldBut_nil]
        exact Nat.pos_of_ne_zero hne)
      exact ⟨o, ho⟩
  have hattributes : ∀ p, c.state.attributes p = recs p := by
    intro p
    cases ho : c.state.objects.load p with
    | none =>
        rw [State.attributes, ho, Option.elim_none, h.empty p (by rw [State.rc, ho]; rfl)]
    | some o =>
        have hrc : o.rc ≠ 0 := fun hzero =>
          absurd ((h.dying_iff p).mpr ⟨o, ho, hzero⟩) (by simp)
        exact (h.listed p).attributes_eq h.bounded ho (h.head p o ho hrc)
  have hattribute : ∀ x ∈ c.state.ledger.made, (∃ r, c.state.attris.load x.2 = some r) ↔
      x.2 ∈ c.state.attributes x.1 := by
    rintro ⟨p, a⟩ hx
    rw [hattributes]
    constructor
    · rintro ⟨r, hr⟩
      obtain ⟨q, hq⟩ := (h.cover a r hr).resolve_right (by simp)
      have heq := List.inj_on_of_nodup_map h.made_nodup hx (h.owner q a hq) rfl
      exact (congrArg Prod.fst heq).symm ▸ hq
    · exact (h.listed p).loaded a
  refine ⟨fun p o ho => ?_, fun x _ => hloaded x.1, ?_, ?_, hattribute, ?_, ?_⟩
  · rw [← hnumber, State.rc_eq ho]
  · rintro ⟨p, f⟩ hx
    have hmem : p ∈ c.state.ledger.finalized ↔ c.number p = 0 ∧ f ≠ none := by
      rw [h.mem_finalized, hnumber, Int.natCast_eq_zero, and_comm]
      refine and_congr_right fun _ => ⟨?_, ?_⟩
      · rintro ⟨f', hf'⟩ rfl
        cases h.free_unique hf' hx
      · intro hne
        obtain ⟨f', rfl⟩ := Option.ne_none_iff_exists'.mp hne
        exact ⟨f', hx⟩
    rw [List.Nodup.count h.finalized_nodup]
    exact if_congr hmem rfl rfl
  · rintro ⟨p, f⟩ hx
    have hmem : p ∈ c.state.ledger.freed ↔ c.number p = 0 := by
      rw [h.mem_freed, Option.eq_none_iff_forall_ne_some]
      have hnone := (hloaded p).not
      grind
    rw [List.Nodup.count h.freed_nodup]
    exact if_congr hmem rfl rfl
  · rintro ⟨p, a⟩ hx
    have hmem : a ∈ c.state.ledger.released ↔ ¬ a ∈ c.state.attributes p := by
      rw [h.mem_released, ← hattribute (p, a) hx, Option.eq_none_iff_forall_ne_some]
      grind
    rw [List.Nodup.count h.released_nodup]
    split_ifs <;> tauto
  · rintro ⟨p, f⟩ hx hzero
    rw [hattributes, h.empty p (by rw [hnumber, hzero]; rfl)]

/-! ## Calls -/

end Client

/-- Every attribute has a name: no strdup(3) has failed. -/
def AllNamed (s : State R F W) : Prop := ∀ a, ¬ Nameless s a

section AllNamed

variable {s s' : State R F W} {tca : ℕ} {l : List ℕ} {e : Entry R F}

theorem AllNamed.of_entry (h : AllNamed s) (hentry : ∀ a, s'.entry a = none ∨ s'.entry a = s.entry a) :
    AllNamed s' := by
  rintro a ⟨e, he, hname⟩
  rcases hentry a with hnone | heq
  · rw [hnone] at he
    cases he
  · rw [heq] at he
    exact h a ⟨e, he, hname⟩

theorem AllNamed.relinked (h : AllNamed s) (hrelinked : Relinked s s' tca l) : AllNamed s' :=
  h.of_entry fun a => .inr (hrelinked.entry a)

theorem AllNamed.spared (h : AllNamed s) (hspared : Spared s s' l) : AllNamed s' := by
  refine h.of_entry fun a => ?_
  cases hr : s'.attris.load a with
  | none => exact .inl (by rw [State.entry, hr, Option.map_none])
  | some r => exact .inr (by rw [State.entry_eq hr, State.entry_eq (hspared.attris a r hr)])

theorem AllNamed.make (h : AllNamed s) (hname : e.name ≠ none) : AllNamed (s.make tca e) := by
  rintro a ⟨e', he', hnone⟩
  by_cases ha : a = s.count
  · rw [ha, State.make_entry] at he'
    obtain rfl := Option.some.inj he'
    exact hname hnone
  · rw [State.make_entry_of_ne ha] at he'
    exact h a ⟨e', he', hnone⟩

end AllNamed

/-- A call that works keeps the account, and stops at a null pointer only where memory has
run out. -/
inductive Outcome (c : Client R F W) (granted : Prop) : Except Fault (Client R F W) → Prop
  | done (c' : Client R F W) (h : c'.Inv)
      (hnamed : granted → AllNamed c.state → AllNamed c'.state) : Outcome c granted (.ok c')
  | fault (h : ¬ (granted ∧ AllNamed c.state)) : Outcome c granted (.error .nullPointer)

theorem gain_count (l : List ℕ) (p : ℕ) :
    gain (fun q => l.count q) p = fun q => (p :: l).count q := by
  funext q
  rw [gain, List.count_cons]
  by_cases hq : q = p
  · simp [hq]
  · simp [hq, Ne.symm hq]

theorem gain_count_erase {l : List ℕ} {p : ℕ} (hp : p ∈ l) :
    gain (fun q => (l.erase p).count q) p = fun q => l.count q := by
  rw [gain_count]
  funext q
  exact (List.perm_cons_erase hp).symm.count_eq q

section Calls

variable {H : Hooks R F W} {c : Client R F W} {recs : ℕ → List ℕ} {p tca : ℕ}

theorem Account.object (h : Account c.state (fun p => c.owned.count p) [] [] [] recs)
    (hnumber : c.number tca ≠ 0) : ∃ o, c.state.objects.load tca = some o ∧
      o.attr = (recs tca).head? ∧ c.state.rc tca ≠ 0 := by
  obtain ⟨o, ho, hpos⟩ := h.exists_object (q := tca) (by
    rw [State.heldBut_nil]
    exact Nat.pos_of_ne_zero hnumber)
  refine ⟨o, ho, h.head tca o ho (by omega), ?_⟩
  rw [State.rc_eq ho]
  omega

/-- `attr_del` -/
theorem attrDel_outcome (h : Account c.state (fun p => c.owned.count p) [] [] [] recs)
    (hnumber : c.number tca ≠ 0) (name : Name) :
    Outcome c True (c.call H (.attrDel tca name)) := by
  obtain ⟨o, ho, hhead, hrc⟩ := h.object hnumber
  have hresult := attrDel_spec H h.bounded ho (h.listed tca) hhead name
  rw [Client.call]
  generalize attrDel H c.state tca name = result at hresult
  cases hresult with
  | fault a ha hnameless => exact .fault fun hnamed => hnamed.2 a hnameless
  | kept hnone => exact .done c ⟨recs, h⟩ fun _ hnamed => hnamed
  | removed before after a s' hl hbefore hnamed hrelinked =>
      have hperm : (before ++ after ++ [a]).Perm (recs tca ++ []) := by
        rw [hl, List.append_nil]
        exact (List.perm_append_singleton a _).trans List.perm_middle.symm
      have howner : ∀ b ∈ before ++ after, (tca, b) ∈ c.state.ledger.made := fun b hb =>
        h.owner tca b (by rw [hl]; simp only [List.mem_append, List.mem_cons] at hb ⊢; tauto)
      have h' := h.relink hrelinked hrc hperm howner (by simp)
      obtain ⟨s'', recs'', hfree, h'', hspared⟩ := h'.attrFree (H := H)
      rw [hfree, ok_bind]
      exact .done ⟨s'', c.owned⟩ ⟨recs'', h''⟩ fun _ hall => (hall.relinked hrelinked).spared hspared

/-- `attr_set` -/
theorem attrSet_outcome (h : Account c.state (fun p => c.owned.count p) [] [] [] recs)
    (hnumber : c.number tca ≠ 0) {val : ℕ} (hval : val ∈ c.owned) (name : Name) (g : Grant) :
    Outcome c (g = ⟨true, true⟩) (c.call H (.attrSet tca name val g)) := by
  obtain ⟨o, ho, hhead, hrc⟩ := h.object hnumber
  have hresult := attrSet_spec H h.bounded ho (h.listed tca) hhead name (some val)
    (some .ref) (some .free) g
  have hmade : Account (c.state.make tca (newEntry name (some val) (some .ref) (some .free) g))
      (fun p => (c.owned.erase val).count p) [] [] [c.state.count] recs := by
    rw [← gain_count_erase hval] at h
    exact h.make tca rfl rfl rfl
  have hnamed : g = ⟨true, true⟩ → AllNamed c.state → AllNamed
      (c.state.make tca (newEntry (R := R) (F := F) name (some val) (some .ref) (some .free) g)) := by
    rintro rfl hall
    exact hall.make (by simp [newEntry])
  have howner : ∀ b, b ∈ recs tca ∨ b = c.state.count →
      (tca, b) ∈ c.state.ledger.made ++ [(tca, c.state.count)] := by
    rintro b (hb | rfl)
    · exact List.mem_append_left _ (h.owner tca b hb)
    · exact List.mem_append_right _ (List.mem_singleton.mpr rfl)
  rw [Client.call]
  generalize attrSet H c.state tca name (some val) (some .ref) (some .free) g = result at hresult
  cases hresult with
  | fault hcause =>
      refine .fault ?_
      rintro ⟨rfl, hall⟩
      rcases hcause with hcause | ⟨a, ha, hnameless⟩
      · cases hcause
      · exact hall a hnameless
  | appended s' hgrant hnone hrelinked =>
      have hperm : (recs tca ++ [c.state.count] ++ []).Perm (recs tca ++ [c.state.count]) := by
        rw [List.append_nil]
      have h' := hmade.relink hrelinked hrc hperm (fun b hb => howner b (by simpa using hb)) (by simp)
      exact .done ⟨s', c.owned.erase val⟩ ⟨_, h'⟩ fun hg hall => (hnamed hg hall).relinked hrelinked
  | replaced before after a s' hgrant hl hbefore hname hrelinked =>
      have hperm : (before ++ c.state.count :: after ++ [a]).Perm (recs tca ++ [c.state.count]) := by
        rw [hl, List.perm_iff_count]
        intro b
        simp only [List.count_append, List.count_cons, List.count_nil]
        omega
      have h' := hmade.relink hrelinked hrc hperm (fun b hb => howner b (by
        rw [hl]
        simp only [List.mem_append, List.mem_cons] at hb ⊢
        tauto)) (by simp)
      obtain ⟨s'', recs'', hfree, h'', hspared⟩ := h'.attrFree (H := H)
      rw [hfree, ok_bind]
      exact .done ⟨s'', c.owned.erase val⟩ ⟨recs'', h''⟩ fun hg hall =>
        ((hnamed hg hall).relinked hrelinked).spared hspared

/-- `attr_get` -/
theorem attrGet_outcome (h : Account c.state (fun p => c.owned.count p) [] [] [] recs)
    (hnumber : c.number tca ≠ 0) (name : Name) :
    Outcome c True (c.call H (.attrGet tca name)) := by
  obtain ⟨o, ho, hhead, hrc⟩ := h.object hnumber
  have hlisted := h.listed tca
  have hfound : Found c.state name (recs tca) none
      (attrDelLoop c.state name c.state.count none (recs tca).head?) :=
    attrDelLoop_spec hlisted.loaded hlisted.chain (hlisted.length_le h.bounded) none
  rw [Client.call, attrGet, State.object_eq ho, ok_bind, hhead, attrGetLoop_eq c.state name _ none]
  generalize attrDelLoop c.state name c.state.count none (recs tca).head? = result at hfound
  cases hfound with
  | fault a ha hnameless => exact .fault fun hnamed => hnamed.2 a hnameless
  | missing hnone => exact .done ⟨c.state, c.owned⟩ ⟨recs, h⟩ fun _ hall => hall
  | found before after a hl hbefore hnamed =>
      obtain ⟨r, hr⟩ := hlisted.loaded a (by rw [hl]; simp)
      obtain ⟨s', v, hv, hvalue, h', hattris⟩ := attrValue_spec (H := H) h hr (by simp)
      rw [gain_count] at h'
      simp only [Except.map, ok_bind, State.attri_eq hr, hvalue]
      exact .done ⟨s', v :: c.owned⟩ ⟨recs, h'⟩ fun _ hall =>
        hall.of_entry fun b => .inr (by rw [State.entry, hattris, State.entry])

/-- The loop of `attr_getall` -/
theorem attrGetallLoop_account {s : State R F W} {owned : List ℕ}
    (h : Account s (fun p => owned.count p) [] [] [] recs) {l : List ℕ}
    (hloaded : ∀ a ∈ l, ∃ r, s.attris.load a = some r) (hchain : Chain s.next l none) (n : ℤ)
    {fuel : ℕ} (hfuel : l.length ≤ fuel) (i : ℤ) :
    ∃ s' slots, attrGetallLoop H n fuel i s l.head? = .ok (s', slots) ∧
      Account s' (fun p => (slots.filterMap Prod.snd ++ owned).count p) [] [] [] recs ∧
      s'.attris = s.attris := by
  induction l generalizing s owned fuel i with
  | nil =>
      refine ⟨s, [], ?_, h, rfl⟩
      cases fuel <;> rfl
  | cons a l ih =>
      obtain ⟨fuel, rfl⟩ : ∃ k, fuel = k + 1 := ⟨fuel - 1, by simp at hfuel; omega⟩
      obtain ⟨r, hr⟩ := hloaded a List.mem_cons_self
      have hnext : r.next = l.head? := by
        rw [← State.next_eq hr]
        simpa using hchain.1
      rw [List.head?_cons, attrGetallLoop]
      by_cases hin : i < n
      · obtain ⟨s₁, v, hv, hvalue, h₁, hattris⟩ := attrValue_spec (H := H) h hr (by simp)
        rw [gain_count] at h₁
        have hload₁ : ∀ b, s₁.attris.load b = s.attris.load b := fun b => by rw [hattris]
        obtain ⟨s', slots, hloop, h', hattris'⟩ := ih h₁
          (fun b hb => by rw [hload₁]; exact hloaded b (List.mem_cons_of_mem a hb))
          (hchain.2.congr fun b _ => Heap.field_eq_of_load_eq (hload₁ b)) (by simpa using hfuel)
          (i + 1)
        refine ⟨s', (r.name, some v) :: slots, ?_, ?_, hattris'.trans hattris⟩
        · simp only [if_pos hin, State.attri_eq hr, ok_bind, hvalue, hnext, hloop]
        · have hperm : (slots.filterMap Prod.snd ++ v :: owned).Perm
              (((r.name, some v) :: slots).filterMap Prod.snd ++ owned) := List.perm_middle
          simpa only [hperm.count_eq] using h'
      · exact ⟨s, [], by rw [if_neg hin], h, rfl⟩

theorem attrGetall_outcome (h : Account c.state (fun p => c.owned.count p) [] [] [] recs)
    (hnumber : c.number tca ≠ 0) (n : ℤ) :
    Outcome c True (c.call H (.attrGetall tca n)) := by
  obtain ⟨o, ho, hhead, hrc⟩ := h.object hnumber
  obtain ⟨s', slots, hloop, h', hattris⟩ := attrGetallLoop_account (H := H) h
    (h.listed tca).loaded (h.listed tca).chain n ((h.listed tca).length_le h.bounded) 0
  rw [Client.call, attrGetall, State.object_eq ho, ok_bind, hhead, hloop]
  exact .done ⟨s', slots.filterMap Prod.snd ++ c.owned⟩ ⟨recs, h'⟩ fun _ hall =>
    hall.of_entry fun b => .inr (by rw [State.entry, hattris, State.entry])

/-- Any call -/
theorem call_outcome (h : c.Inv) {a : Call F} (henabled : c.Enabled a) :
    Outcome c a.Granted (c.call H a) := by
  obtain ⟨recs, h⟩ := h
  cases a with
  | allocd r f succeeds =>
      cases succeeds with
      | false => exact .done c ⟨recs, h⟩ fun _ hall => hall
      | true =>
          have h' := h.allocd r f
          rw [gain_count] at h'
          exact .done _ ⟨recs, h'⟩ fun _ hall => hall.of_entry fun b => .inr rfl
  | ref p =>
      obtain ⟨s', hcall, h', hattris⟩ := ref_spec (H := H) (p := p) h (by
        rw [State.heldBut_nil]
        exact Nat.pos_of_ne_zero henabled)
      rw [gain_count] at h'
      rw [Client.call, hcall]
      exact .done ⟨s', p :: c.owned⟩ ⟨recs, h'⟩ fun _ hall =>
        hall.of_entry fun b => .inr (by rw [State.entry, hattris, State.entry])
  | free p =>
      rw [← gain_count_erase henabled] at h
      obtain ⟨s', recs', hcall, h', hspared⟩ := FREE_spec (H := H) h
      rw [Client.call, hcall]
      exact .done ⟨s', c.owned.erase p⟩ ⟨recs', h'⟩ fun _ hall => hall.spared hspared
  | attrSet tca name val g => exact attrSet_outcome h henabled.1 henabled.2 name g
  | attrGet tca name => exact attrGet_outcome h henabled name
  | attrGetall tca n => exact attrGetall_outcome h henabled n
  | attrDel tca name => exact attrDel_outcome h henabled name

end Calls

/-! ## Runs -/

/-- The machine of the clients. It stops where a call goes wrong. -/
def clients (H : Hooks R F W) (w : W) : Machine (Client R F W) (Call F) where
  init := ⟨State.start w, []⟩
  enabled := Client.Enabled
  step c a := (c.call H a).toOption

variable (H : Hooks R F W) (w : W)

instance (c : Client R F W) (a : Call F) : Decidable ((clients H w).enabled c a) :=
  inferInstanceAs (Decidable (c.Enabled a))

theorem start_inv : (clients H w).init.Inv := ⟨fun _ => [], Account.start w⟩

/-- A call keeps the account. -/
theorem step_inv (c : Client R F W) (a : Call F) (c' : Client R F W) (h : c.Inv)
    (henabled : c.Enabled a) (hstep : (c.call H a).toOption = some c') : c'.Inv := by
  have houtcome := call_outcome (H := H) h henabled
  generalize c.call H a = result at houtcome hstep
  cases houtcome with
  | done c₁ h₁ hnamed => exact Option.some.inj hstep ▸ h₁
  | fault hcause => cases hstep

/-- A call reads nothing that is gone, and ends. -/
theorem step_safe (c : Client R F W) (a : Call F) (h : c.Inv) (henabled : c.Enabled a) :
    c.call H a ≠ .error .freed ∧ c.call H a ≠ .error .endless := by
  have houtcome := call_outcome (H := H) h henabled
  generalize c.call H a = result at houtcome
  cases houtcome <;> simp

/-- A call works as long as memory does not run out. -/
theorem step_granted (c : Client R F W) (a : Call F) (h : c.Inv ∧ AllNamed c.state)
    (henabled : c.Enabled a) (hgranted : a.Granted) :
    ∃ c', (c.call H a).toOption = some c' ∧ c'.Inv ∧ AllNamed c'.state := by
  have houtcome := call_outcome (H := H) h.1 henabled
  generalize c.call H a = result at houtcome
  cases houtcome with
  | done c' h' hnamed => exact ⟨c', rfl, h', hnamed hgranted h.2⟩
  | fault hcause => exact absurd ⟨hgranted, h.2⟩ hcause

/-- The counts are right in all states of a run, no call reads what is gone or goes on
forever, and none goes wrong as long as memory does not run out. -/
theorem references_counted {calls : List (Call F)}
    (hvalid : (clients H w).Valid (clients H w).init calls) :
    (clients H w).AllStates Client.Accounted (clients H w).init calls ∧
      (clients H w).AllSteps (fun c a => c.call H a ≠ .error .freed ∧ c.call H a ≠ .error .endless)
        (clients H w).init calls ∧
      ((∀ a ∈ calls, a.Granted) →
        ∃ c, (clients H w).exec (clients H w).init calls = some c) := by
  have hstart := start_inv H w
  have htrue : (clients H w).AllSteps (fun _ _ => True) (clients H w).init calls :=
    Machine.allSteps_of_forall (fun _ _ _ => trivial) (clients H w).init
  refine ⟨?_, ?_, fun hgranted => ?_⟩
  · exact (Machine.allStates_of_keeps (fun c a c' h henabled _ hstep =>
      step_inv H c a c' h henabled hstep) hstart hvalid htrue).mono fun c => Client.Inv.accounted
  · exact Machine.allSteps_of_keeps (fun c a c' h henabled _ hstep =>
      step_inv H c a c' h henabled hstep) (fun c a h henabled _ => step_safe H c a h henabled)
      hstart hvalid htrue
  · have hnamed : AllNamed (clients H w).init.state := by
      rintro a ⟨e, he, -⟩
      cases he
    obtain ⟨⟨c, hexec, -⟩, -⟩ := Machine.run_invariant (M := clients H w)
      (G := fun _ a => a.Granted) (step_granted H) ⟨hstart, hnamed⟩ hvalid
      (Machine.allSteps_of_forall (fun a ha _ => hgranted a ha) _)
    exact ⟨c, hexec⟩

/-- Hooks that do nothing. -/
def idle : Hooks Unit Unit Unit := ⟨fun _ p w => (p, w), fun _ _ w => w⟩

/-- Two objects that hold each other, one of them also itself under a name that is then used
for a third object, whose release follows that of the last attribute. -/
def tangle : List (Call Unit) :=
  [.allocd none (some ()) true, .allocd none none true, .ref 0, .attrSet 1 [97] 0 ⟨true, true⟩,
    .attrGet 1 [97], .ref 1, .attrSet 0 [98] 1 ⟨true, true⟩, .free 0, .attrGetall 0 5,
    .attrSet 0 [99] 0 ⟨true, true⟩, .allocd none (some ()) true, .attrSet 1 [97] 5 ⟨true, true⟩,
    .free 1, .attrDel 0 [99], .free 1]

theorem tangle_counted :
    (clients idle ()).AllStates Client.Accounted (clients idle ()).init tangle ∧
      (clients idle ()).AllSteps
        (fun c a => c.call idle a ≠ .error .freed ∧ c.call idle a ≠ .error .endless)
        (clients idle ()).init tangle ∧
      ((∀ a ∈ tangle, a.Granted) →
        ∃ c, (clients idle ()).exec (clients idle ()).init tangle = some c) :=
  references_counted idle () (by decide)

end ThreeW3.Objects
