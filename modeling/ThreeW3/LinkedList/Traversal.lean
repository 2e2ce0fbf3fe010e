/-
# Traversals

A client that walks through the list, while the others edit it and walk through it,
visits no node twice, and the nodes that are present all the time once each and in the
order of the list. At each moment the nodes visited, followed by the nodes before the
iterator, give these in order, whatever else comes and goes.
-/

import ThreeW3.LinkedList.System

namespace ThreeW3.LinkedList

open ThreeW3.Lib

universe u v w
variable {D : Type u} {F : Type v} {ι : Type w}

/-! ## A walk that is watched -/

/-- An iterator has visited the nodes `V`. Of the nodes of interest, those visited and
those before the iterator are `K`. -/
structure Watch (P : ℕ → Bool) (d : Dir) (K : List ℕ) (c : Ptr) (V : List ℕ) (a : Pinned D F) :
    Prop where
  filter_eq : V.filter P ++ (a.after d c).filter P = K
  nodup : V.Nodup
  behind : ∀ y ∈ V, y ∉ a.after d c
  lt : ∀ y ∈ V, y < a.inserted.length

namespace Pinned

variable {a : Pinned D F} {x y : ℕ} {c : Ptr} {d e : Dir} {p : D} {P : ℕ → Bool}

/-- An insertion adds the new node before an iterator, or nothing. -/
theorem after_insert (ok : a.Ok) (hc : ∀ y ∈ c, y ∈ a.order) :
    (a.insert e p).after d c = a.after d c ++ [a.inserted.length] ∨
      (a.insert e p).after d c = a.inserted.length :: a.after d c ∨
      (a.insert e p).after d c = a.after d c := by
  have hnodup : (a.insert e p).order.Nodup := (ok.insert e p).nodup
  rcases d.eq_or_eq_opp e with rfl | rfl
  · have horder := Dir.along_append d a.order a.inserted.length
    left
    cases c with
    | none => exact horder
    | some x =>
        obtain ⟨l₁, l₂, hl⟩ := Linked.exists_split (hc x rfl) d
        rw [hl, List.append_assoc, List.cons_append] at horder
        rw [after_eq ok.nodup hl, after_eq hnodup horder]
  · have horder := Dir.along_opp_append e a.order a.inserted.length
    right
    cases c with
    | none => exact .inl horder
    | some x =>
        obtain ⟨l₁, l₂, hl⟩ := Linked.exists_split (hc x rfl) e.opp
        rw [hl, ← List.cons_append] at horder
        right
        rw [after_eq ok.nodup hl, after_eq hnodup horder]

end Pinned

namespace Watch

variable {P : ℕ → Bool} {d e : Dir} {K V : List ℕ} {c : Ptr} {a b : Pinned D F} {p : D} {x y : ℕ}

theorem start (a : Pinned D F) : Watch P d ((d.along a.order).filter P) none [] a :=
  ⟨rfl, List.nodup_nil, by simp, by simp⟩

theorem congr (h : Watch P d K c V a) (hafter : b.after d c = a.after d c)
    (hlength : a.inserted.length = b.inserted.length) : Watch P d K c V b :=
  ⟨hafter ▸ h.filter_eq, h.nodup, hafter ▸ h.behind, fun y hy => hlength ▸ h.lt y hy⟩

/-- A node without interest comes. -/
theorem insert (h : Watch P d K c V a) (ok : a.Ok) (hc : ∀ y ∈ c, y ∈ a.order)
    (hnew : P a.inserted.length = false) : Watch P d K c V (a.insert e p) := by
  have hbehind : a.inserted.length ∉ V := fun hmem => Nat.lt_irrefl _ (h.lt _ hmem)
  have hlt : ∀ y ∈ V, y < (a.insert e p).inserted.length := by
    intro y hy
    have := h.lt y hy
    simp only [Pinned.insert, List.length_append, List.length_singleton]
    omega
  have hne : ∀ y ∈ V, y ≠ a.inserted.length := fun y hy heq => hbehind (heq ▸ hy)
  rcases Pinned.after_insert (e := e) (p := p) (d := d) ok hc with hafter | hafter | hafter
  · refine ⟨?_, h.nodup, fun y hy => ?_, hlt⟩
    · rw [hafter, List.filter_append, List.filter_singleton, hnew]
      simpa using h.filter_eq
    · simpa [hafter, hne y hy] using h.behind y hy
  · refine ⟨?_, h.nodup, fun y hy => ?_, hlt⟩
    · rw [hafter, List.filter_cons_of_neg (by simp [hnew])]
      exact h.filter_eq
    · simpa [hafter, hne y hy] using h.behind y hy
  · exact ⟨hafter ▸ h.filter_eq, h.nodup, hafter ▸ h.behind, hlt⟩

/-- A node without interest leaves. -/
theorem collect (h : Watch P d K c V a) (hnodup : a.order.Nodup)
    (hc : ∀ y ∈ c, y ∈ a.order) (hpinned : ∀ y ∈ c, 0 < a.pins y)
    (hkeep : ∀ y, P y = true → y ∈ (a.collect x).order) : Watch P d K c V (a.collect x) := by
  by_cases hleave : a.marked x = true ∧ a.pins x = 0
  · have hcx : c ≠ some x := by
      rintro rfl
      have := hpinned x rfl
      omega
    have hafter : (a.collect x).after d c = (a.after d c).filter (· ≠ x) := by
      rw [Pinned.after_collect hnodup hc hcx, if_pos hleave]
    have hx : P x = false := by
      rw [← Bool.not_eq_true]
      intro hPx
      have hmem := hkeep x hPx
      simp [Pinned.collect, if_pos hleave] at hmem
    have hfilter : ((a.after d c).filter (· ≠ x)).filter P = (a.after d c).filter P := by
      rw [List.filter_filter]
      apply List.filter_congr
      intro y _
      by_cases hyx : y = x <;> simp [hyx, hx]
    refine ⟨?_, h.nodup, fun y hy => ?_, fun y hy => ?_⟩
    · rw [hafter, hfilter, h.filter_eq]
    · rw [hafter]
      exact fun hmem => h.behind y hy (List.mem_of_mem_filter hmem)
    · rw [Pinned.inserted_collect]
      exact h.lt y hy
  · rwa [Pinned.collect_of_not hleave]

/-- An iterator leaves a node. -/
theorem unpin {w : Ptr} (h : Watch P d K c V a) (hnodup : a.order.Nodup)
    (hc : ∀ y ∈ c, y ∈ a.order) (hpinned : ∀ y ∈ c, 0 < (a.unpin w).pins y)
    (hkeep : ∀ y, P y = true → y ∈ (a.unpin w).order) : Watch P d K c V (a.unpin w) := by
  cases w with
  | none => exact h
  | some x =>
      let b : Pinned D F := { a with pins := Function.update a.pins x (a.pins x - 1) }
      have hb : Watch P d K c V b := h.congr rfl rfl
      have hpins : (a.unpin (some x)).pins = b.pins := Pinned.pins_collect
      rw [hpins] at hpinned
      exact hb.collect hnodup hc hpinned hkeep

/-- Somebody else makes a step. -/
theorem apply (h : Watch P d K c V a) (ok : a.Ok) {op : Op D F} (hc : ∀ y ∈ c, y ∈ a.order)
    (hpinned : ∀ y ∈ c, 0 < (op.apply a).pins y) (hnew : P a.inserted.length = false)
    (hkeep : ∀ y, P y = true → y ∈ (op.apply a).order) : Watch P d K c V (op.apply a) := by
  cases op with
  | insert e p => exact h.insert ok hc hnew
  | read x => exact h
  | leave x => exact h.unpin ok.nodup hc hpinned hkeep
  | walk e w =>
      have hpin : Watch P d K c V (a.pin (a.following e w)) :=
        h.congr Pinned.after_pin (by rw [Pinned.inserted_pin])
      exact hpin.unpin (by simpa using ok.nodup) (by simpa using hc) hpinned hkeep
  | remove x fr =>
      let b : Pinned D F := { a with removed := (x, fr) :: a.removed }
      have hb : Watch P d K c V b := h.congr rfl rfl
      have hpins : ((Op.remove x fr).apply a).pins = b.pins := Pinned.pins_collect
      rw [hpins] at hpinned
      exact hb.collect ok.nodup hc hpinned hkeep

/-- The iterator goes to the next node. -/
theorem visit (h : Watch P d K c V a) (ok : a.Ok) (hc : ∀ y ∈ c, y ∈ a.order)
    (hmarked : ∀ y, P y = true → a.marked y = false) (hy : a.following d c = some y) :
    Watch P d K (some y) (V ++ [y]) a := by
  obtain ⟨m₁, hafter, hm₁⟩ := Pinned.after_following ok hc hy
  have hskip : m₁.filter P = [] := by
    rw [List.filter_eq_nil_iff]
    intro z hz hPz
    exact Bool.false_ne_true ((hmarked z hPz).symm.trans (hm₁ z hz))
  have hmem : ∀ z ∈ some y, z ∈ a.order := by
    rintro z ⟨⟩
    exact (Pinned.mem_of_following hy).1
  have hahead : y ∉ a.after d (some y) := Pinned.notMem_after ok.nodup hmem rfl
  have hbehind : ∀ z ∈ V, z ∉ m₁ ++ y :: a.after d (some y) := hafter ▸ h.behind
  refine ⟨?_, ?_, fun z hz => ?_, fun z hz => ?_⟩
  · calc (V ++ [y]).filter P ++ (a.after d (some y)).filter P
        = V.filter P ++ (m₁ ++ y :: a.after d (some y)).filter P := by
          rw [List.filter_append, List.filter_append, hskip, List.nil_append,
            List.append_assoc, ← List.filter_append, List.singleton_append]
      _ = K := by rw [← hafter, h.filter_eq]
  · rw [List.nodup_append]
    refine ⟨h.nodup, List.nodup_singleton y, ?_⟩
    rintro z hz w hw rfl
    rw [List.mem_singleton] at hw
    exact hbehind z hz (by simp [hw])
  · rcases List.mem_append.mp hz with hz | hz
    · exact fun hmem => hbehind z hz (by simp [hmem])
    · rwa [List.mem_singleton.mp hz]
  · rcases List.mem_append.mp hz with hz | hz
    · exact h.lt z hz
    · rw [List.mem_singleton.mp hz]
      exact ok.lt (Pinned.mem_of_following hy).1

/-- At the end all nodes of interest have been visited. -/
theorem finish (h : Watch P d K c V a) (hmarked : ∀ y, P y = true → a.marked y = false)
    (hnone : a.following d c = none) : V.filter P = K := by
  have hskip : (a.after d c).filter P = [] := by
    rw [List.filter_eq_nil_iff]
    intro z hz hPz
    have hz' := List.find?_eq_none.mp hnone z hz
    rw [hmarked z hPz] at hz'
    exact hz' rfl
  rw [← h.filter_eq, hskip, List.append_nil]

end Watch

/-! ## Runs -/

/-- What the calls of `list_next` and `list_prev` have given to a client. -/
def visits [DecidableEq ι] (i : ι) (tr : List (Event ι D)) : List Ptr :=
  tr.filterMap fun
    | .visited j _ c => if j = i then some c else none
    | _ => none

/-- The client that makes the step. -/
def Action.agent : Action ι D F → Option ι
  | insert _ _ => none
  | remove _ _ => none
  | call i _ => some i
  | resume i => some i

variable [DecidableEq ι]

theorem visits_append (i : ι) (tr es : List (Event ι D)) :
    visits i (tr ++ es) = visits i tr ++ visits i es := List.filterMap_append

variable [DecidableEq D]

/-- The others see nothing of a client's visits. -/
theorem Task.visits_reply {i j : ι} {t t' : Task D} {r : Reply D} {es : List (Event ι D)}
    (hij : j ≠ i) (hreply : t.reply j r = some (t', es)) : visits i es = [] := by
  cases t
  case walking => cases hreply
  case finding | deleting =>
    cases hnode : r.node <;> simp only [reply, hnode] at hreply <;> cases hreply <;> rfl
  case taking | matching =>
    obtain ⟨q, -, heq⟩ := Option.map_eq_some_iff.mp hreply
    cases heq
    rfl
  case stepping =>
    cases hreply
    simp [visits, hij]
  all_goals
    cases hreply
    rfl

namespace Sys

section Moves

variable {s t : Sys ι D F} {a b : Pinned D F} {act : Action ι D F} {i : ι} {d : Dir} {c : Ptr}

theorem Move.exists_op (h : s.Move a act t b) : ∃ op : Op D F, b = op.apply a := by
  cases h with
  | insert d p m => exact ⟨.insert d p, rfl⟩
  | remove x fr m hx => exact ⟨.remove x fr, rfl⟩
  | @advance _ _ _ _ op _ _ _ _ _ _ _ => exact ⟨op, rfl⟩

theorem Move.exists_trace (h : s.Move a act t b) : ∃ es, t.trace = s.trace ++ es := by
  cases h with
  | insert d p m => exact ⟨[], (List.append_nil _).symm⟩
  | remove x fr m hx => exact ⟨_, rfl⟩
  | advance => exact ⟨_, rfl⟩

/-- A step of another client. -/
theorem Move.other (h : s.Move a act t b) (hagent : act.agent ≠ some i) :
    t.task i = s.task i ∧ visits i t.trace = visits i s.trace := by
  cases h with
  | insert d p m => exact ⟨rfl, rfl⟩
  | remove x fr m hx => exact ⟨rfl, by simp [visits]⟩
  | @advance _ j task task' op es m hruns hstart hop safe hreply =>
      have hj : act.agent = some j := by
        cases act with
        | insert | remove => cases hruns
        | call k call =>
            obtain ⟨_, -, heq⟩ := Option.map_eq_some_iff.mp hruns
            cases heq
            rfl
        | resume k =>
            cases hruns
            rfl
      have hij : j ≠ i := fun heq => hagent (heq ▸ hj)
      refine ⟨Function.update_of_ne hij.symm _ _, ?_⟩
      rw [visits_append, Task.visits_reply hij hreply, List.append_nil]

/-- A client's own call of `list_next` or `list_prev`. -/
theorem Move.walk (h : s.Move a (.call i (.walk d)) t b) (htask : s.task i = .walking c) :
    b = (a.walk d c).2 ∧ t.task i = .walking (a.following d c) ∧
      visits i t.trace = visits i s.trace ++ [a.following d c] := by
  cases h with
  | @advance _ j task task' op es m hruns hstart hop safe hreply =>
      simp only [Action.runs, htask, Call.start, Option.map_some] at hruns
      cases hruns
      cases hop
      cases hreply
      refine ⟨rfl, Function.update_self _ _ _, ?_⟩
      rw [visits_append]
      simp [visits, Op.answer]

end Moves

variable [Fintype ι] {s t : Sys ι D F} {a : Pinned D F} {i : ι} {d : Dir} {c : Ptr}
  {bs : List (Action ι D F)} {P : ℕ → Bool} {K V W : List ℕ}

/-- A run adds to what a client has visited. -/
theorem Inv.exists_visits (h : s.Inv a) (hvalid : (clients ι D F).Valid s bs)
    (hexec : (clients ι D F).exec s bs = some t) (i : ι) :
    ∃ W, visits i t.trace = visits i s.trace ++ W := by
  induction bs generalizing s a with
  | nil =>
      obtain rfl : s = t := Option.some.inj hexec
      exact ⟨[], (List.append_nil _).symm⟩
  | cons act bs ih =>
      obtain ⟨u, b, hstep, hmove, hu⟩ := h.step hvalid.1
      rw [Machine.exec_cons_of_step hstep] at hexec
      obtain ⟨W, hW⟩ := ih hu (hvalid.2 u hstep) hexec
      obtain ⟨es, hes⟩ := hmove.exists_trace
      exact ⟨visits i es ++ W, by rw [hW, hes, visits_append, List.append_assoc]⟩

/-- The watch goes on until the walk comes to its end. -/
theorem Inv.watch (h : s.Inv a) (hvalid : (clients ι D F).Valid s bs)
    (hexec : (clients ι D F).exec s bs = some t) (htask : s.task i = .walking c)
    (honly : ∀ act ∈ bs, act.agent = some i → act = .call i (.walk d))
    (hpresent : ∀ x, P x = true → (clients ι D F).AllStates (·.mem.Present x) s bs)
    (hwatch : Watch P d K c V a)
    (hvisits : visits i t.trace = visits i s.trace ++ W.map some ++ [none]) :
    (V ++ W).Nodup ∧ (V ++ W).filter P = K := by
  induction bs generalizing s a c V W with
  | nil =>
      obtain rfl : s = t := Option.some.inj hexec
      have hlength := congrArg List.length hvisits
      simp at hlength
  | cons act bs ih =>
      obtain ⟨u, b, hstep, hmove, hu⟩ := h.step hvalid.1
      rw [Machine.exec_cons_of_step hstep] at hexec
      have hvalid' := hvalid.2 u hstep
      have hpresent' := fun x hx => (hpresent x hx).2 u hstep
      have hnow : ∀ x, P x = true → x ∈ a.order ∧ a.marked x = false :=
        fun x hx => h.present_iff.mp (hpresent x hx).1
      have hnext : ∀ x, P x = true → x ∈ b.order := fun x hx =>
        (hu.present_iff.mp (hpresent' x hx).head).1
      have hnew : P a.inserted.length = false := by
        rw [← Bool.not_eq_true]
        exact fun hP => Nat.lt_irrefl _ (h.ok.lt (hnow _ hP).1)
      have hparked : s.parked i = c := by rw [parked, htask, Task.pinned]
      have hc : ∀ y ∈ c, y ∈ a.order := fun y hy => h.ok.mem_of_pinned (h.pinned (hparked ▸ hy))
      have honly' := fun act hact => honly act (List.mem_cons_of_mem _ hact)
      by_cases hagent : act.agent = some i
      · -- the walk moves on
        obtain rfl := honly act List.mem_cons_self hagent
        obtain ⟨rfl, htask', hvisits'⟩ := hmove.walk htask
        obtain ⟨E, hE⟩ := hu.exists_visits hvalid' hexec i
        have hmarked : ∀ x, P x = true → a.marked x = false := fun x hx => (hnow x hx).2
        have hrest : W.map some ++ [none] = a.following d c :: E := by
          rw [hE, hvisits', List.append_assoc, List.append_assoc] at hvisits
          exact (List.append_cancel_left hvisits).symm
        cases hfollowing : a.following d c with
        | none =>
            cases W with
            | nil =>
                rw [List.append_nil]
                exact ⟨hwatch.nodup, hwatch.finish hmarked hfollowing⟩
            | cons z W => simp [hfollowing] at hrest
        | some y =>
            cases W with
            | nil => simp [hfollowing] at hrest
            | cons z W =>
                rw [hfollowing] at hrest htask' hvisits'
                obtain rfl : z = y := by simpa using (List.cons.inj hrest).1
                have hparked' : u.parked i = some z := by rw [parked, htask', Task.pinned]
                have hmem : ∀ y ∈ some z, y ∈ a.order := by
                  rintro y ⟨⟩
                  exact (Pinned.mem_of_following hfollowing).1
                have hpinned : ∀ y ∈ some z, 0 < ((Op.walk d c).apply a).pins y :=
                  fun y hy => hu.pinned (hparked'.trans hy)
                have hwatch' := (hwatch.visit h.ok hc hmarked hfollowing).apply h.ok hmem hpinned
                  hnew hnext
                have hvisits'' : visits i t.trace = visits i u.trace ++ W.map some ++ [none] := by
                  rw [hvisits, hvisits']
                  simp
                have hall := ih hu hvalid' hexec htask' honly' hpresent' hwatch' hvisits''
                rwa [List.append_assoc, List.singleton_append] at hall
      · obtain ⟨htask', hvisits'⟩ := hmove.other hagent
        obtain ⟨op, rfl⟩ := hmove.exists_op
        have hparked' : u.parked i = c := by rw [parked, htask', htask, Task.pinned]
        have hpinned : ∀ y ∈ c, 0 < (op.apply a).pins y := fun y hy => hu.pinned (hparked' ▸ hy)
        apply ih hu hvalid' hexec (htask'.trans htask) honly' hpresent'
        · exact hwatch.apply h.ok hc hpinned hnew hnext
        · rw [hvisits, hvisits']

/-- A call of `list_next` or `list_prev` gives a node that is present before and after
it, or none. -/
theorem Inv.walk_present (h : s.Inv a) (henabled : (Action.call i (.walk d)).enabled s)
    (hstep : s.step (.call i (.walk d)) = some t) {x : ℕ} (htask : t.task i = .walking (some x)) :
    s.mem.Present x ∧ t.mem.Present x := by
  obtain ⟨t', b, hstep', hmove, ht⟩ := h.step henabled
  obtain rfl : t' = t := Option.some.inj (hstep'.symm.trans hstep)
  obtain ⟨c, hc⟩ : ∃ c, s.task i = .walking c := by
    cases htask : s.task i with
    | walking c => exact ⟨c, rfl⟩
    | _ => simp [Action.enabled, Action.op, Action.runs, Call.start, htask] at henabled
  obtain ⟨rfl, htask', -⟩ := hmove.walk hc
  have hx : a.following d c = some x := by simpa [htask'] using htask
  obtain ⟨hmem, hmarked⟩ := Pinned.mem_of_following hx
  have hparked : t'.parked i = some x := by rw [parked, htask, Task.pinned]
  refine ⟨h.present_iff.mpr ⟨hmem, hmarked⟩, ht.present_iff.mpr ⟨?_, ?_⟩⟩
  · exact ht.ok.mem_of_pinned (ht.pinned hparked)
  · rw [Pinned.walk, Pinned.marked_unpin, Pinned.marked_pin, hmarked]

end Sys

variable [Fintype ι]

/-- The nodes present from here on, in every state of the run. -/
abbrev Throughout (s : Sys ι D F) (bs : List (Action ι D F)) (x : ℕ) : Prop :=
  (clients ι D F).AllStates (·.mem.Present x) s bs

/-- A walk from null to null, in any state of any system and with any steps of the
others in between. It visits no node twice and the nodes present throughout once each
and in the order of the list, and each node that it is given is present at that time. -/
theorem traversal (as bs : List (Action ι D F)) (i : ι) (d : Dir) (s : Sys ι D F)
    (hvalid : (clients ι D F).Valid (clients ι D F).init as)
    (hreach : (clients ι D F).exec (clients ι D F).init as = some s)
    (hstart : s.task i = .walking none) (hrun : (clients ι D F).Valid s bs)
    (honly : ∀ act ∈ bs, act.agent = some i → act = .call i (.walk d)) :
    (∃ t, (clients ι D F).exec s bs = some t ∧
      ∀ V : List ℕ, visits i t.trace = visits i s.trace ++ V.map some ++ [none] →
        V.Nodup ∧ V.filter (Throughout s bs ·) = (contents d s.mem).filter (Throughout s bs ·)) ∧
    (clients ι D F).AllSteps (fun s act => act = .call i (.walk d) →
      ∀ t ∈ s.step act, ∀ x, t.task i = .walking (some x) → s.mem.Present x ∧ t.mem.Present x)
      s bs := by
  obtain ⟨s', a, hreach', h, -⟩ := Sys.Inv.new.run hvalid
  obtain rfl : s' = s := Option.some.inj (hreach'.symm.trans hreach)
  have hkeep : ∀ s act, (∃ a, Sys.Inv s a) → (clients ι D F).enabled s act →
      (clients ι D F).enabled s act →
      ∃ t, (clients ι D F).step s act = some t ∧ ∃ a, Sys.Inv t a := by
    rintro s act ⟨a, h⟩ henabled -
    obtain ⟨t, b, hstep, -, ht⟩ := h.step henabled
    exact ⟨t, hstep, b, ht⟩
  constructor
  · obtain ⟨t, b, hexec, -⟩ := h.run hrun
    refine ⟨t, hexec, fun V hvisits => ?_⟩
    have hpresent : ∀ x, decide (Throughout s' bs x) = true → Throughout s' bs x :=
      fun x => of_decide_eq_true
    have hall := h.watch hrun hexec hstart honly hpresent (Watch.start a) hvisits
    rwa [List.nil_append, ← h.refines.contents_eq h.ok] at hall
  · apply Machine.allSteps_of_invariant hkeep _ ⟨a, h⟩ hrun hrun
    rintro s act ⟨a, h⟩ henabled - rfl t hstep x htask
    exact h.walk_present henabled hstep htask

/-- A list of three nodes. -/
def threeNodes : List (Action Bool ℕ ℕ) := [.insert .fwd 10, .insert .fwd 20, .insert .fwd 30]

/-- A walk in the course of which the second node is removed and a node is put in front. -/
def editedWalk : List (Action Bool ℕ ℕ) :=
  [.call false (.walk .fwd), .call true (.walk .fwd), .remove 1 none, .insert .bwd 5,
    .call false (.walk .fwd), .call true .leave, .call false (.walk .fwd)]

/-- The state with three nodes. -/
def ofThreeNodes : Sys Bool ℕ ℕ :=
  ((clients Bool ℕ ℕ).exec (clients Bool ℕ ℕ).init threeNodes).get (by decide)

theorem editedWalk_traversal :
    (∃ t, (clients Bool ℕ ℕ).exec ofThreeNodes editedWalk = some t ∧
      ∀ V : List ℕ, visits false t.trace = visits false ofThreeNodes.trace ++ V.map some ++ [none] →
        V.Nodup ∧ V.filter (Throughout ofThreeNodes editedWalk ·) =
          (contents .fwd ofThreeNodes.mem).filter (Throughout ofThreeNodes editedWalk ·)) ∧
    (clients Bool ℕ ℕ).AllSteps (fun s act => act = .call false (.walk .fwd) →
      ∀ t ∈ s.step act, ∀ x, t.task false = .walking (some x) → s.mem.Present x ∧ t.mem.Present x)
      ofThreeNodes editedWalk :=
  traversal threeNodes editedWalk false .fwd ofThreeNodes (by decide) (Option.some_get _).symm rfl
    (by decide) (by decide)

end ThreeW3.LinkedList
