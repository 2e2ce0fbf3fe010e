/-
# Who is on the list

A player joins `player_list` once, and from then on it has one node there that is not
deleted until its session closes. The sequence that the list refines is not determined by
the list, since the data of nodes that have left are gone; but for the nodes that are still
there any two such sequences agree, so that the sessions can be followed along the moves of
the list.
-/

import ThreeW3.Sessions.Closing

namespace ThreeW3.LinkedList

open ThreeW3.Lib

universe u v w
variable {D : Type u} {F : Type v} {ι : Type w}

/-! ## Sequences of one list -/

/-- Two sequences with the same nodes. -/
structure Agree (a b : Pinned D F) : Prop where
  order : a.order = b.order
  removed : a.removed = b.removed
  data : ∀ x ∈ a.order, a.inserted[x]? = b.inserted[x]?

theorem Sys.Inv.agree [Fintype ι] {s : Sys ι D F} {a b : Pinned D F} (ha : s.Inv a)
    (hb : s.Inv b) : Agree a b := by
  have horder : a.order = b.order :=
    (ha.refines.contents_eq ha.ok .fwd).symm.trans (hb.refines.contents_eq hb.ok .fwd)
  refine ⟨horder, congrArg Ledger.removed (ha.refines.ledger_eq.symm.trans hb.refines.ledger_eq),
    fun x hx => ?_⟩
  have hax : ∀ y ∈ some x, y ∈ a.order := by
    rintro y ⟨⟩
    exact hx
  exact (ha.refines.dataAt_eq ha.ok hax).symm.trans
    (hb.refines.dataAt_eq hb.ok fun y hy => horder ▸ hax y hy)

namespace Agree

variable {a b : Pinned D F} {x : ℕ} (h : Agree a b)

include h

theorem marked : a.marked = b.marked := by
  funext x
  rw [Pinned.marked, Pinned.marked, h.removed]

theorem live : a.live = b.live := by
  rw [Pinned.live, Pinned.live, h.order, h.marked]

theorem ahead (t : Task D) : LinkedList.ahead a t = LinkedList.ahead b t := by
  have hafter : ∀ c, a.after .fwd c = b.after .fwd c := fun c => by
    cases c <;> simp only [Pinned.after, h.order]
  cases t <;> simp only [LinkedList.ahead, Pinned.pending, hafter, h.marked]

theorem data_live (hx : x ∈ a.live) : a.inserted[x]? = b.inserted[x]? :=
  h.data x (Pinned.mem_live.mp hx).1

end Agree

/-- `list_delete_data` has compared the data of the node that it is going to remove. -/
theorem Task.reply_removing [DecidableEq D] {i : ι} {t : Task D} {r : Reply D} {p : D} {x n : ℕ}
    {es : List (Event ι D)} (h : t.reply i r = some (.removing p x n, es)) :
    t = .matching p x n ∧ r.data = some p := by
  cases t with
  | matching p' y m =>
      obtain ⟨q, hq, heq⟩ := Option.map_eq_some_iff.mp h
      split_ifs at heq with hpq
      · cases heq
        exact ⟨rfl, hpq ▸ hq⟩
      · cases heq
  | finding | deleting => cases hnode : r.node <;> simp [reply, hnode] at h
  | walking | stepping | leaving | taking | holding | taken | removing => simp [reply] at h

/-- `list_delete_data` leaves the nodes with other data. -/
theorem Deleting.mem_live {a : Pinned D F} {op : Op D F} {t : Task D} {p : D} {x : ℕ}
    (h : Deleting p t) (hop : t.op = some op)
    (hremoving : ∀ y n, t = .removing p y n → a.inserted[y]? = some p) (hx : x ∈ a.live)
    (hdata : a.inserted[x]? ≠ some p) : x ∈ (op.apply a).live := by
  cases h with
  | ended => cases hop
  | deleting c n =>
      cases hop
      exact Pinned.live_walk (a := a) ▸ hx
  | matching y n =>
      cases hop
      exact hx
  | removing y n =>
      cases hop
      rw [Op.apply, Pinned.live_remove]
      refine List.mem_filter.mpr ⟨hx, decide_eq_true ?_⟩
      rintro rfl
      exact hdata (hremoving x n rfl)

/-- A step that goes through was a step that its caller may make. -/
theorem Sys.enabled_of_step [DecidableEq ι] [DecidableEq D] {s t : Sys ι D F}
    {act : Action ι D F} (hstep : s.step act = some t) : act.enabled s := by
  have hcall : ∀ {r : Option (ι × Task D)}, (r.bind fun r => s.advance r.1 r.2) = some t →
      (r.bind fun r => r.2.op (F := F)).isSome = true := by
    intro r hr
    obtain ⟨q, hq, hadvance⟩ := Option.bind_eq_some_iff.mp hr
    obtain ⟨op, hop, -⟩ := Option.bind_eq_some_iff.mp hadvance
    rw [hq, Option.bind_some, hop]
    rfl
  cases act with
  | insert d p => trivial
  | remove x fr =>
      simp only [Sys.step, Op.run, Option.map_eq_some_iff] at hstep
      obtain ⟨-, ⟨m, hremove, -⟩, -⟩ := hstep
      obtain ⟨m', hmodify, -⟩ := Option.bind_eq_some_iff.mp hremove
      change (s.mem.node.load x).isSome = true
      cases hx : s.mem.node.load x with
      | none => simp [State.modify, Heap.writeThrough, hx] at hmodify
      | some n => rfl
  | call i c => exact hcall hstep
  | resume i => exact hcall (r := some (i, s.task i)) hstep

end ThreeW3.LinkedList

namespace ThreeW3.Sessions

open ThreeW3.Lib ThreeW3.LinkedList

universe u
variable {ι : Type u}

namespace Hall

/-! ## What a step does -/

/-- A step of a session, with the move of the list that it makes. -/
inductive Moved [DecidableEq ι] (s : Hall ι) (a : Pinned ℕ Empty) :
    Act ι → Hall ι → Pinned ℕ Empty → Prop
  | accept (i : ι) (hphase : s.phase i = .absent) :
      Moved s a (.accept i) (s.allocate.enter i (.created s.fresh)) a
  | join (i : ι) (p : ℕ) (l : Sys ι ℕ Empty) (b : Pinned ℕ Empty) (hphase : s.phase i = .created p)
      (hmove : s.list.Move a (.insert .fwd p) l b) :
      Moved s a (.join i) (enter { s with list := l } i (.member p .starting)) b
  | assign (act : Act ι) (i : ι) (p : ℕ) (r r' : Player ι) (busy : Activity ι)
      (hphase : s.phase i = .member p busy) (hbusy : busy = .starting ∨ busy = .idle)
      (hr : s.player.load p = some r) (hact : act = .start i ∨ ∃ name, act = .login i name) :
      Moved s a act (enter { s with player := s.player.store p r' } i (.member p .idle)) a
  | who (i : ι) (p : ℕ) (hphase : s.phase i = .member p .idle) :
      Moved s a (.who i) (s.enter i (.member p .stepping)) a
  | next (i : ι) (p : ℕ) (l : Sys ι ℕ Empty) (b : Pinned ℕ Empty)
      (hphase : s.phase i = .member p .stepping) (hmove : s.list.Move a (.call i (.walk .fwd)) l b) :
      Moved s a (.resume i) (enter { s with list := l } i (.member p .scanning)) b
  | ended (i : ι) (p : ℕ) (hphase : s.phase i = .member p .scanning)
      (htask : s.list.task i = .walking none) :
      Moved s a (.resume i) (s.enter i (.member p .idle)) a
  | found (i : ι) (p x q : ℕ) (hphase : s.phase i = .member p .scanning)
      (htask : s.list.task i = .walking (some x)) (hq : nodeData x s.list.mem = some q) :
      Moved s a (.resume i) (s.enter i (.member p (.looking q))) a
  | looked (i : ι) (p q : ℕ) (r : Player ι) (hphase : s.phase i = .member p (.looking q))
      (hr : s.player.load q = some r) :
      Moved s a (.resume i)
        (s.enter i (.member p (if r.loggedIn then .listing q else .stepping))) a
  | listed (i : ι) (p q : ℕ) (r : Player ι) (hphase : s.phase i = .member p (.listing q))
      (hr : s.player.load q = some r) :
      Moved s a (.resume i) (s.enter i (.member p (.naming q r.thread))) a
  | named (i : ι) (p q : ℕ) (th : Option ι) (r : Player ι)
      (hphase : s.phase i = .member p (.naming q th)) (hr : s.player.load q = some r) :
      Moved s a (.resume i)
        (enter { s with shown := s.shown ++ [(i, r.name, th)] } i (.member p .stepping)) a
  | close (i : ι) (p : ℕ) (l : Sys ι ℕ Empty) (b : Pinned ℕ Empty)
      (hclose : (s.phase i).mayClose = some p)
      (hmove : s.list.Move a (.call i (.deleteData p)) l b) :
      Moved s a (.close i) (enter { s with list := l } i (.closing p)) b
  | closeOn (i : ι) (p : ℕ) (l : Sys ι ℕ Empty) (b : Pinned ℕ Empty)
      (hphase : s.phase i = .closing p) (hmove : s.list.Move a (.resume i) l b) :
      Moved s a (.resume i) (enter { s with list := l } i (.closing p)) b
  | freed (i : ι) (p : ℕ) (hphase : s.phase i = .closing p)
      (htask : s.list.task i = .walking none) :
      Moved s a (.resume i) (enter { s with player := s.player.free p } i .absent) a

variable [Fintype ι] {s t : Hall ι} {a b : Pinned ℕ Empty} {act : Act ι} {i : ι} {p : ℕ}

/-- The sessions are in order with any sequence of their list. -/
theorem Inv.congr (h : s.Inv b) (ha : s.list.Inv a) : s.Inv a := by
  have hagree := h.list.agree ha
  have hparked : ∀ j x, s.list.parked j = some x → b.inserted[x]? = a.inserted[x]? := fun j x hx =>
    hagree.data x (h.list.ok.mem_of_pinned (h.list.pinned hx))
  refine ⟨ha, h.owned, h.apart, h.lt_fresh, fun i => ?_, fun x hx p hp => ?_, fun j x hx q hq => ?_⟩
  · have hfits := h.fits i
    have hread : ∀ q, (∃ x, s.list.task i = .walking (some x) ∧ b.inserted[x]? = some q) →
        ∃ x, s.list.task i = .walking (some x) ∧ a.inserted[x]? = some q := by
      rintro q ⟨x, htask, hx⟩
      refine ⟨x, htask, (hparked i x ?_).symm.trans hx⟩
      rw [Sys.parked, htask]
      rfl
    cases hphase : s.phase i with
    | absent | created | closing =>
        rw [hphase] at hfits
        exact hfits
    | member p act =>
        rw [hphase] at hfits
        cases act with
        | starting | idle | stepping | scanning => exact hfits
        | looking q | listing q | naming q => exact hread q hfits
  · rw [← hagree.live] at hx
    rw [← hagree.data_live hx] at hp
    obtain ⟨j, hj⟩ := h.listed x hx p hp
    refine ⟨j, ?_⟩
    cases hphase : s.phase j with
    | absent | created | member =>
        rw [hphase] at hj
        exact hj
    | closing p' =>
        rw [hphase] at hj
        exact ⟨hj.1, hagree.ahead _ ▸ hj.2⟩
  · rw [← hparked j x hx] at hq
    exact h.parked j x hx q hq

variable [DecidableEq ι]

/-- A step on the list is a move of any sequence of the list. -/
theorem Inv.follow (h : s.Inv a) (ht : t.Inv b) {la : Action ι ℕ Empty}
    (hl : s.list.step la = some t.list) : ∃ b, s.list.Move a la t.list b ∧ t.Inv b := by
  obtain ⟨l, b', hl', hmove, hinv⟩ := h.list.step (Sys.enabled_of_step hl)
  obtain rfl : t.list = l := Option.some.inj (hl.symm.trans hl')
  exact ⟨b', hmove, ht.congr hinv⟩

theorem Inv.follow_onList (h : s.Inv a) (ht : t.Inv b) {la : Action ι ℕ Empty} {φ : Phase ι}
    (hstep : s.onList i la φ = some t) : ∃ l b', t = Hall.enter { s with list := l } i φ ∧
      s.list.Move a la l b' ∧ t.Inv b' := by
  obtain ⟨l, hl, rfl⟩ := Option.map_eq_some_iff.mp hstep
  obtain ⟨b', hmove, hinv⟩ := h.follow (t := Hall.enter { s with list := l } i φ) ht hl
  exact ⟨l, b', rfl, hmove, hinv⟩

/-- Every step of sessions in order is one of these. -/
theorem Inv.moved (h : s.Inv a) (henabled : (s.phase act.session).allows act = true)
    (hguard : act.Unlinked s) : ∃ t b, s.step act = some t ∧ s.Moved a act t b ∧ t.Inv b := by
  obtain ⟨t, b, hstep, ht⟩ := h.step henabled hguard
  refine ⟨t, ?_⟩
  have hsame : t.list = s.list → t.Inv a := fun hlist => ht.congr (hlist ▸ h.list)
  cases act with
  | accept i =>
      cases hphase : s.phase i with
      | absent =>
          cases hstep
          exact ⟨a, rfl, .accept i hphase, hsame rfl⟩
      | created | member | closing => simp [Act.session, hphase, Phase.allows] at henabled
  | join i =>
      cases hphase : s.phase i with
      | created p =>
          have hon := hstep
          simp only [Hall.step, hphase] at hon
          obtain ⟨l, b', rfl, hmove, hinv⟩ := h.follow_onList ht hon
          exact ⟨b', hstep, .join i p l b' hphase hmove, hinv⟩
      | absent | member | closing => simp [Act.session, hphase, Phase.allows] at henabled
  | start i =>
      cases hphase : s.phase i with
      | absent | created | closing => simp [Act.session, hphase, Phase.allows] at henabled
      | member p act =>
          cases act with
          | starting =>
              have hassign := hstep
              simp only [Hall.step, hphase, Hall.assign, Option.map_map,
                Option.map_eq_some_iff] at hassign
              obtain ⟨r, hr, rfl⟩ := hassign
              exact ⟨a, hstep, .assign _ i p r _ _ hphase (.inl rfl) hr (.inl rfl), hsame rfl⟩
          | _ => simp [Act.session, hphase, Phase.allows] at henabled
  | login i name =>
      cases hphase : s.phase i with
      | absent | created | closing => simp [Act.session, hphase, Phase.allows] at henabled
      | member p act =>
          cases act with
          | idle =>
              have hassign := hstep
              simp only [Hall.step, hphase, Hall.assign, Option.map_map,
                Option.map_eq_some_iff] at hassign
              obtain ⟨r, hr, rfl⟩ := hassign
              exact ⟨a, hstep, .assign _ i p r _ _ hphase (.inr rfl) hr (.inr ⟨name, rfl⟩),
                hsame rfl⟩
          | _ => simp [Act.session, hphase, Phase.allows] at henabled
  | who i =>
      cases hphase : s.phase i with
      | absent | created | closing => simp [Act.session, hphase, Phase.allows] at henabled
      | member p act =>
          cases act with
          | idle =>
              simp only [Hall.step, hphase, Option.some.injEq] at hstep ⊢
              subst hstep
              exact ⟨a, rfl, .who i p hphase, hsame rfl⟩
          | _ => simp [Act.session, hphase, Phase.allows] at henabled
  | close i =>
      cases hclose : (s.phase i).mayClose with
      | none => simp [Act.session, hclose, Phase.allows] at henabled
      | some p =>
          have hon := hstep
          simp only [Hall.step, hclose, Option.bind_some] at hon
          obtain ⟨l, b', rfl, hmove, hinv⟩ := h.follow_onList ht hon
          exact ⟨b', hstep, .close i p l b' hclose hmove, hinv⟩
  | resume i =>
      cases hphase : s.phase i with
      | absent | created => simp [Act.session, hphase, Phase.allows] at henabled
      | closing p =>
          have hon := hstep
          simp only [Hall.step, hphase, Hall.resumeClose] at hon
          split_ifs at hon with hover
          · obtain ⟨r, hr, rfl⟩ := Option.map_eq_some_iff.mp hon
            exact ⟨a, hstep, .freed i p hphase hover, hsame rfl⟩
          · obtain ⟨l, b', rfl, hmove, hinv⟩ := h.follow_onList ht hon
            exact ⟨b', hstep, .closeOn i p l b' hphase hmove, hinv⟩
      | member p act =>
          have hon := hstep
          simp only [Hall.step, hphase] at hon
          cases act with
          | starting | idle => cases hon
          | stepping =>
              obtain ⟨l, b', rfl, hmove, hinv⟩ := h.follow_onList ht hon
              exact ⟨b', hstep, .next i p l b' hphase hmove, hinv⟩
          | scanning =>
              simp only [Hall.resumeWho] at hon
              split at hon
              · case h_1 htask =>
                  cases hon
                  exact ⟨a, hstep, .ended i p hphase htask, hsame rfl⟩
              · case h_2 x htask =>
                  obtain ⟨q, hq, rfl⟩ := Option.map_eq_some_iff.mp hon
                  exact ⟨a, hstep, .found i p x q hphase htask hq, hsame rfl⟩
              · cases hon
          | looking q =>
              obtain ⟨r, hr, rfl⟩ := Option.map_eq_some_iff.mp hon
              exact ⟨a, hstep, .looked i p q r hphase hr, hsame rfl⟩
          | listing q =>
              obtain ⟨r, hr, rfl⟩ := Option.map_eq_some_iff.mp hon
              exact ⟨a, hstep, .listed i p q r hphase hr, hsame rfl⟩
          | naming q th =>
              obtain ⟨r, hr, rfl⟩ := Option.map_eq_some_iff.mp hon
              exact ⟨a, hstep, .named i p q th r hphase hr, hsame rfl⟩

/-! ## One node for each player -/

/-- No player has joined twice, those that have not joined are not among those that have,
and the player of a session on the list has a node that is not deleted. -/
structure Roster (s : Hall ι) (a : Pinned ℕ Empty) : Prop where
  nodup : a.inserted.Nodup
  lt : ∀ q ∈ a.inserted, q < s.fresh
  created : ∀ i p, s.phase i = .created p → p ∉ a.inserted
  member : ∀ i p act, s.phase i = .member p act → ∃ x ∈ a.live, a.inserted[x]? = some p
  /-- `list_delete_data` removes nodes with its data only. -/
  removing : ∀ i p x n, s.list.task i = .removing p x n → a.inserted[x]? = some p

omit [Fintype ι] in
theorem phase_enter {i j : ι} {φ ψ : Phase ι} (h : (s.enter i φ).phase j = ψ) :
    (j = i ∧ φ = ψ) ∨ (j ≠ i ∧ s.phase j = ψ) := by
  change Function.update s.phase i φ j = ψ at h
  by_cases hji : j = i
  · subst hji
    rw [Function.update_self] at h
    exact .inl ⟨rfl, h⟩
  · rw [Function.update_of_ne hji] at h
    exact .inr ⟨hji, h⟩

omit [Fintype ι] [DecidableEq ι] in
theorem Roster.new : Roster (.new : Hall ι) Pinned.new :=
  ⟨List.nodup_nil, by simp [Pinned.new], by simp [Hall.new], by simp [Hall.new],
    by simp [Hall.new, Sys.new]⟩

omit [Fintype ι] [DecidableEq ι] in
/-- Nobody joins. -/
theorem Roster.still (hr : s.Roster a) (hinserted : b.inserted = a.inserted)
    (hfresh : s.fresh ≤ t.fresh)
    (hcreated : ∀ j p, t.phase j = .created p → s.phase j = .created p ∨ p ∉ a.inserted)
    (hmember : ∀ j p act, t.phase j = .member p act → (∃ act', s.phase j = .member p act') ∧
      ∀ x ∈ a.live, a.inserted[x]? = some p → x ∈ b.live)
    (hremoving : ∀ j p x n, t.list.task j = .removing p x n → a.inserted[x]? = some p) :
    t.Roster b := by
  refine ⟨hinserted ▸ hr.nodup, fun q hq => ?_, fun j p hp => ?_, fun j p act hp => ?_,
    fun j p x n hx => ?_⟩
  · exact lt_of_lt_of_le (hr.lt q (hinserted ▸ hq)) hfresh
  · rw [hinserted]
    exact (hcreated j p hp).elim (hr.created j p) id
  · obtain ⟨⟨act', hact'⟩, hlive⟩ := hmember j p act hp
    obtain ⟨x, hx, hdata⟩ := hr.member j p act' hact'
    exact ⟨x, hlive x hx hdata, hinserted ▸ hdata⟩
  · rw [hinserted]
    exact hremoving j p x n hx

omit [Fintype ι] in
/-- A session goes on without the list. -/
theorem Roster.enter (hr : s.Roster a) {i : ι} {φ : Phase ι} (ht : t.list = s.list)
    (hphase : t.phase = Function.update s.phase i φ) (hfresh : s.fresh ≤ t.fresh)
    (hcreated : ∀ p, φ = .created p → p ∉ a.inserted)
    (hmember : ∀ p act, φ = .member p act → ∃ act', s.phase i = .member p act') :
    t.Roster a := by
  have hcases : ∀ {j ψ}, t.phase j = ψ → (j = i ∧ φ = ψ) ∨ (j ≠ i ∧ s.phase j = ψ) :=
    fun {j ψ} h => phase_enter (s := s) (by rw [Hall.enter, ← hphase]; exact h)
  refine hr.still rfl hfresh (fun j p hp => ?_) (fun j p act hp => ?_) (fun j p x n hx => ?_)
  · obtain ⟨-, hφ⟩ | ⟨-, hj⟩ := hcases hp
    · exact .inr (hcreated p hφ)
    · exact .inl hj
  · refine ⟨?_, fun x hx _ => hx⟩
    obtain ⟨rfl, hφ⟩ | ⟨-, hj⟩ := hcases hp
    · exact hmember p act hφ
    · exact ⟨act, hj⟩
  · exact hr.removing j p x n (ht ▸ hx)

omit [Fintype ι] in
/-- A session goes on in a call on the list. -/
theorem Roster.call (hr : s.Roster a) {la : Action ι ℕ Empty} {l : Sys ι ℕ Empty} {φ : Phase ι}
    {task : LinkedList.Task ℕ} (hmove : s.list.Move a la l b) (hruns : la.runs s.list = some (i, task))
    (hcreated : ∀ p, φ ≠ .created p)
    (hmember : ∀ p act, φ = .member p act → ∃ act', s.phase i = .member p act')
    (hlive : ∀ op : Op ℕ Empty, task.op = some op → ∀ j p act,
      (Hall.enter { s with list := l } i φ).phase j = .member p act →
        ∀ x ∈ a.live, a.inserted[x]? = some p → x ∈ (op.apply a).live) :
    (Hall.enter { s with list := l } i φ).Roster b := by
  obtain ⟨op, task', es, hop, hreply, rfl, htask⟩ := hmove.own hruns
  refine hr.still (Task.inserted_apply hop) (Nat.le_refl s.fresh) (fun j p hp => ?_)
    (fun j p act hp => ⟨?_, hlive op hop j p act hp⟩) (fun j p x n hx => ?_)
  · obtain ⟨-, hφ⟩ | ⟨-, hj⟩ := phase_enter hp
    · exact absurd hφ (hcreated p)
    · exact .inl hj
  · obtain ⟨rfl, hφ⟩ | ⟨-, hj⟩ := phase_enter hp
    · exact hmember p act hφ
    · exact ⟨act, hj⟩
  · change l.task j = _ at hx
    rw [htask] at hx
    by_cases hji : j = i
    · subst hji
      rw [Function.update_self] at hx
      subst hx
      obtain ⟨rfl, hdata⟩ := Task.reply_removing hreply
      cases hop
      exact hdata
    · rw [Function.update_of_ne hji] at hx
      exact hr.removing j p x n hx

omit [DecidableEq ι] in
/-- The player of another session is not the one that leaves. -/
theorem Inv.ne_player (h : s.Inv a) {j : ι} {q : ℕ} {act : Activity ι}
    (hi : (s.phase i).player = some p) (hji : j ≠ i) (hj : s.phase j = .member q act) : q ≠ p := by
  rintro rfl
  exact hji (h.apart j i q (by rw [hj]; rfl) hi)

/-- `list_delete_data` of a session that leaves. -/
theorem Roster.delete (hr : s.Roster a) (h : s.Inv a) {la : Action ι ℕ Empty}
    {l : Sys ι ℕ Empty} {task : LinkedList.Task ℕ} (hmove : s.list.Move a la l b)
    (hruns : la.runs s.list = some (i, task)) (hi : (s.phase i).player = some p)
    (hdeleting : Deleting p task)
    (hremoving : ∀ x n, task = .removing p x n → a.inserted[x]? = some p) :
    (Hall.enter { s with list := l } i (.closing p)).Roster b := by
  refine hr.call hmove hruns (by simp) (by simp) fun op hop j q act hj x hx hdata => ?_
  obtain ⟨-, hφ⟩ | ⟨hji, hj⟩ := phase_enter hj
  · cases hφ
  · refine hdeleting.mem_live hop hremoving hx fun hdata' => ?_
    exact h.ne_player hi hji hj (Option.some.inj (hdata.symm.trans hdata'))

/-- Every step keeps the roster. -/
theorem Roster.moved (hr : s.Roster a) (h : s.Inv a) (hmoved : s.Moved a act t b) :
    t.Roster b := by
  cases hmoved with
  | accept i hphase =>
      refine hr.enter rfl rfl (Nat.le_succ s.fresh) (fun p hp hmem => ?_) (by simp)
      cases hp
      exact Nat.lt_irrefl _ (hr.lt _ hmem)
  | join i p l b hphase hmove =>
      have hnew := hr.created i p hphase
      cases hmove with
      | advance m hruns => cases hruns
      | insert d q m =>
          have hmem : ∀ q, q ∈ (a.insert .fwd p).inserted ↔ q ∈ a.inserted ∨ q = p := fun q => by
            simp [Pinned.insert]
          have hlast : (a.insert .fwd p).inserted[a.inserted.length]? = some p := by
            simp [Pinned.insert]
          have hkeep : ∀ x q, a.inserted[x]? = some q →
              ((Op.insert .fwd p).apply a).inserted[x]? = some q := fun x q => Op.getElem?_apply
          refine ⟨?_, fun q hq => ?_, fun j q hq => ?_, fun j q act hq => ?_, fun j q x n hx => ?_⟩
          · exact List.nodup_append.mpr ⟨hr.nodup, List.nodup_singleton p, by grind⟩
          · obtain hq | rfl := (hmem q).mp hq
            · exact hr.lt q hq
            · exact h.lt_fresh q (h.owned i q (by rw [hphase]; rfl))
          · obtain ⟨-, hφ⟩ | ⟨hji, hj⟩ := phase_enter hq
            · cases hφ
            · rw [hmem]
              rintro (hq | rfl)
              · exact hr.created j q hj hq
              · exact hji (h.apart j i q (by rw [hj]; rfl) (by rw [hphase]; rfl))
          · obtain ⟨-, hφ⟩ | ⟨hji, hj⟩ := phase_enter hq
            · cases hφ
              refine ⟨a.inserted.length, ?_, hlast⟩
              rw [Pinned.live_insert h.list.ok, Dir.mem_append]
              exact .inr rfl
            · obtain ⟨x, hx, hdata⟩ := hr.member j q act hj
              refine ⟨x, ?_, hkeep x q hdata⟩
              rw [Pinned.live_insert h.list.ok, Dir.mem_append]
              exact .inl hx
          · exact hkeep x q (hr.removing j q x n hx)
  | assign act i p r r' busy hphase hbusy hload hact =>
      exact hr.enter rfl rfl le_rfl (by simp) fun p' act' heq => by cases heq; exact ⟨_, hphase⟩
  | who i p hphase | ended i p hphase | found i p x q hphase | looked i p q r hphase
    | listed i p q r hphase | named i p q th r hphase =>
      exact hr.enter rfl rfl le_rfl (by simp) fun p' act' heq => by cases heq; exact ⟨_, hphase⟩
  | next i p l b hphase hmove =>
      have hfits := h.fits i
      rw [hphase] at hfits
      obtain ⟨c, htask⟩ := hfits
      have hruns : Action.runs s.list (.call i (.walk .fwd) : Action ι ℕ Empty) =
          some (i, .stepping .fwd c) := by
        simp [Action.runs, htask, Call.start]
      refine hr.call hmove hruns (by simp) (fun p' act' heq => by cases heq; exact ⟨_, hphase⟩) ?_
      intro op hop j q act hj x hx hdata
      cases hop
      exact Pinned.live_walk (a := a) ▸ hx
  | close i p l b hclose hmove =>
      obtain ⟨hplayer, hidle⟩ := Phase.of_mayClose (a := a) (t := s.list.task i) hclose
      have hruns : Action.runs s.list (.call i (.deleteData p) : Action ι ℕ Empty) =
          some (i, .deleting p none 0) := by
        simp [Action.runs, hidle (h.fits i), Call.start]
      exact hr.delete h hmove hruns hplayer (.deleting none 0) (by simp)
  | closeOn i p l b hphase hmove =>
      have hfits := h.fits i
      rw [hphase] at hfits
      exact hr.delete h hmove rfl (by rw [hphase]; rfl) hfits fun x n hx => hr.removing i p x n hx
  | freed i p hphase htask =>
      exact hr.enter rfl rfl le_rfl (by simp) (by simp)

end Hall

end ThreeW3.Sessions
