/-
# Closed players

`player_close` deletes the player from `player_list` and frees it, whether or not
somebody's iterator still keeps the node. A player that is on the list in good standing
belongs to a session, and `list_delete_data` leaves none behind; so a read of a freed
player needs an iterator that was on the node before, and such an iterator shows in the
list: the node of the player is still linked when the player is freed.
-/

import ThreeW3.LinkedList.Deletion
import ThreeW3.Sessions.Model

namespace ThreeW3.Sessions

open ThreeW3.Lib ThreeW3.LinkedList

universe u
variable {ι : Type u}

/-! ## The condition -/

/-- The player that the session frees in its next step. -/
def Hall.frees (s : Hall ι) (i : ι) : Option ℕ :=
  match s.phase i, s.list.task i with
  | .closing p, .walking none => some p
  | _, _ => none

/-- When a player is freed, no node of the list has it as its data. -/
def Act.Unlinked (s : Hall ι) : Act ι → Prop
  | resume i => ∀ p ∈ s.frees i, ∀ x ∈ contents .fwd s.list.mem, nodeData x s.list.mem ≠ some p
  | _ => True

instance Act.decidableUnlinked (s : Hall ι) (act : Act ι) : Decidable (act.Unlinked s) := by
  cases act <;> unfold Act.Unlinked <;> infer_instance

/-- The players on whose nodes iterators are parked have not been freed. -/
def Hall.ParkedAlive (s : Hall ι) : Prop :=
  ∀ i, ∀ x ∈ s.list.parked i, ∀ q ∈ nodeData x s.list.mem, (s.player.load q).isSome = true

instance [Fintype ι] (s : Hall ι) : Decidable s.ParkedAlive :=
  inferInstanceAs (Decidable (∀ i, ∀ x ∈ s.list.parked i, ∀ q ∈ nodeData x s.list.mem, _))
/-! ## Sessions in order -/

namespace Phase

/-- The player of the session. -/
def player : Phase ι → Option ℕ
  | absent => none
  | created p => some p
  | member p _ => some p
  | closing p => some p

end Phase

section Fits

variable (a : Pinned ℕ Empty) (t : LinkedList.Task ℕ)

/-- Where the iterator of the session is. -/
def Activity.Fits : Activity ι → Prop
  | starting => t = .walking none
  | idle => t = .walking none
  | stepping => ∃ c, t = .walking c
  | scanning => ∃ c, t = .walking c
  | looking q => ∃ x, t = .walking (some x) ∧ a.inserted[x]? = some q
  | listing q => ∃ x, t = .walking (some x) ∧ a.inserted[x]? = some q
  | naming q _ => ∃ x, t = .walking (some x) ∧ a.inserted[x]? = some q

def Phase.Fits : Phase ι → Prop
  | absent => t = .walking none
  | created _ => t = .walking none
  | member _ act => act.Fits a t
  | closing p => Deleting p t

/-- The session answers for a node with this player: the player is on the list in good
standing, or `list_delete_data` will still come to the node. -/
def Phase.Lists (p x : ℕ) : Phase ι → Prop
  | absent => False
  | created _ => False
  | member p' _ => p' = p
  | closing p' => p' = p ∧ x ∈ ahead a t

end Fits

theorem Activity.Fits.mono {a b : Pinned ℕ Empty} {t : LinkedList.Task ℕ} {act : Activity ι}
    (h : act.Fits a t) (hdata : ∀ (x q : ℕ), a.inserted[x]? = some q → b.inserted[x]? = some q) :
    act.Fits b t := by
  cases act with
  | starting | idle | stepping | scanning => exact h
  | looking q | listing q | naming q =>
      obtain ⟨x, htask, hx⟩ := h
      exact ⟨x, htask, hdata x q hx⟩

theorem Phase.Fits.mono {a b : Pinned ℕ Empty} {t : LinkedList.Task ℕ} {φ : Phase ι}
    (h : φ.Fits a t) (hdata : ∀ (x q : ℕ), a.inserted[x]? = some q → b.inserted[x]? = some q) :
    φ.Fits b t := by
  cases φ with
  | absent | created | closing => exact h
  | member p act => exact Activity.Fits.mono h hdata

theorem Phase.Lists.player_eq {a : Pinned ℕ Empty} {t : LinkedList.Task ℕ} {φ : Phase ι} {p x : ℕ}
    (h : φ.Lists a t p x) : φ.player = some p := by
  cases φ with
  | absent | created => exact h.elim
  | member p' act => exact congrArg some h
  | closing p' => exact congrArg some h.1

/-- A session that may close has its player and no iterator. -/
theorem Phase.of_mayClose {a : Pinned ℕ Empty} {t : LinkedList.Task ℕ} {φ : Phase ι} {p : ℕ}
    (h : φ.mayClose = some p) : φ.player = some p ∧ (φ.Fits a t → t = .walking none) := by
  cases φ with
  | absent | closing => cases h
  | created p' => exact ⟨h, id⟩
  | member p' act =>
      cases act with
      | starting | idle => exact ⟨h, id⟩
      | stepping | scanning | looking | listing | naming => cases h

namespace Hall

/-- A session frees a player only when its call of `list_delete_data` is over. -/
theorem of_frees {s : Hall ι} {i : ι} {p : ℕ} (h : s.frees i = some p) :
    s.phase i = .closing p ∧ s.list.task i = .walking none := by
  unfold frees at h
  split at h
  · case h_1 hphase htask =>
      cases h
      exact ⟨hphase, htask⟩
  · cases h

/-- The list refines a pinned sequence; each session has a player of its own and its
iterator where its steps have taken it; and for every node that is not deleted a session
answers, for every node with an iterator on it the player is there. -/
structure Inv [Fintype ι] (s : Hall ι) (a : Pinned ℕ Empty) : Prop where
  list : s.list.Inv a
  owned : ∀ i p, (s.phase i).player = some p → (s.player.load p).isSome = true
  apart : ∀ i j p, (s.phase i).player = some p → (s.phase j).player = some p → i = j
  lt_fresh : ∀ p, (s.player.load p).isSome = true → p < s.fresh
  fits : ∀ i, (s.phase i).Fits a (s.list.task i)
  listed : ∀ x ∈ a.live, ∀ p, a.inserted[x]? = some p →
    ∃ i, (s.phase i).Lists a (s.list.task i) p x
  parked : ∀ i, ∀ x ∈ s.list.parked i, ∀ q, a.inserted[x]? = some q →
    (s.player.load q).isSome = true

variable [Fintype ι] {s : Hall ι} {a : Pinned ℕ Empty} {i : ι} {p q x : ℕ}

theorem Inv.new : Inv (.new : Hall ι) Pinned.new where
  list := .new
  owned _ _ h := by cases h
  apart _ _ _ h := by cases h
  lt_fresh p h := by simp [Hall.new] at h
  fits _ := rfl
  listed _ hx := by cases hx
  parked _ _ hx := by cases hx

theorem Inv.nodeData (h : s.Inv a) (hx : x ∈ a.order) :
    nodeData x s.list.mem = a.inserted[x]? := by
  have hmem : ∀ y ∈ some x, y ∈ a.order := by
    rintro y ⟨⟩
    exact hx
  exact h.list.refines.dataAt_eq h.list.ok hmem

theorem Inv.parkedAlive (h : s.Inv a) : s.ParkedAlive := by
  intro i x hx q hq
  rw [h.nodeData (h.list.ok.mem_of_pinned (h.list.pinned hx))] at hq
  exact h.parked i x hx q hq

/-- A session that has deleted its player answers for no node. -/
theorem Inv.not_lists (h : s.Inv a) (hphase : s.phase i = .closing p)
    (hover : s.list.task i = .walking none) {x : ℕ} (hx : x ∈ a.live) :
    a.inserted[x]? ≠ some p := by
  intro hp
  obtain ⟨j, hj⟩ := h.listed x hx p hp
  have hplayer : (s.phase i).player = some p := by rw [hphase]; rfl
  obtain rfl : j = i := h.apart j i p hj.player_eq hplayer
  rw [hphase, hover] at hj
  exact List.not_mem_nil hj.2

/-- One session has made a step: what holds of the others' players, and of its own. -/
theorem Inv.owned_apart (h : s.Inv a) {t : Hall ι} (hphase : ∀ j, j ≠ i → t.phase j = s.phase j)
    (hothers : ∀ j, j ≠ i → ∀ p, (s.phase j).player = some p → (t.player.load p).isSome = true)
    (hself : ∀ p, (t.phase i).player = some p →
      (t.player.load p).isSome = true ∧ ∀ j, j ≠ i → (s.phase j).player ≠ some p) :
    (∀ j p, (t.phase j).player = some p → (t.player.load p).isSome = true) ∧
      ∀ j k p, (t.phase j).player = some p → (t.phase k).player = some p → j = k := by
  constructor
  · intro j p hj
    by_cases hji : j = i
    · subst hji
      exact (hself p hj).1
    · exact hothers j hji p (hphase j hji ▸ hj)
  · intro j k p hj hk
    by_cases hji : j = i <;> by_cases hki : k = i
    · rw [hji, hki]
    · subst hji
      exact absurd (hphase k hki ▸ hk) ((hself p hj).2 k hki)
    · subst hki
      exact absurd (hphase j hji ▸ hj) ((hself p hk).2 j hji)
    · exact h.apart j k p (hphase j hji ▸ hj) (hphase k hki ▸ hk)

/-- A step on the list. -/
theorem Inv.onList (h : s.Inv a) {t : Hall ι} {op : Op ℕ Empty} (hl : t.list.Inv (op.apply a))
    (htasks : ∀ j, j ≠ i → t.list.task j = s.list.task j)
    (hphase : ∀ j, j ≠ i → t.phase j = s.phase j)
    (hheap : t.player = s.player) (hfresh : t.fresh = s.fresh)
    (hparked : ∀ x ∈ t.list.parked i, x ∈ s.list.parked i ∨ x ∈ a.live)
    (hplayer : (t.phase i).player = (s.phase i).player)
    (hfits : (t.phase i).Fits (op.apply a) (t.list.task i))
    (hlists : ∀ x ∈ (op.apply a).live, ∀ p, (op.apply a).inserted[x]? = some p →
      (x ∈ a.live → (s.phase i).Lists a (s.list.task i) p x) →
        (t.phase i).Lists (op.apply a) (t.list.task i) p x) :
    t.Inv (op.apply a) := by
  have hdata : ∀ x < a.inserted.length, (op.apply a).inserted[x]? = a.inserted[x]? := by
    intro x hx
    obtain ⟨l, hl⟩ := Op.inserted_apply op a
    rw [hl, List.getElem?_append_left hx]
  obtain ⟨howned, hapart⟩ := h.owned_apart hphase
    (fun j _ p hp => hheap ▸ h.owned j p hp) (fun p hp => by
      rw [hplayer] at hp
      exact ⟨hheap ▸ h.owned i p hp, fun j hj hjp => hj (h.apart j i p hjp hp)⟩)
  refine ⟨hl, howned, hapart, fun p hp => ?_, fun j => ?_, fun x hx p hp => ?_,
    fun j x hx q hq => ?_⟩
  · rw [hheap] at hp
    exact hfresh ▸ h.lt_fresh p hp
  · by_cases hji : j = i
    · exact hji ▸ hfits
    · rw [hphase j hji, htasks j hji]
      exact (h.fits j).mono fun x q => Op.getElem?_apply
  · by_cases hlive : x ∈ a.live
    · rw [hdata x (h.list.ok.lt (Pinned.mem_live.mp hlive).1)] at hp
      obtain ⟨j, hj⟩ := h.listed x hlive p hp
      refine ⟨j, ?_⟩
      by_cases hji : j = i
      · subst hji
        exact hlists x hx p (Op.getElem?_apply hp) fun _ => hj
      · have htask : t.list.parked j = s.list.parked j := congrArg LinkedList.Task.pinned (htasks j hji)
        have hfits := h.fits j
        rw [hphase j hji, htasks j hji]
        cases hφ : s.phase j with
        | absent | created p' | member p' act =>
            rw [hφ] at hj
            exact hj
        | closing p' =>
            rw [hφ] at hj hfits
            refine ⟨hj.1, mem_ahead_apply h.list.ok hfits (fun y hy => h.list.pinned hy)
              (fun y hy => hl.pinned (i := j) ?_) hj.2 hx⟩
            rw [htask]
            exact hy
    · exact ⟨i, hlists x hx p hp fun hmem => absurd hmem hlive⟩
  · rw [hheap]
    have hold : x ∈ s.list.parked j ∨ x ∈ a.live := by
      by_cases hji : j = i
      · subst hji
        exact hparked x hx
      · rw [Sys.parked, htasks j hji] at hx
        exact .inl hx
    rcases hold with hold | hlive
    · rw [hdata x (h.list.ok.pinned_lt x (h.list.pinned hold))] at hq
      exact h.parked j x hold q hq
    · rw [hdata x (h.list.ok.lt (Pinned.mem_live.mp hlive).1)] at hq
      obtain ⟨k, hk⟩ := h.listed x hlive q hq
      exact h.owned k q hk.player_eq

variable [DecidableEq ι]

/-- A step that leaves the list alone and frees nothing. -/
theorem Inv.local (h : s.Inv a) {t : Hall ι} {φ : Phase ι} (ht : t.list = s.list)
    (hphase : t.phase = Function.update s.phase i φ)
    (hkeep : ∀ q, (s.player.load q).isSome = true → (t.player.load q).isSome = true)
    (hfresh : ∀ q, (t.player.load q).isSome = true → q < t.fresh)
    (hplayer : ∀ p, φ.player = some p →
      (t.player.load p).isSome = true ∧ ∀ j, j ≠ i → (s.phase j).player ≠ some p)
    (hfits : φ.Fits a (s.list.task i))
    (hlists : ∀ p x, (s.phase i).Lists a (s.list.task i) p x → φ.Lists a (s.list.task i) p x) :
    t.Inv a := by
  have hself : t.phase i = φ := by rw [hphase, Function.update_self]
  have hother : ∀ j, j ≠ i → t.phase j = s.phase j := fun j hj => by
    rw [hphase, Function.update_of_ne hj]
  obtain ⟨howned, hapart⟩ := h.owned_apart hother
    (fun j _ p hp => hkeep p (h.owned j p hp)) (fun p hp => hplayer p (hself ▸ hp))
  refine ⟨ht ▸ h.list, howned, hapart, hfresh, fun j => ?_, fun x hx p hp => ?_, ?_⟩
  · rw [ht]
    by_cases hji : j = i
    · subst hji
      rw [hself]
      exact hfits
    · rw [hother j hji]
      exact h.fits j
  · obtain ⟨j, hj⟩ := h.listed x hx p hp
    refine ⟨j, ?_⟩
    rw [ht]
    by_cases hji : j = i
    · subst hji
      rw [hself]
      exact hlists p x hj
    · rw [hother j hji]
      exact hj
  · rw [ht]
    exact fun j x hx q hq => hkeep q (h.parked j x hx q hq)

/-- A step of `list_next` or of `list_delete_data`. -/
theorem Inv.call (h : s.Inv a) {act : Action ι ℕ Empty} {task : LinkedList.Task ℕ} {φ : Phase ι}
    (hruns : act.runs s.list = some (i, task)) (hop : (task.op (F := Empty)).isSome = true)
    (hstart : task.pinned = s.list.parked i) (hstep : s.list.step act = s.list.advance i task)
    (hplayer : φ.player = (s.phase i).player)
    (hreply : ∀ {op task' es}, task.op = some op → task.reply i (op.answer a) = some (task', es) →
      φ.Fits (op.apply a) task' ∧
        ∀ x ∈ a.live, x ∈ (op.apply a).live → ∀ p, a.inserted[x]? = some p →
          (s.phase i).Lists a (s.list.task i) p x → φ.Lists (op.apply a) task' p x) :
    ∃ t b, s.onList i act φ = some t ∧ t.Inv b := by
  obtain ⟨l, b, hl, hmove, hinv⟩ := h.list.step_call hruns hstart hop hstep
  obtain ⟨op, task', es, hop, hr, rfl, htask⟩ := hmove.own hruns
  obtain ⟨hfits, hlists⟩ := hreply hop hr
  have hself : l.task i = task' := by rw [htask, Function.update_self]
  refine ⟨_, op.apply a, by rw [Hall.onList, hl, Option.map_some], ?_⟩
  have hphase : (enter { s with list := l } i φ).phase i = φ := Function.update_self _ _ _
  refine h.onList hinv (fun j hj => ?_) (fun j hj => Function.update_of_ne hj _ _) rfl rfl
    (fun x hx => ?_) (by rw [hphase]; exact hplayer) ?_ fun x hx p hp hold => ?_
  · change l.task j = s.list.task j
    rw [htask, Function.update_of_ne hj]
  · have hlands := LinkedList.Task.pinned_reply hop hr
    have hparked : l.parked i = task'.pinned := congrArg LinkedList.Task.pinned hself
    have hx : l.parked i = some x := hx
    rw [hparked, hlands, hstart] at hx
    exact Op.mem_live_of_lands hx
  · rw [hphase]
    exact hself ▸ hfits
  · rw [hphase]
    change φ.Lists (op.apply a) (l.task i) p x
    rw [hself]
    rcases Op.mem_live_of_apply h.list.ok hx with hlive | ⟨d, q, rfl, -⟩
    · obtain ⟨l', hl'⟩ := Op.inserted_apply op a
      rw [hl', List.getElem?_append_left (h.list.ok.lt (Pinned.mem_live.mp hlive).1)] at hp
      exact hlists x hlive hx p hp (hold hlive)
    · cases task <;> cases hop

/-- `list_next` in `command_who`. -/
theorem Inv.next (h : s.Inv a) (hphase : s.phase i = .member p .stepping) :
    ∃ t b, s.onList i (.call i (.walk .fwd)) (.member p .scanning) = some t ∧ t.Inv b := by
  have hfits := h.fits i
  rw [hphase] at hfits
  obtain ⟨c, htask⟩ := hfits
  have hruns : Action.runs s.list (.call i (.walk .fwd) : Action ι ℕ Empty) =
      some (i, .stepping .fwd c) := by
    simp [Action.runs, htask, Call.start]
  apply h.call hruns rfl
  · rw [Sys.parked, htask]
    rfl
  · simp [Sys.step, hruns]
  · rw [hphase]
    rfl
  · intro op task' es hop hreply
    cases hop
    cases hreply
    refine ⟨⟨_, rfl⟩, fun x _ _ p' _ hlists => ?_⟩
    rw [hphase] at hlists
    exact hlists

/-- `list_delete_data` in `player_close` starts. -/
theorem Inv.close (h : s.Inv a) (hclose : (s.phase i).mayClose = some p) :
    ∃ t b, s.onList i (.call i (.deleteData p)) (.closing p) = some t ∧ t.Inv b := by
  obtain ⟨hplayer, hidle⟩ := Phase.of_mayClose hclose
  have htask := hidle (h.fits i)
  have hruns : Action.runs s.list (.call i (.deleteData p) : Action ι ℕ Empty) =
      some (i, .deleting p none 0) := by
    simp [Action.runs, htask, Call.start]
  apply h.call hruns rfl
  · rw [Sys.parked, htask]
    rfl
  · simp [Sys.step, hruns]
  · exact hplayer.symm
  · intro op task' es hop hreply
    have hdeleting := (Deleting.deleting (p := p) none 0).reply h.list.ok
      (fun _ hy => by cases hy) hop hreply
    refine ⟨hdeleting.1, fun x hx hlive p' hp' hlists => ?_⟩
    obtain rfl : p = p' := Option.some.inj (hplayer.symm.trans hlists.player_eq)
    refine ⟨rfl, hdeleting.2 x ?_ hlive hp'⟩
    rw [ahead, Pinned.pending_none]
    exact hx

/-- `list_delete_data` goes on. -/
theorem Inv.closeOn (h : s.Inv a) (hphase : s.phase i = .closing p)
    (hbusy : s.list.task i ≠ .walking none) :
    ∃ t b, s.onList i (.resume i) (.closing p) = some t ∧ t.Inv b := by
  have hfits := h.fits i
  rw [hphase] at hfits
  have hfits : Deleting p (s.list.task i) := hfits
  have hruns : Action.runs s.list (.resume i : Action ι ℕ Empty) = some (i, s.list.task i) := rfl
  apply h.call hruns (hfits.isSome_op hbusy)
  · rfl
  · rfl
  · exact (congrArg Phase.player hphase).symm
  · intro op task' es hop hreply
    have hdeleting := hfits.reply h.list.ok (fun y hy => h.list.pinned hy) hop hreply
    refine ⟨hdeleting.1, fun x hx hlive p' hp' hlists => ?_⟩
    rw [hphase] at hlists
    obtain ⟨rfl, hahead⟩ := hlists
    exact ⟨rfl, hdeleting.2 x hahead hlive hp'⟩

/-- `list_push` in the accept loop. -/
theorem Inv.join (h : s.Inv a) (hphase : s.phase i = .created p) :
    ∃ t b, s.onList i (.insert .fwd p) (.member p .starting) = some t ∧ t.Inv b := by
  have henabled : (Action.insert .fwd p : Action ι ℕ Empty).enabled s.list := trivial
  obtain ⟨l, b, hl, hmove, hinv⟩ := h.list.step henabled
  have hfits := h.fits i
  rw [hphase] at hfits
  cases hmove with
  | advance m hruns => cases hruns
  | insert d q m =>
      let t := Hall.enter { s with list := ⟨m, s.list.task, s.list.trace⟩ } i (.member p .starting)
      have hself : t.phase i = .member p .starting := Function.update_self _ _ _
      have hinv : t.list.Inv ((Op.insert .fwd p).apply a) := hinv
      refine ⟨t, (Op.insert .fwd p).apply a, by rw [Hall.onList, hl, Option.map_some], ?_⟩
      refine h.onList hinv (fun _ _ => rfl)
        (fun j hj => Function.update_of_ne hj _ _) rfl rfl (fun x hx => .inl hx)
        (by rw [hself, hphase]; rfl) (by rw [hself]; exact hfits) fun x hx q hq hold => ?_
      rw [hself]
      rcases Op.mem_live_of_apply h.list.ok hx with hlive | ⟨-, -, -, rfl⟩
      · have hlists := hold hlive
        rw [hphase] at hlists
        exact hlists.elim
      · have hlast : (a.inserted ++ [p])[a.inserted.length]? = some q := hq
        simpa [Phase.Lists] using hlast

/-- A read of a player's field, or a step of a session with itself only. -/
theorem Inv.enter (h : s.Inv a) {φ : Phase ι} {shown : List (ι × List UInt8 × Option ι)}
    (hplayer : φ.player = (s.phase i).player) (hfits : φ.Fits a (s.list.task i))
    (hlists : ∀ p x, (s.phase i).Lists a (s.list.task i) p x → φ.Lists a (s.list.task i) p x) :
    Inv (Hall.enter { s with shown := shown } i φ) a := by
  refine h.local (i := i) (t := Hall.enter { s with shown := shown } i φ) rfl rfl
    (fun _ hq => hq) h.lt_fresh (fun p hp => ?_) hfits hlists
  rw [hplayer] at hp
  exact ⟨h.owned i p hp, fun j hj hjp => hj (h.apart j i p hjp hp)⟩

/-- The steps of `command_who`. -/
theorem Inv.resumeWho (h : s.Inv a) {act : Activity ι} (hphase : s.phase i = .member p act)
    (hbusy : act ≠ .starting ∧ act ≠ .idle) :
    ∃ t b, s.resumeWho i p act = some t ∧ t.Inv b := by
  have hfits := h.fits i
  have hplayer : ∀ act' : Activity ι, (Phase.member p act').player = (s.phase i).player := fun _ => by
    rw [hphase]
    rfl
  have hlists : ∀ (act' : Activity ι) q x, (s.phase i).Lists a (s.list.task i) q x →
      (Phase.member p act').Lists a (s.list.task i) q x := fun _ _ _ hq => by
    rw [hphase] at hq
    exact hq
  rw [hphase] at hfits
  -- the player that the session looks at is that of the node on which it is parked
  have hread : ∀ q, (∃ x, s.list.task i = .walking (some x) ∧ a.inserted[x]? = some q) →
      ∃ r, s.player.load q = some r := by
    rintro q ⟨x, htask, hx⟩
    apply Option.isSome_iff_exists.mp
    apply h.parked i x _ q hx
    rw [Sys.parked, htask]
    rfl
  cases act with
  | starting => exact absurd rfl hbusy.1
  | idle => exact absurd rfl hbusy.2
  | stepping => exact h.next hphase
  | scanning =>
      obtain ⟨c, htask⟩ := hfits
      cases c with
      | none =>
          refine ⟨s.enter i (.member p .idle), a, by rw [Hall.resumeWho, htask], ?_⟩
          exact h.enter (hplayer _) htask (hlists _)
      | some x =>
          have hparked : s.list.parked i = some x := by rw [Sys.parked, htask]; rfl
          have hx := h.list.ok.mem_of_pinned (h.list.pinned hparked)
          obtain ⟨q, hq⟩ := h.list.ok.exists_data hx
          have hdata := (h.nodeData hx).trans hq
          refine ⟨s.enter i (.member p (.looking q)), a, ?_, ?_⟩
          · simp only [Hall.resumeWho, htask, hdata, Option.map_some]
          · exact h.enter (hplayer _) ⟨x, htask, hq⟩ (hlists _)
  | looking q =>
      obtain ⟨r, hr⟩ := hread q hfits
      refine ⟨s.enter i (.member p (if r.loggedIn then .listing q else .stepping)), a, ?_, ?_⟩
      · rw [Hall.resumeWho, hr, Option.map_some]
      apply h.enter (hplayer _) _ (hlists _)
      cases r.loggedIn with
      | false =>
          obtain ⟨x, htask, -⟩ := hfits
          exact ⟨some x, htask⟩
      | true => exact hfits
  | listing q =>
      obtain ⟨r, hr⟩ := hread q hfits
      refine ⟨s.enter i (.member p (.naming q r.thread)), a, ?_, ?_⟩
      · rw [Hall.resumeWho, hr, Option.map_some]
      · exact h.enter (hplayer _) hfits (hlists _)
  | naming q t =>
      obtain ⟨r, hr⟩ := hread q hfits
      obtain ⟨x, htask, -⟩ := hfits
      have hfits : (Phase.member p .stepping : Phase ι).Fits a (s.list.task i) := ⟨some x, htask⟩
      refine ⟨Hall.enter { s with shown := s.shown ++ [(i, r.name, t)] } i (.member p .stepping),
        a, ?_, h.enter (hplayer _) hfits (hlists _)⟩
      rw [Hall.resumeWho, hr, Option.map_some]

/-- `free(p)`, when the node of the player has left the list. -/
theorem Inv.free (h : s.Inv a) (hphase : s.phase i = .closing p)
    (hover : s.list.task i = .walking none)
    (hguard : ∀ x ∈ contents .fwd s.list.mem, LinkedList.nodeData x s.list.mem ≠ some p) :
    Inv (Hall.enter { s with player := s.player.free p } i .absent) a := by
  have hplayer : (s.phase i).player = some p := by rw [hphase]; rfl
  have hcontents : contents .fwd s.list.mem = a.order := h.list.refines.contents_eq h.list.ok .fwd
  have hkeep : ∀ q, q ≠ p → (s.player.load q).isSome = true →
      ((s.player.free p).load q).isSome = true := by
    intro q hqp hq
    rwa [Heap.load_free, if_neg hqp]
  let t := Hall.enter { s with player := s.player.free p } i .absent
  have hself : t.phase i = .absent := Function.update_self _ _ _
  have hother : ∀ j, j ≠ i → t.phase j = s.phase j := fun j hj => Function.update_of_ne hj _ _
  obtain ⟨howned, hapart⟩ := h.owned_apart (t := t) hother
    (fun j hj q hq => hkeep q (fun heq => hj (h.apart j i p (heq ▸ hq) hplayer)) (h.owned j q hq))
    (fun q hq => by rw [hself] at hq; cases hq)
  refine ⟨h.list, howned, hapart, fun q hq => ?_, fun j => ?_, fun x hx q hq => ?_,
    fun j x hx q hq => ?_⟩
  · change ((s.player.free p).load q).isSome = true at hq
    rw [Heap.load_free] at hq
    split_ifs at hq with hqp
    · cases hq
    · exact h.lt_fresh q hq
  · by_cases hji : j = i
    · subst hji
      rw [hself]
      exact hover
    · rw [hother j hji]
      exact h.fits j
  · obtain ⟨j, hj⟩ := h.listed x hx q hq
    have hji : j ≠ i := by
      rintro rfl
      rw [hphase, hover] at hj
      exact List.not_mem_nil hj.2
    exact ⟨j, (hother j hji).symm ▸ hj⟩
  · have hmem : x ∈ a.order := h.list.ok.mem_of_pinned (h.list.pinned hx)
    apply hkeep q _ (h.parked j x hx q hq)
    rintro rfl
    exact hguard x (hcontents ▸ hmem) ((h.nodeData hmem).trans hq)

/-- A player's fields change. -/
theorem Inv.assign (h : s.Inv a) (f : Player ι → Player ι) {act : Activity ι}
    (act' : Activity ι) (hphase : s.phase i = .member p act) (hfits : act'.Fits a (s.list.task i)) :
    ∃ t, s.assign p f = some t ∧ (t.enter i (.member p act')).Inv a := by
  have hplayer : (s.phase i).player = some p := by rw [hphase]; rfl
  obtain ⟨r, hr⟩ := Option.isSome_iff_exists.mp (h.owned i p hplayer)
  have hload : ∀ q, ((s.player.store p (f r)).load q).isSome = (s.player.load q).isSome := by
    intro q
    rw [Heap.load_store]
    split_ifs with hqp
    · rw [hqp, hr]
      rfl
    · rfl
  let t : Hall ι := { s with player := s.player.store p (f r) }
  refine ⟨t, by rw [Hall.assign, hr, Option.map_some], ?_⟩
  refine h.local (i := i) (t := t.enter i (.member p act')) rfl rfl ?_ ?_ ?_ ?_ ?_
  · exact fun q hq => (hload q).trans hq
  · exact fun q hq => h.lt_fresh q ((hload q).symm.trans hq)
  · intro q hq
    obtain rfl : p = q := Option.some.inj hq
    exact ⟨(hload p).trans (h.owned i p hplayer),
      fun j hj hjp => hj (h.apart j i p hjp hplayer)⟩
  · exact hfits
  · intro q x hq
    rw [hphase] at hq
    exact hq

/-- `player_new`. -/
theorem Inv.accept (h : s.Inv a) (hphase : s.phase i = .absent) :
    (s.allocate.enter i (.created s.fresh)).Inv a := by
  have hfits := h.fits i
  rw [hphase] at hfits
  have hload : ∀ q, ((s.player.store s.fresh playerNew).load q).isSome =
      (decide (q = s.fresh) || (s.player.load q).isSome) := by
    intro q
    rw [Heap.load_store]
    by_cases hq : q = s.fresh <;> simp [hq]
  refine h.local (i := i) (t := s.allocate.enter i (.created s.fresh)) rfl rfl ?_ ?_ ?_ ?_ ?_
  · intro q hq
    exact (hload q).trans (by simp [hq])
  · intro q hq
    have hq := (hload q).symm.trans hq
    change q < s.fresh + 1
    rw [Bool.or_eq_true, decide_eq_true_eq] at hq
    rcases hq with rfl | hq
    · omega
    · have := h.lt_fresh q hq
      omega
  · intro q hq
    obtain rfl : s.fresh = q := Option.some.inj hq
    refine ⟨(hload _).trans (by simp), fun j _ hj => ?_⟩
    have := h.lt_fresh _ (h.owned j _ hj)
    omega
  · exact hfits
  · intro q x hq
    rw [hphase] at hq
    exact hq.elim

/-- Every step goes through as long as no player is freed whose node is linked. -/
theorem Inv.step {act : Act ι} (h : s.Inv a) (henabled : (s.phase act.session).allows act = true)
    (hguard : act.Unlinked s) : ∃ t b, s.step act = some t ∧ t.Inv b := by
  cases act with
  | accept i =>
      cases hphase : s.phase i with
      | absent => exact ⟨_, a, rfl, h.accept hphase⟩
      | created | member | closing => simp [Act.session, hphase, Phase.allows] at henabled
  | join i =>
      cases hphase : s.phase i with
      | created p =>
          simp only [Hall.step, hphase]
          exact h.join hphase
      | absent | member | closing => simp [Act.session, hphase, Phase.allows] at henabled
  | start i =>
      cases hphase : s.phase i with
      | absent | created | closing => simp [Act.session, hphase, Phase.allows] at henabled
      | member p act =>
          have hfits := h.fits i
          rw [hphase] at hfits
          cases act with
          | starting =>
              obtain ⟨t, hassign, ht⟩ :=
                h.assign (fun r => { r with thread := some i }) .idle hphase hfits
              exact ⟨_, a, by simp only [Hall.step, hphase, hassign, Option.map_some], ht⟩
          | _ => simp [Act.session, hphase, Phase.allows] at henabled
  | login i name =>
      cases hphase : s.phase i with
      | absent | created | closing => simp [Act.session, hphase, Phase.allows] at henabled
      | member p act =>
          have hfits := h.fits i
          rw [hphase] at hfits
          cases act with
          | idle =>
              obtain ⟨t, hassign, ht⟩ := h.assign
                (fun r => { r with loggedIn := true, name := name }) .idle hphase hfits
              exact ⟨_, a, by simp only [Hall.step, hphase, hassign, Option.map_some], ht⟩
          | _ => simp [Act.session, hphase, Phase.allows] at henabled
  | who i =>
      cases hphase : s.phase i with
      | absent | created | closing => simp [Act.session, hphase, Phase.allows] at henabled
      | member p act =>
          have hfits := h.fits i
          rw [hphase] at hfits
          cases act with
          | idle =>
              refine ⟨s.enter i (.member p .stepping), a, by simp only [Hall.step, hphase], ?_⟩
              refine h.enter (congrArg Phase.player hphase).symm ⟨none, hfits⟩ fun q x hq => ?_
              rw [hphase] at hq
              exact hq
          | _ => simp [Act.session, hphase, Phase.allows] at henabled
  | close i =>
      cases hclose : (s.phase i).mayClose with
      | none => simp [Act.session, hclose, Phase.allows] at henabled
      | some p =>
          simp only [Hall.step, hclose, Option.bind_some]
          exact h.close hclose
  | resume i =>
      cases hphase : s.phase i with
      | absent | created => simp [Act.session, hphase, Phase.allows] at henabled
      | member p act =>
          simp only [Hall.step, hphase]
          apply h.resumeWho hphase
          constructor <;> rintro rfl <;> simp [Act.session, hphase, Phase.allows] at henabled
      | closing p =>
          simp only [Hall.step, hphase, Hall.resumeClose]
          split_ifs with hover
          · have hplayer : (s.phase i).player = some p := by rw [hphase]; rfl
            obtain ⟨r, hr⟩ := Option.isSome_iff_exists.mp (h.owned i p hplayer)
            have hfrees : s.frees i = some p := by simp only [frees, hphase, hover]
            rw [hr, Option.map_some]
            exact ⟨_, a, rfl, h.free hphase hover (hguard p hfrees)⟩
          · exact h.closeOn hphase hover

/-- A player freed while its node is linked leaves somebody parked on the node. -/
theorem Inv.not_parkedAlive {act : Act ι} {t : Hall ι} (h : s.Inv a) (hguard : ¬ act.Unlinked s)
    (hstep : s.step act = some t) : ¬ t.ParkedAlive := by
  cases act with
  | resume i =>
      simp only [Act.Unlinked, not_forall, not_not] at hguard
      obtain ⟨p, hp, x, hx, hdata⟩ := hguard
      obtain ⟨hphase, hover⟩ := of_frees hp
      rw [h.list.refines.contents_eq h.list.ok] at hx
      have hx : x ∈ a.order := Dir.mem_along.mp hx
      have hmarked : a.marked x = true := by
        by_contra hmarked
        have hlive : x ∈ a.live := Pinned.mem_live.mpr ⟨hx, by simpa using hmarked⟩
        exact h.not_lists hphase hover hlive ((h.nodeData hx).symm.trans hdata)
      have hpins := h.list.ok.pinned_of_marked hx hmarked
      rw [h.list.pins_eq, countAt_pos] at hpins
      obtain ⟨j, hj⟩ := hpins
      simp only [Hall.step, hphase, Hall.resumeClose, hover, if_true, Option.map_eq_some_iff] at hstep
      obtain ⟨r, -, rfl⟩ := hstep
      intro halive
      have hload : ((s.player.free p).load p).isSome = true := halive j x hj p hdata
      simp [Heap.load_free] at hload
  | accept | join | start | login | who | close => exact absurd trivial hguard

end Hall

variable [Fintype ι] [DecidableEq ι]

/-- `command_who` reads no freed player, and no player is freed while an iterator is
parked on its node, exactly in the runs in which each player has left the list by the
time it is freed. -/
theorem players_alive_iff (acts : List (Act ι))
    (hvalid : (sessions ι).Valid (sessions ι).init acts) :
    ((∃ t, (sessions ι).exec (sessions ι).init acts = some t) ∧
        (sessions ι).AllStates Hall.ParkedAlive (sessions ι).init acts) ↔
      (sessions ι).AllSteps (fun s act => act.Unlinked s) (sessions ι).init acts := by
  apply Machine.run_iff_guard (I := fun s => ∃ a, Hall.Inv s a)
  · rintro s ⟨a, h⟩
    exact h.parkedAlive
  · rintro s act ⟨a, h⟩ henabled hguard
    obtain ⟨t, b, hstep, ht⟩ := h.step henabled hguard
    exact ⟨t, hstep, b, ht⟩
  · rintro s act ⟨a, h⟩ henabled hguard t ht
    exact h.not_parkedAlive hguard ht
  · exact ⟨Pinned.new, .new⟩
  · exact hvalid

/-- A session lists the players while another one closes and is gone before the list
comes to it. -/
def leavesInTime : List (Act Bool) :=
  [.accept true, .join true, .start true, .login true [65], .accept false, .join false, .start false,
    .who false, .close true, .resume true, .resume true, .resume true, .resume true, .resume true,
    .resume true, .resume false, .resume false, .resume false, .resume false, .resume false]

theorem leavesInTime_players_alive :
    (∃ t, (sessions Bool).exec (sessions Bool).init leavesInTime = some t) ∧
      (sessions Bool).AllStates Hall.ParkedAlive (sessions Bool).init leavesInTime :=
  (players_alive_iff leavesInTime (by decide)).mpr (by decide)

/-- A session has come to the node of another one, which closes. -/
def closedUnderWho : List (Act Bool) :=
  [.accept true, .join true, .start true, .accept false, .join false, .start false, .who false,
    .resume false, .resume false, .close true, .resume true, .resume true, .resume true,
    .resume true, .resume true, .resume true]

/-- The player is freed while the other session is parked on its node, and the read of
`scan->flags` that comes next faults. -/
theorem closedUnderWho_reads_freed :
    (sessions Bool).Valid (sessions Bool).init (closedUnderWho ++ [.resume false]) ∧
      (sessions Bool).exec (sessions Bool).init (closedUnderWho ++ [.resume false]) = none ∧
      ¬ (sessions Bool).AllStates Hall.ParkedAlive (sessions Bool).init closedUnderWho ∧
      ((sessions Bool).exec (sessions Bool).init closedUnderWho).map (fun t =>
        (t.phase false, (t.player.load 0).isSome)) =
          some (.member 1 (.looking 0), false) := by
  decide

end ThreeW3.Sessions
