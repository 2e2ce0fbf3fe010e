/-
# What `command_who` shows

While a session goes through `player_list` the others come and go. It shows nobody twice
and nobody who was not logged in, and those who are on the list and logged in all the time
it shows once each, with their names, in the order of the list. To show a player is to give
the line to `socket_writef`.

A call is watched from its start: the nodes it has dealt with, each with its player, the
lines it has shown, and the node it is at. The walk itself is watched as on any list.
-/

import Mathlib.Data.Fintype.Option
import ThreeW3.Sessions.Roster

namespace ThreeW3.Sessions

open ThreeW3.Lib ThreeW3.LinkedList

universe u
variable {ι : Type u}

/-! ## Lines -/

/-- A line of `command_who`, with the player that it is about. -/
structure Line (ι : Type u) where
  player : ℕ
  name : List UInt8
  thread : Option ι
  deriving DecidableEq

/-- What `socket_writef` gets. -/
def Line.shown (l : Line ι) : List UInt8 × Option ι := (l.name, l.thread)

/-- The player that the session has on the list. -/
def Phase.onList : Phase ι → Option ℕ
  | .member p _ => some p
  | _ => none

namespace Hall

/-- The players on the list, in its order. -/
def listing (s : Hall ι) : List ℕ :=
  (contents .fwd s.list.mem).filterMap fun x => nodeData x s.list.mem

/-- What `command_who` has shown in a session. -/
def linesTo [DecidableEq ι] (s : Hall ι) (i : ι) : List (List UInt8 × Option ι) :=
  s.shown.filterMap fun l => if l.1 = i then some l.2 else none

/-- The player is logged in. -/
def LoggedIn (q : ℕ) (s : Hall ι) : Prop := ∃ r, s.player.load q = some r ∧ r.loggedIn = true

/-- The player is on the list, and logged in with these fields. -/
def Stays (q : ℕ) (r : Player ι) (s : Hall ι) : Prop :=
  (∃ j, (s.phase j).onList = some q) ∧ s.player.load q = some r ∧ r.loggedIn = true

instance [Fintype ι] [DecidableEq ι] (q : ℕ) (r : Player ι) :
    DecidablePred (Stays (ι := ι) q r) := fun s =>
  inferInstanceAs (Decidable ((∃ j, (s.phase j).onList = some q) ∧
    s.player.load q = some r ∧ r.loggedIn = true))

end Hall

/-! ## A call that is watched -/

/-- A call of `command_who` to watch: the session that makes it, what it had been shown
before, the players who stay, with their fields, and their nodes in the order of the list.
`Seen` holds of the players who are logged in at some time. -/
structure Survey (ι : Type u) where
  session : ι
  before : List (List UInt8 × Option ι)
  steady : ℕ → Option (Player ι)
  nodes : List ℕ
  Seen : ℕ → Prop

namespace Survey

/-- The node that the session is at, while it is not done with it. -/
def pending : Activity ι → Ptr → List ℕ
  | .scanning, c => c.toList
  | .looking _, c => c.toList
  | .listing _, c => c.toList
  | .naming _ _, c => c.toList
  | _, _ => []

/-- The walk is at its end. -/
def Over : Activity ι → Ptr → Prop
  | .idle, _ => True
  | .scanning, c => c = none
  | _, _ => False

variable (S : Survey ι)

/-- What is known of every state of the call. -/
structure Holds (s : Hall ι) : Prop where
  stays : ∀ q r, S.steady q = some r → s.Stays q r
  seen : ∀ q, s.LoggedIn q → S.Seen q

/-- The nodes are those of the players who stay. -/
structure Fits (a : Pinned ℕ Empty) : Prop where
  steady_of_mem : ∀ y ∈ S.nodes, ∃ q r, a.inserted[y]? = some q ∧ S.steady q = some r
  mem_of_steady : ∀ q r, S.steady q = some r → ∃ y ∈ S.nodes, a.inserted[y]? = some q

/-- Where the call is: the session is at `act` with its iterator at `c`, it is done with the
nodes in `done`, each with its player, and has shown the lines `Q`. -/
structure Tells [DecidableEq ι] (s : Hall ι) (a : Pinned ℕ Empty) (p : ℕ) (act : Activity ι)
    (c : Ptr) (done : List (ℕ × ℕ)) (Q : List (Line ι)) : Prop where
  phase : s.phase S.session = .member p act
  started : act ≠ .starting
  task : s.list.task S.session = .walking c
  watch : ¬ Over act c → Watch (fun y => decide (y ∈ S.nodes)) .fwd S.nodes c
    (done.map Prod.fst ++ pending act c) a
  ended : Over act c → (done.map Prod.fst).Nodup ∧
    (done.map Prod.fst).filter (fun y => decide (y ∈ S.nodes)) = S.nodes
  data : ∀ d ∈ done, a.inserted[d.1]? = some d.2
  lines : s.linesTo S.session = S.before ++ Q.map Line.shown
  sub : (Q.map Line.player).Sublist (done.map Prod.snd)
  told : ∀ d ∈ done, ∀ r, S.steady d.2 = some r → d.2 ∈ Q.map Line.player
  seen : ∀ l ∈ Q, S.Seen l.player
  fields : ∀ l ∈ Q, ∀ r, S.steady l.player = some r → l.name = r.name ∧ l.thread = r.thread
  /-- It has found the player logged in. -/
  listing : ∀ q, act = .listing q → S.Seen q
  naming : ∀ q th, act = .naming q th → S.Seen q ∧ ∀ r, S.steady q = some r → th = r.thread

end Survey

/-! ## Steps of the others -/

section Moved

variable [DecidableEq ι] {s t : Hall ι} {a b : Pinned ℕ Empty} {act : Act ι} {i : ι}

namespace Hall

theorem linesTo_append (s : Hall ι) (i j : ι) (l : List UInt8 × Option ι) (φ : Phase ι) :
    (enter { s with shown := s.shown ++ [(j, l)] } j φ).linesTo i =
      s.linesTo i ++ if j = i then [l] else [] := by
  change List.filterMap _ (s.shown ++ [(j, l)]) = _
  rw [List.filterMap_append]
  split_ifs with hji <;> simp [hji, linesTo]

/-- What the step of another session leaves as it is. -/
theorem Moved.other (h : s.Moved a act t b) (hi : act.session ≠ i) :
    t.phase i = s.phase i ∧ t.list.task i = s.list.task i ∧ t.linesTo i = s.linesTo i ∧
      (b = a ∨ ∃ op : Op ℕ Empty, b = op.apply a) := by
  have hphase : ∀ (u : Hall ι) (j : ι) (φ : Phase ι), j ≠ i → (u.enter j φ).phase i = u.phase i :=
    fun u j φ hj => by
      change Function.update u.phase j φ i = _
      rw [Function.update_of_ne (Ne.symm hj)]
  cases h with
  | accept j => exact ⟨hphase _ _ _ hi, rfl, rfl, .inl rfl⟩
  | join j p l b _ hmove =>
      exact ⟨hphase _ _ _ hi, (hmove.other (by simp [Action.agent])).1, rfl, .inr hmove.exists_op⟩
  | assign act j p r r' busy _ _ _ hact =>
      have hj : j ≠ i := by
        obtain rfl | ⟨name, rfl⟩ := hact <;> exact hi
      exact ⟨hphase _ _ _ hj, rfl, rfl, .inl rfl⟩
  | who j | ended j | found j | looked j | listed j | freed j =>
      exact ⟨hphase _ _ _ hi, rfl, rfl, .inl rfl⟩
  | named j p q th r =>
      refine ⟨hphase _ _ _ hi, rfl, ?_, .inl rfl⟩
      have hj : j ≠ i := hi
      rw [linesTo_append, if_neg hj, List.append_nil]
  | next j p l b _ hmove | close j p l b _ hmove | closeOn j p l b _ hmove =>
      have hj : some j ≠ some i := fun heq => hi (Option.some.inj heq)
      exact ⟨hphase _ _ _ hi, (hmove.other hj).1, rfl, .inr hmove.exists_op⟩

omit [DecidableEq ι] in
/-- A player who stays has a node that is not deleted. -/
theorem Roster.live_of_stays (hr : s.Roster a) {q y : ℕ} {r : Player ι} (hq : s.Stays q r)
    (hy : a.inserted[y]? = some q) : y ∈ a.live := by
  obtain ⟨⟨j, hj⟩, -⟩ := hq
  cases hphase : s.phase j with
  | absent | created | closing => simp [hphase, Phase.onList] at hj
  | member p act =>
      obtain rfl : p = q := by simpa [hphase, Phase.onList] using hj
      obtain ⟨x, hx, hdata⟩ := hr.member j p act hphase
      obtain ⟨hlt, -⟩ := List.getElem?_eq_some_iff.mp hdata
      obtain rfl : x = y := (List.getElem?_inj hlt hr.nodup).mp (hdata.trans hy.symm)
      exact hx

end Hall

theorem Hall.Moved.getElem? (h : s.Moved a act t b) {x q : ℕ} (hx : a.inserted[x]? = some q) :
    b.inserted[x]? = some q := by
  cases h with
  | join _ _ _ _ _ hmove | next _ _ _ _ _ hmove | close _ _ _ _ _ hmove
    | closeOn _ _ _ _ _ hmove =>
      obtain ⟨op, rfl⟩ := hmove.exists_op
      exact Op.getElem?_apply hx
  | accept | assign | who | ended | found | looked | listed | named | freed => exact hx

namespace Survey

variable {S : Survey ι} {p : ℕ} {busy : Activity ι} {c : Ptr} {done : List (ℕ × ℕ)}
  {Q : List (Line ι)} {V : List ℕ} {x : ℕ}

omit [DecidableEq ι] in
theorem Fits.apply (h : S.Fits a) (op : Op ℕ Empty) : S.Fits (op.apply a) := by
  constructor
  · intro y hy
    obtain ⟨q, r, hq, hr⟩ := h.steady_of_mem y hy
    exact ⟨q, r, Op.getElem?_apply hq, hr⟩
  · intro q r hr
    obtain ⟨y, hy, hq⟩ := h.mem_of_steady q r hr
    exact ⟨y, hy, Op.getElem?_apply hq⟩

omit [DecidableEq ι] in
/-- The nodes of those who stay are on the list. -/
theorem Fits.live (h : S.Fits a) (hr : s.Roster a) (hholds : S.Holds s) {y : ℕ}
    (hy : y ∈ S.nodes) : y ∈ a.live := by
  obtain ⟨q, r, hq, hsteady⟩ := h.steady_of_mem y hy
  exact hr.live_of_stays (hholds.stays q r hsteady) hq

omit [DecidableEq ι] in
/-- The watch goes on over a step of somebody else. -/
theorem watch_apply {op : Op ℕ Empty} (h : Watch (fun y => decide (y ∈ S.nodes)) .fwd S.nodes c V a)
    (hfits : S.Fits a) (ok : a.Ok) (hc : ∀ y ∈ c, y ∈ a.order)
    (hpinned : ∀ y ∈ c, 0 < (op.apply a).pins y) (hr : t.Roster (op.apply a))
    (hholds : S.Holds t) :
    Watch (fun y => decide (y ∈ S.nodes)) .fwd S.nodes c V (op.apply a) := by
  refine h.apply ok hc hpinned (decide_eq_false fun hmem => ?_) fun y hy => ?_
  · obtain ⟨q, r, hq, -⟩ := hfits.steady_of_mem _ hmem
    exact Nat.lt_irrefl _ (List.getElem?_eq_some_iff.mp hq).1
  · exact (Pinned.mem_live.mp ((hfits.apply op).live hr hholds (of_decide_eq_true hy))).1

variable [Fintype ι]

/-- Another session makes a step. -/
theorem Tells.other (h : S.Tells s a p busy c done Q) (hs : s.Inv a) (hfits : S.Fits a)
    (ht : t.Inv b) (hr : t.Roster b) (hholds : S.Holds t) (hmoved : s.Moved a act t b)
    (hact : act.session ≠ S.session) : S.Fits b ∧ S.Tells t b p busy c done Q := by
  obtain ⟨hphase, htask, hlines, rfl | ⟨op, rfl⟩⟩ := hmoved.other hact
  · exact ⟨hfits, { h with
      phase := hphase.trans h.phase
      task := htask.trans h.task
      lines := hlines.trans h.lines }⟩
  · have hparked : ∀ y ∈ c, s.list.parked S.session = some y ∧ t.list.parked S.session = some y := by
      intro y hy
      rw [Sys.parked, Sys.parked, htask, h.task]
      exact ⟨hy, hy⟩
    exact ⟨hfits.apply op, { h with
      phase := hphase.trans h.phase
      task := htask.trans h.task
      lines := hlines.trans h.lines
      watch := fun hover => watch_apply (h.watch hover) hfits hs.list.ok
        (fun y hy => hs.list.ok.mem_of_pinned (hs.list.pinned (hparked y hy).1))
        (fun y hy => ht.list.pinned (hparked y hy).2) hr hholds
      data := fun d hd => Op.getElem?_apply (h.data d hd) }⟩

/-- The session is at a node with this player. -/
theorem Tells.at_node (h : S.Tells s a p busy c done Q) (hs : s.Inv a) {q : ℕ}
    (hbusy : busy.Fits a (s.list.task S.session) →
      ∃ x, s.list.task S.session = .walking (some x) ∧ a.inserted[x]? = some q) :
    ∃ x, c = some x ∧ a.inserted[x]? = some q := by
  have hfits := hs.fits S.session
  rw [h.phase] at hfits
  obtain ⟨x, htask, hx⟩ := hbusy hfits
  rw [h.task] at htask
  exact ⟨x, by simpa using htask, hx⟩

/-- `list_next`. -/
theorem Tells.next (h : S.Tells s a p .stepping c done Q) (hs : s.Inv a) (hrs : s.Roster a)
    (hfits : S.Fits a) (hholds : S.Holds s) {l : Sys ι ℕ Empty}
    (hmove : s.list.Move a (.call S.session (.walk .fwd)) l b)
    (heq : t = Hall.enter { s with list := l } S.session (.member p .scanning)) (ht : t.Inv b)
    (hr : t.Roster b) (hholds' : S.Holds t) :
    S.Fits b ∧ ∃ c', S.Tells t b p .scanning c' done Q := by
  obtain ⟨rfl, htask, -⟩ := hmove.walk h.task
  have hlist : t.list = l := by rw [heq]; rfl
  have hkeep : ∀ x q, a.inserted[x]? = some q →
      ((Op.walk .fwd c).apply a).inserted[x]? = some q := fun x q => Op.getElem?_apply
  have hc : ∀ y ∈ c, y ∈ a.order := fun y hy => by
    refine hs.list.ok.mem_of_pinned (hs.list.pinned (i := S.session) ?_)
    rw [Sys.parked, h.task]
    exact hy
  have hmarked : ∀ y, decide (y ∈ S.nodes) = true → a.marked y = false := fun y hy =>
    (Pinned.mem_live.mp (hfits.live hrs hholds (of_decide_eq_true hy))).2
  have hwatch : Watch (fun y => decide (y ∈ S.nodes)) .fwd S.nodes c (done.map Prod.fst ++ []) a :=
    h.watch id
  rw [List.append_nil] at hwatch
  have hbuild : ∀ c', l.task S.session = .walking c' →
      (¬ Over (.scanning : Activity ι) c' → Watch (fun y => decide (y ∈ S.nodes)) .fwd S.nodes c'
        (done.map Prod.fst ++ c'.toList) (a.walk .fwd c).2) →
      (Over (.scanning : Activity ι) c' → (done.map Prod.fst).Nodup ∧
        (done.map Prod.fst).filter (fun y => decide (y ∈ S.nodes)) = S.nodes) →
      ∃ c', S.Tells t (a.walk .fwd c).2 p .scanning c' done Q := by
    intro c' htask hwatch hover
    subst heq
    exact ⟨c', { h with
      phase := Function.update_self _ _ _
      started := by simp
      task := htask
      watch := hwatch
      ended := hover
      data := fun d hd => hkeep d.1 d.2 (h.data d hd)
      listing := by simp
      naming := by simp }⟩
  refine ⟨hfits.apply (.walk .fwd c), hbuild _ htask (fun hgoes => ?_) fun hnone => ?_⟩
  · obtain ⟨y, hnext⟩ := Option.ne_none_iff_exists'.mp hgoes
    have hvisit := hwatch.visit hs.list.ok hc hmarked hnext
    rw [hnext]
    have hr' : t.Roster ((Op.walk .fwd c).apply a) := hr
    refine watch_apply hvisit hfits hs.list.ok (fun z hz => ?_) (fun z hz => ?_) hr' hholds'
    · cases hz
      exact (Pinned.mem_of_following hnext).1
    · refine ht.list.pinned (i := S.session) ?_
      rw [Sys.parked, hlist, htask, hnext]
      exact hz
  · exact ⟨hwatch.nodup, hwatch.finish hmarked hnone⟩

omit [Fintype ι] in
/-- It is done with the node that it is at. -/
theorem Tells.pass (h : S.Tells s a p busy (some x) done Q) {q : ℕ} {Q' : List (Line ι)}
    (hbusy : ¬ Over busy (some x)) (hpending : pending busy (some x) = [x])
    (hx : a.inserted[x]? = some q) (hlist : t.list = s.list)
    (hphase : t.phase S.session = .member p .stepping)
    (hlines : t.linesTo S.session = S.before ++ Q'.map Line.shown)
    (hsub : (Q'.map Line.player).Sublist (done.map Prod.snd ++ [q]))
    (hold : ∀ l ∈ Q, l ∈ Q') (htold : ∀ r, S.steady q = some r → q ∈ Q'.map Line.player)
    (hnew : ∀ l ∈ Q', l ∈ Q ∨ S.Seen l.player ∧
      ∀ r, S.steady l.player = some r → l.name = r.name ∧ l.thread = r.thread) :
    S.Tells t a p .stepping (some x) (done ++ [(x, q)]) Q' where
  phase := hphase
  started := by simp
  task := hlist ▸ h.task
  watch _ := by
    have hwatch := h.watch hbusy
    rw [hpending] at hwatch
    change Watch _ _ _ _ ((done ++ [(x, q)]).map Prod.fst ++ []) a
    rw [List.append_nil, List.map_append]
    exact hwatch
  ended hover := hover.elim
  data d hd := by
    obtain hd | hd := List.mem_append.mp hd
    · exact h.data d hd
    · rw [List.mem_singleton.mp hd]
      exact hx
  lines := hlines
  sub := by rwa [List.map_append]
  told d hd r hr := by
    obtain hd | hd := List.mem_append.mp hd
    · obtain ⟨l, hl, heq⟩ := List.mem_map.mp (h.told d hd r hr)
      exact List.mem_map.mpr ⟨l, hold l hl, heq⟩
    · rw [List.mem_singleton.mp hd] at hr ⊢
      exact htold r hr
  seen l hl := (hnew l hl).elim (h.seen l) And.left
  fields l hl := (hnew l hl).elim (h.fields l) And.right
  listing := by simp
  naming := by simp

/-- The session itself makes a step. -/
theorem Tells.own (h : S.Tells s a p busy c done Q) (hs : s.Inv a) (hrs : s.Roster a)
    (hfits : S.Fits a) (hholds : S.Holds s) (hmoved : s.Moved a (.resume S.session) t b)
    (ht : t.Inv b) (hr : t.Roster b) (hholds' : S.Holds t) :
    S.Fits b ∧ ∃ busy' c' done' Q', S.Tells t b p busy' c' done' Q' := by
  have hphases : ∀ {φ : Phase ι}, s.phase S.session = φ → .member p busy = φ := fun heq =>
    h.phase.symm.trans heq
  have hself : ∀ (u : Hall ι) (φ : Phase ι), (u.enter S.session φ).phase S.session = φ := fun u φ =>
    Function.update_self _ _ _
  generalize hact : (Act.resume S.session : Act ι) = act at hmoved
  cases hmoved with
  | accept | join | who | close => cases hact
  | assign act i p' r r' busy' _ _ _ hact' =>
      subst hact
      obtain hact' | ⟨name, hact'⟩ := hact' <;> cases hact'
  | closeOn i p' l b hphase | freed i p' hphase =>
      cases hact
      cases hphases hphase
  | next i p' l b hphase hmove =>
      cases hact
      cases hphases hphase
      obtain ⟨hfits', c', htells⟩ := h.next hs hrs hfits hholds hmove rfl ht hr hholds'
      exact ⟨hfits', _, _, _, _, htells⟩
  | ended i p' hphase htask =>
      cases hact
      cases hphases hphase
      obtain rfl : c = none := by simpa using h.task.symm.trans htask
      exact ⟨hfits, .idle, none, done, Q, { h with
        phase := hself s _
        started := by simp
        watch := fun hover => absurd trivial hover
        ended := fun _ => h.ended rfl
        listing := by simp
        naming := by simp }⟩
  | found i p' x q hphase htask hq =>
      cases hact
      cases hphases hphase
      obtain rfl : c = some x := by simpa using h.task.symm.trans htask
      exact ⟨hfits, .looking q, some x, done, Q, { h with
        phase := hself s _
        started := by simp
        watch := fun _ => h.watch (by simp [Over])
        ended := fun hover => hover.elim
        listing := by simp
        naming := by simp }⟩
  | looked i p' q r hphase hload =>
      cases hact
      cases hphases hphase
      obtain ⟨x, rfl, hx⟩ := h.at_node hs id
      refine ⟨hfits, ?_⟩
      cases hlogged : r.loggedIn with
      | true =>
          refine ⟨.listing q, some x, done, Q, { h with
            phase := hself s _
            started := by simp
            watch := fun _ => h.watch id
            ended := fun hover => hover.elim
            listing := ?_
            naming := by simp }⟩
          rintro q' ⟨⟩
          exact hholds.seen q ⟨r, hload, hlogged⟩
      | false =>
          refine ⟨.stepping, some x, done ++ [(x, q)], Q, ?_⟩
          refine h.pass id rfl hx rfl (hself s _) h.lines (h.sub.trans (List.sublist_append_left _ _))
            (fun l hl => hl) (fun r' hr' => ?_) fun l hl => .inl hl
          -- who stays is logged in
          obtain ⟨-, hload', hlogged'⟩ := hholds.stays q r' hr'
          obtain rfl : r = r' := Option.some.inj (hload.symm.trans hload')
          rw [hlogged] at hlogged'
          cases hlogged'
  | listed i p' q r hphase hload =>
      cases hact
      cases hphases hphase
      obtain ⟨x, rfl, hx⟩ := h.at_node hs id
      refine ⟨hfits, .naming q r.thread, some x, done, Q, { h with
        phase := hself s _
        started := by simp
        watch := fun _ => h.watch id
        ended := fun hover => hover.elim
        listing := by simp
        naming := ?_ }⟩
      rintro q' th ⟨⟩
      refine ⟨h.listing q rfl, fun r' hr' => ?_⟩
      obtain ⟨-, hload', -⟩ := hholds.stays q r' hr'
      rw [Option.some.inj (hload.symm.trans hload')]
  | named i p' q th r hphase hload =>
      cases hact
      cases hphases hphase
      obtain ⟨x, rfl, hx⟩ := h.at_node hs id
      obtain ⟨hseen, hthread⟩ := h.naming q th rfl
      refine ⟨hfits, .stepping, some x, done ++ [(x, q)], Q ++ [⟨q, r.name, th⟩], ?_⟩
      refine h.pass id rfl hx rfl (hself _ _) ?_ ?_ (fun l hl => List.mem_append_left _ hl)
        (fun r' _ => by simp) fun l hl => ?_
      · rw [Hall.linesTo_append, if_pos rfl, h.lines, List.append_assoc, List.map_append]
        rfl
      · rw [List.map_append]
        exact h.sub.append (List.Sublist.refl [q])
      · obtain hl | hl := List.mem_append.mp hl
        · exact .inl hl
        · rw [List.mem_singleton.mp hl]
          refine .inr ⟨hseen, fun r' hr' => ⟨?_, hthread r' hr'⟩⟩
          obtain ⟨-, hload', -⟩ := hholds.stays q r' hr'
          rw [Option.some.inj (hload.symm.trans hload')]

/-- The call is watched as long as it is not over. -/
theorem Tells.run {bs : List (Act ι)} (h : S.Tells s a p busy c done Q) (hs : s.Inv a)
    (hrs : s.Roster a) (hfits : S.Fits a) (hvalid : (sessions ι).Valid s bs)
    (hguard : (sessions ι).AllSteps (fun s act => act.Unlinked s) s bs)
    (hholds : (sessions ι).AllStates S.Holds s bs)
    (honly : ∀ act ∈ bs, act.session = S.session → act = .resume S.session) :
    ∃ t b, (sessions ι).exec s bs = some t ∧ t.Roster b ∧ S.Fits b ∧
      (∀ x q : ℕ, a.inserted[x]? = some q → b.inserted[x]? = some q) ∧
      ∃ busy' c' done' Q', S.Tells t b p busy' c' done' Q' := by
  induction bs generalizing s a busy c done Q with
  | nil => exact ⟨s, a, rfl, hrs, hfits, fun _ _ hx => hx, busy, c, done, Q, h⟩
  | cons act bs ih =>
      obtain ⟨t, b, hstep, hmoved, ht⟩ := hs.moved hvalid.1 hguard.1
      have hrt := hrs.moved hs hmoved
      have hlater := hholds.2 t hstep
      have hkeep : ∀ x q, a.inserted[x]? = some q → b.inserted[x]? = some q := fun x q hx =>
        hmoved.getElem? hx
      have hnext : S.Fits b ∧ ∃ busy' c' done' Q', S.Tells t b p busy' c' done' Q' := by
        by_cases hact : act.session = S.session
        · obtain rfl := honly act List.mem_cons_self hact
          exact h.own hs hrs hfits hholds.head hmoved ht hrt hlater.head
        · obtain ⟨hfits', htells⟩ := h.other hs hfits ht hrt hlater.head hmoved hact
          exact ⟨hfits', busy, c, done, Q, htells⟩
      obtain ⟨hfits', busy', c', done', Q', htells⟩ := hnext
      obtain ⟨u, d, hexec, hru, hfitsu, hkeep', hrest⟩ := ih htells ht hrt hfits'
        (hvalid.2 t hstep) (hguard.2 t hstep) hlater
        fun act hact => honly act (List.mem_cons_of_mem _ hact)
      exact ⟨u, d, (Machine.exec_cons_of_step hstep bs).trans hexec, hru, hfitsu,
        fun x q hx => hkeep' x q (hkeep x q hx), hrest⟩

/-! ## The whole call -/

omit [Fintype ι] [DecidableEq ι] in
/-- Different nodes have different players. -/
theorem players_nodup (hr : s.Roster a) (hnodup : (done.map Prod.fst).Nodup)
    (hdata : ∀ d ∈ done, a.inserted[d.1]? = some d.2) : (done.map Prod.snd).Nodup := by
  refine List.Nodup.map_on (fun d hd d' hd' heq => ?_) (List.Nodup.of_map _ hnodup)
  have hlt := (List.getElem?_eq_some_iff.mp (hdata d hd)).1
  refine Prod.ext ((List.getElem?_inj hlt hr.nodup).mp ?_) heq
  rw [hdata d hd, hdata d' hd', heq]

omit [Fintype ι] in
/-- When the walk is over, those who stay have been shown, in order. -/
theorem Tells.finish (h : S.Tells s a p .idle c done Q) (hr : s.Roster a) (hfits : S.Fits a) :
    (Q.map Line.player).Nodup ∧
      (Q.map Line.player).filter (fun q => (S.steady q).isSome) =
        S.nodes.filterMap fun x => a.inserted[x]? := by
  obtain ⟨hnodup, hnodes⟩ := h.ended trivial
  have hplayers := players_nodup hr hnodup h.data
  refine ⟨h.sub.nodup hplayers, ?_⟩
  have hmem : ∀ d ∈ done, (S.steady d.2).isSome = decide (d.1 ∈ S.nodes) := by
    intro d hd
    rw [Bool.eq_iff_iff, decide_eq_true_eq, Option.isSome_iff_exists]
    constructor
    · rintro ⟨r, hsteady⟩
      obtain ⟨y, hy, hdata⟩ := hfits.mem_of_steady d.2 r hsteady
      have hlt := (List.getElem?_eq_some_iff.mp hdata).1
      rwa [← (List.getElem?_inj hlt hr.nodup).mp (hdata.trans (h.data d hd).symm)]
    · intro hd'
      obtain ⟨q, r, hdata, hsteady⟩ := hfits.steady_of_mem d.1 hd'
      rw [h.data d hd] at hdata
      exact ⟨r, by rwa [Option.some.inj hdata]⟩
  let kept := done.filter ((fun y => decide (y ∈ S.nodes)) ∘ Prod.fst)
  have hfst : kept.map Prod.fst = S.nodes := by rw [← hnodes, List.filter_map]
  have hkept : ∀ d ∈ kept, a.inserted[d.1]? = some d.2 := fun d hd =>
    h.data d (List.mem_of_mem_filter hd)
  have hsnd : (done.map Prod.snd).filter (fun q => (S.steady q).isSome) =
      S.nodes.filterMap fun x => a.inserted[x]? := by
    calc (done.map Prod.snd).filter (fun q => (S.steady q).isSome)
        = (done.filter fun d => (S.steady d.2).isSome).map Prod.snd := List.filter_map
      _ = kept.map Prod.snd := congrArg (List.map Prod.snd) (List.filter_congr hmem)
      _ = kept.filterMap fun d => a.inserted[d.1]? := by
        rw [List.filterMap_congr hkept, ← List.filterMap_eq_map]
        rfl
      _ = S.nodes.filterMap fun x => a.inserted[x]? := by
        rw [← hfst, List.filterMap_map]
        rfl
  rw [← hsnd]
  refine (h.sub.filter _).eq_of_length_le (List.subperm_of_subset (hplayers.filter _) ?_).length_le
  intro q hq
  obtain ⟨hq, hsteady⟩ := List.mem_filter.mp hq
  obtain ⟨d, hd, rfl⟩ := List.mem_map.mp hq
  obtain ⟨r, hr⟩ := Option.isSome_iff_exists.mp hsteady
  exact List.mem_filter.mpr ⟨h.told d hd r hr, hsteady⟩

end Survey

end Moved

variable [Fintype ι] [DecidableEq ι]

/-- The player is on the list and logged in, with the same fields, all the time. -/
def Steady (s : Hall ι) (acts : List (Act ι)) (q : ℕ) : Prop :=
  ∃ r ∈ s.player.load q, (sessions ι).AllStates (Hall.Stays q r) s acts

instance (s : Hall ι) (acts : List (Act ι)) : DecidablePred (Steady s acts) := fun q =>
  inferInstanceAs (Decidable (∃ r ∈ s.player.load q, (sessions ι).AllStates (Hall.Stays q r) s acts))

section Survey

variable {s : Hall ι} {a : Pinned ℕ Empty} {acts : List (Act ι)} {i : ι} {p q : ℕ} {r : Player ι}

theorem Hall.reachable (hvalid : (sessions ι).Valid (sessions ι).init acts)
    (hguard : (sessions ι).AllSteps (fun s act => act.Unlinked s) (sessions ι).init acts)
    (hreach : (sessions ι).exec (sessions ι).init acts = some s) : ∃ a, s.Inv a ∧ s.Roster a := by
  have hkeep : ∀ s act, (∃ a, Hall.Inv s a ∧ s.Roster a) → (sessions ι).enabled s act →
      act.Unlinked s → ∃ t, (sessions ι).step s act = some t ∧ ∃ a, Hall.Inv t a ∧ t.Roster a := by
    rintro s act ⟨a, h, hr⟩ henabled hguard
    obtain ⟨t, b, hstep, hmoved, ht⟩ := h.moved henabled hguard
    exact ⟨t, hstep, b, ht, hr.moved h hmoved⟩
  have hinit : ∃ a, (sessions ι).init.Inv a ∧ (sessions ι).init.Roster a :=
    ⟨Pinned.new, .new, .new⟩
  obtain ⟨⟨t, hexec, ht⟩, -⟩ := Machine.run_invariant hkeep hinit hvalid hguard
  obtain rfl : t = s := Option.some.inj (hexec.symm.trans hreach)
  exact ht

/-- The fields of a player who stays. -/
def steadyFields (s : Hall ι) (acts : List (Act ι)) (q : ℕ) : Option (Player ι) :=
  if Steady s acts q then s.player.load q else none

/-- The call that is made in this state. -/
def survey (s : Hall ι) (a : Pinned ℕ Empty) (acts : List (Act ι)) (i : ι) : Survey ι where
  session := i
  before := s.linesTo i
  steady := steadyFields s acts
  nodes := a.order.filter fun x => (a.inserted[x]?).any fun q => (steadyFields s acts q).isSome
  Seen q := (sessions ι).SomeState (Hall.LoggedIn q) s acts

theorem steadyFields_iff : steadyFields s acts q = some r ↔
    s.player.load q = some r ∧ (sessions ι).AllStates (Hall.Stays q r) s acts := by
  rw [steadyFields]
  constructor
  · intro h
    split_ifs at h with hsteady
    obtain ⟨r', hr', hall⟩ := hsteady
    obtain rfl : r' = r := Option.some.inj (hr'.symm.trans h)
    exact ⟨h, hall⟩
  · rintro ⟨hload, hall⟩
    rw [if_pos ⟨r, hload, hall⟩, hload]

theorem steadyFields_isSome : (steadyFields s acts q).isSome = decide (Steady s acts q) := by
  rw [Bool.eq_iff_iff, Option.isSome_iff_exists, decide_eq_true_eq]
  exact exists_congr fun r => steadyFields_iff

theorem survey_holds : (sessions ι).AllStates (survey s a acts i).Holds s acts := by
  have hstays : (sessions ι).AllStates
      (fun t => ∀ x : ℕ × Player ι, (survey s a acts i).steady x.1 = some x.2 → t.Stays x.1 x.2)
        s acts := by
    refine Machine.allStates_forall fun x => ?_
    by_cases hx : (survey s a acts i).steady x.1 = some x.2
    · exact (steadyFields_iff.mp hx).2.mono fun t ht _ => ht
    · exact Machine.allStates_of_forall (fun t ht => absurd ht hx) s acts
  have hseen : (sessions ι).AllStates
      (fun t => ∀ q, Hall.LoggedIn q t → (survey s a acts i).Seen q) s acts :=
    Machine.allStates_of_someState fun q hq => hq
  exact (hstays.and hseen).mono fun t ht => ⟨fun q r => ht.1 (q, r), ht.2⟩

theorem survey_fits (hr : s.Roster a) : (survey s a acts i).Fits a := by
  constructor
  · intro y hy
    change y ∈ a.order.filter _ at hy
    obtain ⟨q, hq, hsteady⟩ := (Option.any_eq_true _ _).mp (List.mem_filter.mp hy).2
    obtain ⟨r, hr⟩ := Option.isSome_iff_exists.mp hsteady
    exact ⟨q, r, hq, hr⟩
  · intro q r hsteady
    change steadyFields s acts q = some r at hsteady
    obtain ⟨⟨j, hj⟩, -⟩ := (steadyFields_iff.mp hsteady).2.head
    cases hphase : s.phase j with
    | absent | created | closing => simp [hphase, Phase.onList] at hj
    | member p act =>
        obtain rfl : p = q := by simpa [hphase, Phase.onList] using hj
        obtain ⟨y, hy, hdata⟩ := hr.member j p act hphase
        refine ⟨y, List.mem_filter.mpr ⟨(Pinned.mem_live.mp hy).1, ?_⟩, hdata⟩
        rw [hdata, Option.any_some, hsteady]
        rfl

/-- The players of the nodes are those on the list who stay. -/
theorem survey_nodes (h : s.Inv a) :
    ((survey s a acts i).nodes.filterMap fun x => a.inserted[x]?) =
      s.listing.filter fun q => decide (Steady s acts q) := by
  have hlisting : s.listing = a.order.filterMap fun x => a.inserted[x]? := by
    rw [Hall.listing, h.list.refines.contents_eq h.list.ok]
    exact List.filterMap_congr fun x hx => h.nodeData hx
  rw [hlisting, List.filter_filterMap]
  change (a.order.filter _).filterMap _ = _
  rw [List.filterMap_filter]
  refine List.filterMap_congr fun x _ => ?_
  cases hdata : a.inserted[x]? with
  | none => rfl
  | some q => rw [Option.any_some, Option.filter_some, steadyFields_isSome]

/-- The call starts. -/
theorem survey_tells (hs : s.Inv a) (hphase : s.phase i = .member p .idle) :
    (survey s a acts i).Tells (s.enter i (.member p .stepping)) a p .stepping none [] [] where
  phase := Function.update_self _ _ _
  started := by simp
  task := by
    have hfits := hs.fits i
    rw [hphase] at hfits
    exact hfits
  watch _ := by
    have hstart : Watch (fun y => decide (y ∈ (survey s a acts i).nodes)) .fwd
        (a.order.filter fun y => decide (y ∈ (survey s a acts i).nodes)) none [] a := Watch.start a
    have hnodes : (a.order.filter fun y => decide (y ∈ (survey s a acts i).nodes)) =
        (survey s a acts i).nodes := by
      refine List.filter_congr fun y hy => ?_
      rw [Bool.eq_iff_iff, decide_eq_true_eq]
      exact List.mem_filter.trans (and_iff_right hy)
    rw [hnodes] at hstart
    exact hstart
  ended hover := hover.elim
  data := by simp
  lines := (List.append_nil _).symm
  sub := List.Sublist.refl []
  told := by simp
  seen := by simp
  fields := by simp
  listing := by simp
  naming := by simp

end Survey

/-- A call of `command_who`, in any state of the server and with any steps of the others in
between. Once it is over it has shown nobody twice, those who were on the list and logged in
all the time once each and in the order of the list, with their names and threads, and only
players who were logged in at some time of the call. -/
theorem who_lists (acts bs : List (Act ι)) (i : ι) (s : Hall ι)
    (hvalid : (sessions ι).Valid (sessions ι).init acts)
    (hguard : (sessions ι).AllSteps (fun s act => act.Unlinked s) (sessions ι).init acts)
    (hreach : (sessions ι).exec (sessions ι).init acts = some s)
    (hrun : (sessions ι).Valid s (.who i :: bs))
    (hrunGuard : (sessions ι).AllSteps (fun s act => act.Unlinked s) s (.who i :: bs))
    (honly : ∀ act ∈ bs, act.session = i → act = .resume i) :
    ∃ t, (sessions ι).exec s (.who i :: bs) = some t ∧
      ∀ p, t.phase i = .member p .idle → ∃ Q : List (Line ι),
        t.linesTo i = s.linesTo i ++ Q.map Line.shown ∧
        (Q.map Line.player).Nodup ∧
        (Q.map Line.player).filter (Steady s (.who i :: bs) ·) =
          s.listing.filter (Steady s (.who i :: bs) ·) ∧
        ∀ l ∈ Q, (sessions ι).SomeState (Hall.LoggedIn l.player) s (.who i :: bs) ∧
          ∀ r, (sessions ι).AllStates (Hall.Stays l.player r) s (.who i :: bs) →
            l.name = r.name ∧ l.thread = r.thread := by
  obtain ⟨a, hs, hr⟩ := Hall.reachable hvalid hguard hreach
  obtain ⟨t, b, hstep, hmoved, ht⟩ := hs.moved hrun.1 hrunGuard.1
  have hrt := hr.moved hs hmoved
  let S := survey s a (.who i :: bs) i
  cases hmoved with
  | assign _ _ _ _ _ _ _ _ _ hact => obtain hact | ⟨name, hact⟩ := hact <;> cases hact
  | who i p hphase =>
      have htells : S.Tells (s.enter i (.member p .stepping)) a p .stepping none [] [] :=
        survey_tells hs hphase
      have hholds : (sessions ι).AllStates S.Holds s (.who i :: bs) := survey_holds
      have hsteady : S.Fits a := survey_fits hr
      obtain ⟨u, d, hexec, hru, hfits, hkeep, busy, c, done, Q, htold⟩ := htells.run ht hrt
        hsteady (hrun.2 _ hstep) (hrunGuard.2 _ hstep) (hholds.2 _ hstep) honly
      refine ⟨u, (Machine.exec_cons_of_step hstep bs).trans hexec, fun p' hover => ?_⟩
      have hphase' := htold.phase
      rw [show S.session = i from rfl, hover] at hphase'
      cases hphase'
      obtain ⟨hnodup, hfilter⟩ := htold.finish hru hfits
      refine ⟨Q, htold.lines, hnodup, ?_, fun l hl => ⟨htold.seen l hl, fun r hall => ?_⟩⟩
      · have hsame : (S.nodes.filterMap fun x => d.inserted[x]?) =
            S.nodes.filterMap fun x => a.inserted[x]? := by
          refine List.filterMap_congr fun x hx => ?_
          obtain ⟨q, r, hq, -⟩ := hsteady.steady_of_mem x hx
          rw [hq, hkeep x q hq]
        rw [hsame, survey_nodes hs] at hfilter
        rw [← hfilter]
        exact List.filter_congr fun q _ => steadyFields_isSome.symm
      · exact htold.fields l hl r (steadyFields_iff.mpr ⟨hall.head.2.1, hall⟩)

/-- Three sessions log in. -/
def threeLogIn : List (Act (Option Bool)) :=
  [.accept none, .join none, .start none, .login none [65],
    .accept (some false), .join (some false), .start (some false), .login (some false) [66],
    .accept (some true), .join (some true), .start (some true), .login (some true) [67]]

/-- The first one lists them, while the second one leaves before the list comes to it. -/
def oneLeaves : List (Act (Option Bool)) :=
  [.resume none, .close (some false)] ++ List.replicate 7 (.resume (some false)) ++
    List.replicate 11 (.resume none)

/-- The state in which the three are logged in. -/
def ofThreeLogIn : Hall (Option Bool) :=
  ((sessions (Option Bool)).exec (sessions (Option Bool)).init threeLogIn).get (by decide)

example : ((sessions (Option Bool)).exec ofThreeLogIn (.who none :: oneLeaves)).map
    (fun t => (t.linesTo none, t.phase none)) =
      some ([([65], some none), ([67], some (some true))], .member 0 .idle) := by
  decide

theorem oneLeaves_lists :
    ∃ t, (sessions (Option Bool)).exec ofThreeLogIn (.who none :: oneLeaves) = some t ∧
      ∀ p, t.phase none = .member p .idle → ∃ Q : List (Line (Option Bool)),
        t.linesTo none = ofThreeLogIn.linesTo none ++ Q.map Line.shown ∧
        (Q.map Line.player).Nodup ∧
        (Q.map Line.player).filter (Steady ofThreeLogIn (.who none :: oneLeaves) ·) =
          ofThreeLogIn.listing.filter (Steady ofThreeLogIn (.who none :: oneLeaves) ·) ∧
        ∀ l ∈ Q, (sessions (Option Bool)).SomeState (Hall.LoggedIn l.player) ofThreeLogIn
            (.who none :: oneLeaves) ∧
          ∀ r, (sessions (Option Bool)).AllStates (Hall.Stays l.player r) ofThreeLogIn
            (.who none :: oneLeaves) → l.name = r.name ∧ l.thread = r.thread :=
  who_lists threeLogIn oneLeaves none ofThreeLogIn (by decide) (by decide) (Option.some_get _).symm
    (by decide) (by decide) (by decide)

end ThreeW3.Sessions
