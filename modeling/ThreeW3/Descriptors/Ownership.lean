/-
# Who closes what

`player_close` trusts the field `fd`, which `player_new` clears. A player whose accept(2)
has failed has no descriptor, and closing it closes descriptor 0, whatever that is. All
other players are closed with the descriptor that accept(2) has returned for them, which
nobody else closes.
-/

import Mathlib.Tactic.SplitIfs
import ThreeW3.Descriptors.Model

namespace ThreeW3.Descriptors

open ThreeW3.Lib

universe u
variable {ι : Type u}

/-! ## The property and the condition -/

/-- The player's descriptor was returned by accept(2) for this player, has not been closed
by its `player_close`, and is open for its session. -/
def Server.Owns (s : Server ι) (p : ℕ) : Prop :=
  ∃ fd, (s.player.load p).map Player.fd = some fd ∧ .accepted p fd ∈ s.trace ∧
    (∀ fd', .closed p fd' ∉ s.trace) ∧ s.table fd = some (.session p)

/-- The call in `player_close` that the stage has come to, with its player. -/
def Stage.playerClose : Stage → Option (ℕ × Closing)
  | undoing p c => some (p, c)
  | dropping p c => some (p, c)
  | closing p c => some (p, c)
  | _ => none

/-- Where `player_close` shuts down or closes a descriptor, it is the player's own. -/
def Act.ClosesOwn (s : Server ι) : Act ι → Prop
  | resume i => ∀ p c, (s.stage i).playerClose = some (p, c) → c ≠ .free → s.Owns p
  | _ => True

/-- `player_close` has come to a system call for a player whose accept(2) has failed. -/
def Stage.unaccepted : Stage → Bool
  | dropping _ c => c ≠ .free
  | _ => false

/-- `player_close` makes no system call for a player whose accept(2) has failed. -/
def Act.AfterAccept (s : Server ι) : Act ι → Prop
  | resume i => (s.stage i).unaccepted = false
  | _ => True

instance Act.decidableAfterAccept (s : Server ι) : ∀ act : Act ι, Decidable (act.AfterAccept s)
  | resume i => inferInstanceAs (Decidable ((s.stage i).unaccepted = false))
  | listen _ _ | opens _ | closes _ | new _ _ | accept _ _ | assign _ | create _ _ | socketClose _
  | finish _ => isTrue trivial

/-! ## Servers in order -/

namespace Stage

/-- The player that the thread has. -/
def player : Stage → Option ℕ
  | accepting p => some p
  | accepted p _ => some p
  | starting p => some p
  | undoing p _ => some p
  | refused p => some p
  | dropping p _ => some p
  | running p => some p
  | closing p _ => some p
  | _ => none

/-- The listener of the thread is open. -/
def listens : Stage → Bool
  | making => true
  | accepting _ => true
  | accepted _ _ => true
  | starting _ => true
  | undoing _ _ => true
  | refused _ => true
  | _ => false

variable {st : Stage} {l : ι} {i : Thread ι} {p : ℕ} {ok : Bool} {connfd : Option ℕ}

@[simp]
theorem allows_new : st.allows (.new l ok) = true ↔ st = .making := by
  cases st <;> simp [allows]

@[simp]
theorem allows_accept : st.allows (.accept l connfd) = true ↔ ∃ p, st = .accepting p := by
  cases st <;> simp [allows]

@[simp]
theorem allows_assign : st.allows (.assign l) = true ↔ ∃ p fd, st = .accepted p fd := by
  cases st <;> simp [allows]

@[simp]
theorem allows_create : st.allows (.create l ok) = true ↔ ∃ p, st = .starting p := by
  cases st <;> simp [allows]

@[simp]
theorem allows_socketClose : st.allows (.socketClose l) = true ↔ ∃ p, st = .refused p := by
  cases st <;> simp [allows]

@[simp]
theorem allows_finish : st.allows (Act.finish (ι := ι) p) = true ↔ ∃ q, st = .running q := by
  cases st <;> simp [allows]

@[simp]
theorem allows_resume : st.allows (.resume i) = true ↔
    ∃ p c, st = .undoing p c ∨ st = .dropping p c ∨ st = .closing p c := by
  cases st <;> simp [allows]

end Stage

/-- An entry stays as it is where one with another value is changed. -/
theorem update_keeps {β : Type u} {f : ℕ → β} {a b : ℕ} {c d : β} (ha : f a ≠ c) (hb : f b = c) :
    Function.update f a d b = c := by
  rw [Function.update_of_ne]
  · exact hb
  · rintro rfl
    exact ha hb

namespace Server

/-- Nothing has happened to a descriptor for the player. -/
def Untouched (s : Server ι) (p : ℕ) : Prop :=
  ∀ fd, .accepted p fd ∉ s.trace ∧ .closed p fd ∉ s.trace

/-- How the player of a thread stands. -/
def Standing (s : Server ι) : Stage → Prop
  | .accepting p => (s.player.load p).isSome = true ∧ s.Untouched p
  | .accepted p fd => (s.player.load p).isSome = true ∧ .accepted p fd ∈ s.trace ∧
      (∀ fd', .closed p fd' ∉ s.trace) ∧ s.table fd = some (.session p)
  | .starting p => s.Owns p
  | .undoing p c => (s.player.load p).isSome = true ∧ (c ≠ .free → s.Owns p)
  | .refused p => (s.player.load p).isSome = true ∧ s.Untouched p
  | .dropping p _ => (s.player.load p).isSome = true ∧ s.Untouched p
  | .running p => s.Owns p
  | .closing p c => (s.player.load p).isSome = true ∧ (c ≠ .free → s.Owns p)
  | _ => True

/-- Each player is with one thread and stands as the thread has brought it, and the accept
loops have their listeners. -/
structure Inv (s : Server ι) : Prop where
  apart : ∀ i j p, (s.stage i).player = some p → (s.stage j).player = some p → i = j
  lt_fresh : ∀ i p, (s.stage i).player = some p → p < s.fresh
  untouched : ∀ p, s.fresh ≤ p → s.Untouched p
  standing : ∀ i, s.Standing (s.stage i)
  listening : ∀ l, (s.stage (.acceptor l)).listens = true →
    s.table (s.listenFd l) = some (.listener l)

/-- A step leaves a player alone. -/
structure Same (s t : Server ι) (p : ℕ) : Prop where
  load_eq : t.player.load p = s.player.load p
  accepted_iff : ∀ fd, .accepted p fd ∈ t.trace ↔ .accepted p fd ∈ s.trace
  closed_iff : ∀ fd, .closed p fd ∈ t.trace ↔ .closed p fd ∈ s.trace
  table : ∀ fd, s.table fd = some (.session p) → t.table fd = some (.session p)

variable {s t : Server ι} {i : Thread ι} {p q fd : ℕ} {st : Stage}

theorem Owns.isSome_load (h : s.Owns p) : (s.player.load p).isSome = true := by
  obtain ⟨fd, hfd, -⟩ := h
  exact Option.isSome_iff_exists.mpr (Option.map_eq_some_iff.mp hfd |>.imp fun _ hq => hq.1)

theorem Same.refl (s : Server ι) (p : ℕ) : s.Same s p :=
  ⟨rfl, fun _ => Iff.rfl, fun _ => Iff.rfl, fun _ => id⟩

theorem Same.untouched (h : s.Same t p) (hs : s.Untouched p) : t.Untouched p := by
  intro fd
  rw [h.accepted_iff, h.closed_iff]
  exact hs fd

theorem Same.owns (h : s.Same t p) (hs : s.Owns p) : t.Owns p := by
  obtain ⟨fd, hfd, haccepted, hclosed, htable⟩ := hs
  refine ⟨fd, by rw [h.load_eq, hfd], (h.accepted_iff fd).mpr haccepted, fun fd' => ?_,
    h.table fd htable⟩
  rw [h.closed_iff]
  exact hclosed fd'

theorem Same.standing (h : ∀ p, st.player = some p → s.Same t p) (hs : s.Standing st) :
    t.Standing st := by
  cases st with
  | absent | making | exited => trivial
  | accepting p | refused p | dropping p _ =>
      have hp := h p rfl
      exact ⟨by rw [hp.load_eq]; exact hs.1, hp.untouched hs.2⟩
  | starting p | running p => exact (h p rfl).owns hs
  | undoing p c | closing p c =>
      have hp := h p rfl
      exact ⟨by rw [hp.load_eq]; exact hs.1, fun hc => hp.owns (hs.2 hc)⟩
  | accepted p fd =>
      have hp := h p rfl
      obtain ⟨hload, haccepted, hclosed, htable⟩ := hs
      refine ⟨by rw [hp.load_eq]; exact hload, (hp.accepted_iff fd).mpr haccepted, fun fd' => ?_,
        hp.table fd htable⟩
      rw [hp.closed_iff]
      exact hclosed fd'

/-- A descriptor that is not a player's may change hands. -/
theorem Same.of_table {o : Option (Owner ι)} (hfd : s.table fd ≠ some (.session p))
    (htable : t.table = Function.update s.table fd o) (hplayer : t.player = s.player)
    (htrace : t.trace = s.trace) : s.Same t p := by
  refine ⟨by rw [hplayer], fun _ => by rw [htrace], fun _ => by rw [htrace], fun fd' hfd' => ?_⟩
  rw [htable]
  exact update_keeps hfd hfd'

variable [DecidableEq ι]

theorem Same.enter (s : Server ι) (i : Thread ι) (st : Stage) (p : ℕ) : s.Same (s.enter i st) p :=
  ⟨rfl, fun _ => Iff.rfl, fun _ => Iff.rfl, fun _ => id⟩

omit [DecidableEq ι] in
theorem Inv.kept (h : s.Inv) (hp : (s.stage i).player = some p) :
    p < s.fresh ∧ ∀ j, j ≠ i → (s.stage j).player ≠ some p :=
  ⟨h.lt_fresh i p hp, fun j hj hjp => hj (h.apart j i p hjp hp)⟩

/-- A thread goes to another stage, and the players and listeners of the others are left
alone. -/
theorem Inv.enter (h : s.Inv) (hfresh : s.fresh ≤ t.fresh) (hstage : t.stage = s.stage)
    (huntouched : ∀ p, t.fresh ≤ p → t.Untouched p)
    (hsame : ∀ j, j ≠ i → ∀ p, (s.stage j).player = some p → s.Same t p)
    (hothers : ∀ l, .acceptor l ≠ i → s.table (s.listenFd l) = some (.listener l) →
      t.table (t.listenFd l) = some (.listener l))
    (hself : t.Standing st)
    (hplayer : ∀ p, st.player = some p →
      p < t.fresh ∧ ∀ j, j ≠ i → (s.stage j).player ≠ some p)
    (hlistens : ∀ l, i = .acceptor l → st.listens = true →
      t.table (t.listenFd l) = some (.listener l)) : (t.enter i st).Inv := by
  have hi : (t.enter i st).stage i = st := by simp [Server.enter]
  have hj : ∀ j, j ≠ i → (t.enter i st).stage j = s.stage j := by
    intro j hj
    simp [Server.enter, hj, hstage]
  have hstanding : ∀ st', t.Standing st' → (t.enter i st).Standing st' := fun st' =>
    Same.standing fun p _ => Same.enter t i st p
  refine ⟨fun j k p hjp hkp => ?_, fun j p hjp => ?_, huntouched, fun j => ?_, fun l hl => ?_⟩
  · by_cases hji : j = i <;> by_cases hki : k = i
    · rw [hji, hki]
    · subst hji
      exact absurd (hj k hki ▸ hkp) ((hplayer p (hi ▸ hjp)).2 k hki)
    · subst hki
      exact absurd (hj j hji ▸ hjp) ((hplayer p (hi ▸ hkp)).2 j hji)
    · exact h.apart j k p (hj j hji ▸ hjp) (hj k hki ▸ hkp)
  · by_cases hji : j = i
    · subst hji
      exact (hplayer p (hi ▸ hjp)).1
    · exact Nat.lt_of_lt_of_le (h.lt_fresh j p (hj j hji ▸ hjp)) hfresh
  · by_cases hji : j = i
    · subst hji
      rw [hi]
      exact hstanding st hself
    · rw [hj j hji]
      exact hstanding _ (Same.standing (hsame j hji) (h.standing j))
  · by_cases hli : .acceptor l = i
    · subst hli
      exact hlistens l rfl (hi ▸ hl)
    · exact hothers l hli (h.listening l (hj _ hli ▸ hl))

/-- A thread goes to another stage, with its player or without, and nothing has changed for
the other players and the listeners. -/
theorem Inv.enter_own (h : s.Inv) (hp : (s.stage i).player = some p) (hfresh : t.fresh = s.fresh)
    (hstage : t.stage = s.stage) (hsame : ∀ q, q ≠ p → s.Same t q)
    (hlistener : ∀ l, s.table (s.listenFd l) = some (.listener l) →
      t.table (t.listenFd l) = some (.listener l))
    (hself : t.Standing st) (hplayer : ∀ q, st.player = some q → q = p)
    (hlistens : st.listens = true → (s.stage i).listens = true) : (t.enter i st).Inv := by
  obtain ⟨hlt, hothers⟩ := h.kept hp
  apply h.enter (Nat.le_of_eq hfresh.symm) hstage
  · intro q hq
    rw [hfresh] at hq
    have hne : q ≠ p := by omega
    exact (hsame q hne).untouched (h.untouched q hq)
  · intro j hj q hq
    apply hsame
    rintro rfl
    exact hothers j hj hq
  · exact fun l _ => hlistener l
  · exact hself
  · intro q hq
    rw [hfresh, hplayer q hq]
    exact ⟨hlt, hothers⟩
  · rintro l rfl hl
    exact hlistener l (h.listening l (hlistens hl))

/-- Only the stage changes, and the thread keeps its player or drops it. -/
theorem Inv.goto (h : s.Inv) (hself : s.Standing st)
    (hplayer : ∀ p, st.player = some p → (s.stage i).player = some p)
    (hlistens : st.listens = true → (s.stage i).listens = true) : (s.enter i st).Inv := by
  apply h.enter le_rfl rfl h.untouched (fun _ _ p _ => Same.refl s p) (fun _ _ hl => hl) hself
  · exact fun p hp => h.kept (hplayer p hp)
  · rintro l rfl hl
    exact h.listening l (hlistens hl)

omit [DecidableEq ι] in
/-- The table changes where no player and no listener has its descriptor. -/
theorem Inv.retable {o : Option (Owner ι)} (h : s.Inv) (hfd : ∀ p, s.table fd ≠ some (.session p))
    (hlistener : ∀ l, s.table fd ≠ some (.listener l)) :
    Inv { s with table := Function.update s.table fd o } := by
  refine ⟨h.apart, h.lt_fresh, h.untouched, fun j => ?_, fun l hl => ?_⟩
  · exact Same.standing (fun p _ => .of_table (hfd p) rfl rfl rfl) (h.standing j)
  · exact update_keeps (hlistener l) (h.listening l hl)

/-- `socket_close` closes the descriptor of the listener, and the thread drops its player or
keeps it. -/
theorem Inv.socketClose {l : ι} (h : s.Inv) (hl : (s.stage (.acceptor l)).listens = true)
    (hself : ∀ t : Server ι, (∀ p, s.Same t p) → t.Standing st)
    (hplayer : ∀ p, st.player = some p → (s.stage (.acceptor l)).player = some p)
    (hst : st.listens = false) : ((s.socketClose l).enter (.acceptor l) st).Inv := by
  have htable := h.listening l hl
  have hsame : ∀ p, s.Same (s.socketClose l) p := fun p =>
    .of_table (by rw [htable]; simp) rfl rfl rfl
  refine h.enter le_rfl rfl (fun p hp => (hsame p).untouched (h.untouched p hp))
    (fun _ _ p _ => hsame p) ?_ ?_ ?_ ?_
  · intro k hk
    apply update_keeps
    rw [htable]
    rintro ⟨⟩
    exact hk rfl
  · exact hself _ hsame
  · exact fun p hp => h.kept (hplayer p hp)
  · intro k _ hk
    rw [hst] at hk
    cases hk

/-! ## `player_close` -/

/-- shutdown(2). -/
theorem Inv.shutdown (h : s.Inv) (hp : (s.stage i).player = some p) (howns : s.Owns p)
    (hst : st.player = some p) (hself : ∀ t : Server ι, (t.player.load p).isSome = true →
      t.Owns p → t.Standing st) (hlistens : st.listens = true → (s.stage i).listens = true) :
    ∃ t, s.playerClose p .shutdown = some (t, some .close) ∧ (t.enter i st).Inv := by
  have ⟨fd, hfd, _⟩ := howns
  obtain ⟨q, hq, rfl⟩ := Option.map_eq_some_iff.mp hfd
  refine ⟨{ s with trace := s.trace ++ [.shut p q.fd] }, by simp [playerClose, hq], ?_⟩
  have hsame : ∀ r, s.Same { s with trace := s.trace ++ [.shut p q.fd] } r := fun r =>
    ⟨rfl, fun fd => by simp, fun fd => by simp, fun fd hfd => hfd⟩
  refine h.enter_own hp rfl rfl (fun r _ => hsame r) (fun _ hl => hl) ?_ ?_ ?_
  · exact hself _ (by rw [hq]; rfl) ((hsame p).owns howns)
  · rw [hst]
    exact fun r hr => (Option.some.inj hr).symm
  · exact hlistens

/-- close(2). -/
theorem Inv.close (h : s.Inv) (hp : (s.stage i).player = some p) (howns : s.Owns p)
    (hst : st.player = some p) (hself : ∀ t : Server ι, (t.player.load p).isSome = true →
      t.Standing st) (hlistens : st.listens = true → (s.stage i).listens = true) :
    ∃ t, s.playerClose p .close = some (t, some .free) ∧ (t.enter i st).Inv := by
  obtain ⟨fd, hfd, -, -, htable⟩ := howns
  obtain ⟨q, hq, rfl⟩ := Option.map_eq_some_iff.mp hfd
  refine ⟨{ s with table := Function.update s.table q.fd none,
                   trace := s.trace ++ [.closed p q.fd] }, by simp [playerClose, hq], ?_⟩
  have hkeep : ∀ fd (o : Owner ι), o ≠ .session p → s.table fd = some o →
      Function.update s.table q.fd none fd = some o := fun fd o ho =>
    update_keeps (by rw [htable]; simpa using ho.symm)
  refine h.enter_own hp rfl rfl ?_ ?_ ?_ ?_ ?_
  · intro r hr
    exact ⟨rfl, fun fd => by simp, fun fd => by simp [hr], fun fd => hkeep fd _ (by simpa using hr)⟩
  · exact fun l => hkeep _ _ (by simp)
  · exact hself _ (by simp [hq])
  · rw [hst]
    exact fun r hr => (Option.some.inj hr).symm
  · exact hlistens

/-- free(3). -/
theorem Inv.free (h : s.Inv) (hp : (s.stage i).player = some p)
    (hload : (s.player.load p).isSome = true) (hst : st.player = none)
    (hself : ∀ t : Server ι, t.Standing st)
    (hlistens : st.listens = true → (s.stage i).listens = true) :
    ∃ t, s.playerClose p .free = some (t, none) ∧ (t.enter i st).Inv := by
  obtain ⟨q, hq⟩ := Option.isSome_iff_exists.mp hload
  refine ⟨{ s with player := s.player.free p }, by simp [playerClose, hq], ?_⟩
  refine h.enter_own hp rfl rfl ?_ ?_ ?_ ?_ ?_
  · intro r hr
    exact ⟨by simp [Heap.load_free, hr], fun _ => Iff.rfl, fun _ => Iff.rfl, fun _ => id⟩
  · exact fun _ hl => hl
  · exact hself _
  · rw [hst]
    rintro r ⟨⟩
  · exact hlistens

/-! ## The steps -/

theorem Inv.listen {l : ι} (h : s.Inv) (hfd : s.table fd = none) :
    (Server.enter { s with
      table := Function.update s.table fd (some (.listener l))
      listenFd := Function.update s.listenFd l fd } (.acceptor l) .making).Inv := by
  refine h.enter le_rfl rfl h.untouched ?_ ?_ ?_ ?_ ?_
  · exact fun _ _ p _ => .of_table (by rw [hfd]; simp) rfl rfl rfl
  · intro k hk hopen
    have hkl : k ≠ l := fun heq => hk (heq ▸ rfl)
    show Function.update s.table fd _ (Function.update s.listenFd l fd k) = _
    rw [Function.update_of_ne hkl]
    exact update_keeps (by rw [hfd]; simp) hopen
  · trivial
  · rintro p ⟨⟩
  · rintro k ⟨⟩ -
    simp

/-- The new player is no other thread's. -/
theorem Inv.new {l : ι} (h : s.Inv) (hl : s.stage (.acceptor l) = .making) :
    (Server.enter { s with
      player := s.player.store s.fresh playerNew
      fresh := s.fresh + 1 } (.acceptor l) (.accepting s.fresh)).Inv := by
  refine h.enter (Nat.le_succ _) rfl (fun p hp => h.untouched p (Nat.le_of_succ_le hp))
    ?_ ?_ ?_ ?_ ?_
  · intro j _ p hp
    have hne : p ≠ s.fresh := Nat.ne_of_lt (h.lt_fresh j p hp)
    exact ⟨by simp [Heap.load_store, hne], fun _ => Iff.rfl, fun _ => Iff.rfl, fun _ => id⟩
  · exact fun _ _ hl => hl
  · exact ⟨by simp, h.untouched _ le_rfl⟩
  · rintro p ⟨⟩
    exact ⟨Nat.lt_succ_self _, fun j _ hj => Nat.lt_irrefl _ (h.lt_fresh j _ hj)⟩
  · rintro k ⟨⟩ -
    exact h.listening l (by rw [hl]; rfl)

/-- The kernel gives out a descriptor that nobody has. -/
theorem Inv.accept {l : ι} (h : s.Inv) (hl : s.stage (.acceptor l) = .accepting p)
    (hfd : s.table fd = none) :
    (Server.enter { s with
      table := Function.update s.table fd (some (.session p))
      trace := s.trace ++ [.accepted p fd] } (.acceptor l) (.accepted p fd)).Inv := by
  have hp : (s.stage (.acceptor l)).player = some p := by rw [hl]; rfl
  have hstanding := h.standing (.acceptor l)
  rw [hl] at hstanding
  obtain ⟨hload, huntouched⟩ := hstanding
  have hkeep : ∀ fd' o, s.table fd' = some o →
      Function.update s.table fd (some (.session p)) fd' = some o := fun fd' o =>
    update_keeps (by rw [hfd]; simp)
  refine h.enter_own hp rfl rfl ?_ ?_ ?_ ?_ ?_
  · intro q hq
    exact ⟨rfl, fun _ => by simp [hq], fun _ => by simp, fun fd' => hkeep fd' _⟩
  · exact fun k => hkeep _ _
  · refine ⟨hload, by simp, fun fd' => ?_, by simp⟩
    simpa using (huntouched fd').2
  · exact fun r hr => (Option.some.inj hr).symm
  · exact fun _ => by rw [hl]; rfl

theorem Inv.assign {l : ι} (h : s.Inv) (hl : s.stage (.acceptor l) = .accepted p fd) :
    ∃ t, s.step (.assign l) = some t ∧ t.Inv := by
  have hp : (s.stage (.acceptor l)).player = some p := by rw [hl]; rfl
  have hstanding := h.standing (.acceptor l)
  rw [hl] at hstanding
  obtain ⟨hload, haccepted, hclosed, htable⟩ := hstanding
  obtain ⟨q, hq⟩ := Option.isSome_iff_exists.mp hload
  refine ⟨Server.enter { s with player := s.player.store p { q with fd } } (.acceptor l)
    (.starting p), by simp [step, hl, hq], ?_⟩
  refine h.enter_own hp rfl rfl ?_ ?_ ?_ ?_ ?_
  · intro r hr
    exact ⟨by simp [Heap.load_store, hr], fun _ => Iff.rfl, fun _ => Iff.rfl, fun _ => id⟩
  · exact fun _ hl => hl
  · exact ⟨fd, by simp, haccepted, hclosed, htable⟩
  · exact fun r hr => (Option.some.inj hr).symm
  · exact fun _ => by rw [hl]; rfl

/-- The new session takes the player over from the accept loop. -/
theorem Inv.create {l : ι} (h : s.Inv) (hl : s.stage (.acceptor l) = .starting p) :
    ((s.enter (.acceptor l) .making).enter (.session p) (.running p)).Inv := by
  have hp : (s.stage (.acceptor l)).player = some p := by rw [hl]; rfl
  have howns := h.standing (.acceptor l)
  rw [hl] at howns
  have hmaking : (s.enter (.acceptor l) .making).Inv :=
    h.goto trivial (fun _ hq => nomatch hq) (fun _ => by rw [hl]; rfl)
  have hplayer : ∀ j, ((s.enter (.acceptor l) .making).stage j).player ≠ some p := by
    intro j
    by_cases hj : j = .acceptor l
    · subst hj
      simp [Server.enter, Stage.player]
    · simp only [Server.enter, Function.update_of_ne hj]
      exact (h.kept hp).2 j hj
  refine hmaking.enter le_rfl rfl h.untouched (fun _ _ p _ => Same.refl _ p) (fun _ _ hl => hl)
    ((Same.enter s _ _ p).owns howns) ?_ ?_
  · rintro r ⟨⟩
    exact ⟨(h.kept hp).1, fun j _ => hplayer j⟩
  · rintro k ⟨⟩

/-- The next call in the `player_close` of a thread that has closed its player's own descriptor
so far. -/
theorem Inv.resume {st : Closing → Stage} {last : Stage} {c : Closing} (h : s.Inv)
    (hstage : s.stage i = st c) (hst : ∀ c, (st c).player = some p)
    (hstanding : ∀ (t : Server ι) c, t.Standing (st c) ↔
      (t.player.load p).isSome = true ∧ (c ≠ .free → t.Owns p))
    (hlast : last.player = none) (hlastStanding : ∀ t : Server ι, t.Standing last)
    (hlistens : ∀ c c', (st c).listens = true → (st c').listens = true)
    (hlastListens : last.listens = true → ∀ c, (st c).listens = true) :
    ∃ t, ((s.playerClose p c).map fun (t, next) => t.enter i (next.elim last st)) = some t ∧
      t.Inv := by
  have hp : (s.stage i).player = some p := by rw [hstage, hst]
  have hself := h.standing i
  rw [hstage, hstanding] at hself
  cases c with
  | shutdown =>
      obtain ⟨t, ht, hinv⟩ := h.shutdown hp (hself.2 (by decide)) (hst .close)
        (fun t hload howns => (hstanding t _).mpr ⟨hload, fun _ => howns⟩)
        (fun hl => hstage ▸ hlistens _ _ hl)
      exact ⟨_, by rw [ht]; rfl, hinv⟩
  | close =>
      obtain ⟨t, ht, hinv⟩ := h.close hp (hself.2 (by decide)) (hst .free)
        (fun t hload => (hstanding t _).mpr ⟨hload, fun hc => absurd rfl hc⟩)
        (fun hl => hstage ▸ hlistens _ _ hl)
      exact ⟨_, by rw [ht]; rfl, hinv⟩
  | free =>
      obtain ⟨t, ht, hinv⟩ := h.free hp hself.1 hlast hlastStanding
        (fun hl => hstage ▸ hlastListens hl _)
      exact ⟨_, by rw [ht]; rfl, hinv⟩

end Server

open Server

variable [DecidableEq ι]

/-- The step lemma. -/
theorem inv_step {standard : ℕ → Bool} {s : Server ι} {act : Act ι} (h : s.Inv)
    (henabled : (servers ι standard).enabled s act) (hguard : act.AfterAccept s) :
    ∃ t, (servers ι standard).step s act = some t ∧ t.Inv := by
  obtain ⟨hpromised, hallows⟩ := Bool.and_eq_true_iff.mp henabled
  show ∃ t, s.step act = some t ∧ t.Inv
  cases act with
  | listen l fd => exact ⟨_, rfl, h.listen (by simpa [Act.promised] using hpromised)⟩
  | opens fd =>
      have hfd : s.table fd = none := by simpa [Act.promised] using hpromised
      exact ⟨_, rfl, h.retable (by simp [hfd]) (by simp [hfd])⟩
  | closes fd =>
      have hfd : s.table fd = some .process := by simpa [Act.promised] using hpromised
      exact ⟨_, rfl, h.retable (by simp [hfd]) (by simp [hfd])⟩
  | new l ok =>
      have hl : s.stage (.acceptor l) = .making := by simpa [Act.thread] using hallows
      cases ok with
      | true => exact ⟨_, rfl, h.new hl⟩
      | false =>
          exact ⟨_, rfl, h.socketClose (by rw [hl]; rfl) (fun _ _ => trivial)
            (fun _ hp => nomatch hp) rfl⟩
  | accept l connfd =>
      obtain ⟨p, hl⟩ : ∃ p, s.stage (.acceptor l) = .accepting p := by
        simpa [Act.thread] using hallows
      have hself := h.standing (.acceptor l)
      cases connfd with
      | some fd =>
          have hfd : s.table fd = none := by simpa [Act.promised] using hpromised
          exact ⟨_, by simp only [step, hl], h.accept hl hfd⟩
      | none =>
          refine ⟨s.enter (.acceptor l) (.refused p), by simp only [step, hl], h.goto ?_ ?_ ?_⟩ <;>
            rw [hl] at *
          · exact hself
          · exact fun _ => id
          · exact fun _ => rfl
  | assign l =>
      obtain ⟨p, fd, hl⟩ : ∃ p fd, s.stage (.acceptor l) = .accepted p fd := by
        simpa [Act.thread] using hallows
      exact h.assign hl
  | create l ok =>
      obtain ⟨p, hl⟩ : ∃ p, s.stage (.acceptor l) = .starting p := by
        simpa [Act.thread] using hallows
      have hself := h.standing (.acceptor l)
      cases ok with
      | true => exact ⟨_, by simp only [step, hl], h.create hl⟩
      | false =>
          refine ⟨s.enter (.acceptor l) (.undoing p .shutdown), by simp only [step, hl],
            h.goto ?_ ?_ ?_⟩ <;> rw [hl] at *
          · exact ⟨hself.isSome_load, fun _ => hself⟩
          · exact fun _ => id
          · exact fun _ => rfl
  | socketClose l =>
      obtain ⟨p, hl⟩ : ∃ p, s.stage (.acceptor l) = .refused p := by
        simpa [Act.thread] using hallows
      have hself := h.standing (.acceptor l)
      rw [hl] at hself
      refine ⟨(s.socketClose l).enter (.acceptor l) (.dropping p .shutdown), by simp only [step, hl],
        h.socketClose (by rw [hl]; rfl) (fun t ht => ?_) ?_ rfl⟩
      · exact ⟨by rw [(ht p).load_eq]; exact hself.1, (ht p).untouched hself.2⟩
      · rw [hl]
        exact fun _ => id
  | finish p =>
      obtain ⟨q, hq⟩ : ∃ q, s.stage (.session p) = .running q := by
        simpa [Act.thread] using hallows
      have hself := h.standing (.session p)
      refine ⟨s.enter (.session p) (.closing q .shutdown), by simp only [step, hq],
        h.goto ?_ ?_ ?_⟩ <;> rw [hq] at *
      · exact ⟨hself.isSome_load, fun _ => hself⟩
      · exact fun _ => id
      · exact fun hl => nomatch hl
  | resume i =>
      obtain ⟨p, c, hi | hi | hi⟩ : ∃ p c, s.stage i = .undoing p c ∨ s.stage i = .dropping p c ∨
          s.stage i = .closing p c := by simpa [Act.thread] using hallows
      · simp only [step, hi]
        exact h.resume hi (fun _ => rfl) (fun _ _ => Iff.rfl) rfl (fun _ => trivial)
          (fun _ _ => id) (fun _ _ => rfl)
      · obtain rfl : c = .free := by simpa [Act.AfterAccept, hi, Stage.unaccepted] using hguard
        have hself := h.standing i
        have hp : (s.stage i).player = some p := by rw [hi]; rfl
        rw [hi] at hself
        obtain ⟨t, ht, hinv⟩ := h.free hp hself.1 (rfl : Stage.exited.player = none)
          (fun _ => trivial) (fun hl => nomatch hl)
        exact ⟨_, by simp only [step, hi, ht]; rfl, hinv⟩
      · simp only [step, hi]
        exact h.resume hi (fun _ => rfl) (fun _ _ => Iff.rfl) rfl (fun _ => trivial)
          (fun _ _ => id) (fun hl => nomatch hl)

omit [DecidableEq ι] in
/-- Where the server is in order, a call in `player_close` is for a descriptor of the player's
own unless its accept(2) has failed. -/
theorem Server.Inv.closesOwn_iff_afterAccept {s : Server ι} (h : s.Inv) (act : Act ι) :
    act.ClosesOwn s ↔ act.AfterAccept s := by
  cases act with
  | resume i =>
      have hself := h.standing i
      simp only [Act.ClosesOwn, Act.AfterAccept]
      cases hi : s.stage i <;> simp only [hi, Stage.playerClose, Stage.unaccepted] at * <;> simp
      case undoing p c => exact fun hc => hself.2 hc
      case closing p c => exact fun hc => hself.2 hc
      case dropping p c =>
        constructor
        · intro howns
          by_contra hc
          obtain ⟨fd, -, haccepted, -⟩ := howns hc
          exact (hself.2 fd).1 haccepted
        · exact fun hc hc' => absurd hc hc'
  | _ => exact Iff.rfl

theorem inv_init (standard : ℕ → Bool) : (servers ι standard).init.Inv := by
  constructor
  · rintro i j p ⟨⟩
  · rintro i p ⟨⟩
  · intro p _ fd
    simp [servers]
  · exact fun _ => trivial
  · rintro l ⟨⟩

/-- The calls in `player_close` that are for a descriptor of the player's own, over any run of
any number of listeners and sessions. -/
theorem closesOwn_iff (standard : ℕ → Bool) (as : List (Act ι))
    (hvalid : (servers ι standard).Valid (servers ι standard).init as) :
    (servers ι standard).AllSteps (fun s act => act.ClosesOwn s) (servers ι standard).init as ↔
      (servers ι standard).AllSteps (fun s act => act.AfterAccept s) (servers ι standard).init as :=
  Machine.allSteps_iff_guard (fun _ _ h => inv_step h)
    (fun _ act h _ => h.closesOwn_iff_afterAccept act) (inv_init standard) hvalid

/-- Two players come in, the first leaves, and the third has its descriptor. -/
theorem reused_closesOwn :
    let as : List (Act Unit) := [.listen () 3, .new () true, .accept () (some 4), .assign (),
      .create () true, .new () true, .accept () (some 5), .assign (), .finish 0,
      .resume (.session 0), .resume (.session 0), .create () false, .resume (.acceptor ()),
      .resume (.acceptor ()), .resume (.acceptor ()), .new () true, .accept () (some 4),
      .assign (), .create () true, .resume (.session 0)]
    (servers Unit (· < 3)).AllSteps (fun s act => act.ClosesOwn s) (servers Unit (· < 3)).init as :=
  (closesOwn_iff _ _ (by decide)).mpr (by decide)

/-- Accept(2) fails for the listener `false`, and descriptor 0 of the process is closed; player
1 comes in with descriptor 0; accept(2) fails for the listener `true`. -/
def refusedAccepts : List (Act Bool) :=
  [.listen false 3, .listen true 4, .new false true, .accept false none, .socketClose false,
    .resume (.acceptor false), .resume (.acceptor false), .resume (.acceptor false),
    .new true true, .accept true (some 0), .assign true, .create true true, .new true true,
    .accept true none, .socketClose true, .resume (.acceptor true)]

/-- Then the descriptor of player 1 is closed. -/
theorem refusedAccepts_not_closesOwn :
    ¬ ∀ as : List (Act Bool), (servers Bool (· < 3)).Valid (servers Bool (· < 3)).init as →
      (servers Bool (· < 3)).AllSteps (fun s act => act.ClosesOwn s)
        (servers Bool (· < 3)).init as := by
  intro h
  obtain ⟨fd, hfd, -, -, htable⟩ :=
    (h (refusedAccepts ++ [.resume (.acceptor true)]) (by decide)).last rfl 2 .close rfl (by decide)
  obtain rfl : 0 = fd := Option.some.inj hfd
  exact absurd htable (by decide)

end ThreeW3.Descriptors
