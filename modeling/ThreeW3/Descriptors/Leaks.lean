/-
# What the server keeps

Closing a player whose accept(2) has failed may close a descriptor that another thread needs, but
it leaves nothing behind. In any run each record is that of a player that some thread has, each
descriptor of a session is the one that its thread has to close, and each descriptor of a listener
is that of an accept loop. When the threads are gone, nothing of theirs is left.
-/

import ThreeW3.Descriptors.Ownership

namespace ThreeW3.Descriptors

open ThreeW3.Lib

universe u
variable {ι : Type u}

/-- An entry that is there after another one is taken away. -/
theorem of_update_none {β : Type u} {f : ℕ → Option β} {a b : ℕ} {o : β}
    (h : Function.update f a none b = some o) : b ≠ a ∧ f b = some o := by
  rw [Function.update_apply] at h
  split_ifs at h with hne
  exact ⟨hne, h⟩

namespace Server

/-! ## What the threads have -/

/-- The player that the thread has to close, and its descriptor: accept(2) has returned it, or it
is in the player's record. -/
def descriptor (s : Server ι) : Stage → Option (ℕ × ℕ)
  | .accepted p fd => some (p, fd)
  | .starting p => (s.player.load p).map fun q => (p, q.fd)
  | .undoing p c => if c = .free then none else (s.player.load p).map fun q => (p, q.fd)
  | .running p => (s.player.load p).map fun q => (p, q.fd)
  | .closing p c => if c = .free then none else (s.player.load p).map fun q => (p, q.fd)
  | _ => none

/-- Every thread's player is there, and whatever is there is some thread's. -/
structure Accounted (s : Server ι) : Prop where
  record : ∀ p, (s.player.load p).isSome = true ↔ ∃ i, (s.stage i).player = some p
  session : ∀ fd p, s.table fd = some (.session p) → ∃ i, s.descriptor (s.stage i) = some (p, fd)
  listener : ∀ fd l, s.table fd = some (.listener l) →
    (s.stage (.acceptor l)).listens = true ∧ s.listenFd l = fd

/-- Moreover no player is with two threads, the next player is a new one, and the thread of a
session has the session's player. -/
structure Tidy (s : Server ι) : Prop extends Accounted s where
  apart : ∀ i j p, (s.stage i).player = some p → (s.stage j).player = some p → i = j
  lt_fresh : ∀ p, (s.player.load p).isSome = true → p < s.fresh
  named : ∀ p q, (s.stage (.session p)).player = some q → q = p

variable {s t : Server ι} {i j : Thread ι} {p q fd : ℕ} {l : ι} {st : Stage}

theorem player_of_descriptor (h : s.descriptor st = some (p, fd)) : st.player = some p := by
  cases st with
  | absent | making | exited | accepting | refused | dropping => cases h
  | accepted p' fd' =>
      obtain ⟨rfl, -⟩ := Prod.mk.inj (Option.some.inj h)
      rfl
  | starting p' | running p' =>
      obtain ⟨q, -, hq⟩ := Option.map_eq_some_iff.mp h
      obtain ⟨rfl, -⟩ := Prod.mk.inj hq
      rfl
  | undoing p' c | closing p' c =>
      rw [descriptor] at h
      split_ifs at h
      obtain ⟨q, -, hq⟩ := Option.map_eq_some_iff.mp h
      obtain ⟨rfl, -⟩ := Prod.mk.inj hq
      rfl

/-- The descriptor of a thread depends on the record of its player only. -/
theorem descriptor_congr (h : ∀ p, st.player = some p → t.player.load p = s.player.load p) :
    t.descriptor st = s.descriptor st := by
  cases st with
  | absent | making | exited | accepting | refused | dropping | accepted => rfl
  | starting p | running p | undoing p c | closing p c => simp only [descriptor, h p rfl]

theorem Tidy.load_of_player (h : s.Tidy) (hp : (s.stage i).player = some p) :
    ∃ q, s.player.load p = some q :=
  Option.isSome_iff_exists.mp ((h.record p).mpr ⟨i, hp⟩)

/-- The descriptor of a session is with the thread that has the player. -/
theorem Tidy.descriptor_of_table (h : s.Tidy) (hp : (s.stage i).player = some p)
    (hfd : s.table fd = some (.session p)) : s.descriptor (s.stage i) = some (p, fd) := by
  obtain ⟨j, hj⟩ := h.session fd p hfd
  obtain rfl := h.apart j i p (player_of_descriptor hj) hp
  exact hj

/-- The record of a player that this thread does not have is with another one. -/
theorem Tidy.record_elsewhere (h : s.Tidy) (hi : (s.stage i).player ≠ some p) :
    (s.player.load p).isSome = true ↔ ∃ j, j ≠ i ∧ (s.stage j).player = some p := by
  rw [h.record p]
  constructor
  · rintro ⟨j, hj⟩
    refine ⟨j, ?_, hj⟩
    rintro rfl
    exact hi hj
  · rintro ⟨j, -, hj⟩
    exact ⟨j, hj⟩

/-- So is its descriptor. -/
theorem Tidy.session_elsewhere (h : s.Tidy) (hi : (s.stage i).player ≠ some p)
    (hload : t.player.load p = s.player.load p) (hfd : s.table fd = some (.session p)) :
    ∃ j, j ≠ i ∧ t.descriptor (s.stage j) = some (p, fd) := by
  obtain ⟨j, hj⟩ := h.session fd p hfd
  have hplayer := player_of_descriptor hj
  refine ⟨j, ?_, ?_⟩
  · rintro rfl
    exact hi hplayer
  · rw [descriptor_congr fun q hq => ?_, hj]
    obtain rfl := Option.some.inj (hplayer.symm.trans hq)
    exact hload

/-! ## The changes -/

/-- Descriptors of the process come and go. -/
theorem Tidy.retable {o : Option (Owner ι)} (h : s.Tidy) (ho : ∀ o' ∈ o, o' = .process) :
    Tidy { s with table := Function.update s.table fd o } := by
  have hkept : ∀ {fd' o'}, o' ≠ .process → Function.update s.table fd o fd' = some o' →
      s.table fd' = some o' := by
    intro fd' o' hne hfd'
    by_cases heq : fd' = fd
    · subst heq
      rw [Function.update_self] at hfd'
      exact absurd (ho o' hfd') hne
    · rwa [Function.update_of_ne heq] at hfd'
  exact { h with
    session := fun fd' p hfd' => h.session fd' p (hkept (by simp) hfd')
    listener := fun fd' l hfd' => h.listener fd' l (hkept (by simp) hfd') }

variable [DecidableEq ι]

/-- A thread goes to another stage, and what is there is its own or that of another thread. -/
theorem Tidy.enter (h : s.Tidy) (hstage : t.stage = s.stage)
    (hfresh : ∀ p, (t.player.load p).isSome = true → p < t.fresh)
    (hown : ∀ p, st.player = some p → ∀ j, j ≠ i → (s.stage j).player ≠ some p)
    (hnamed : ∀ p q, i = .session p → st.player = some q → q = p)
    (hrecord : ∀ p, (t.player.load p).isSome = true ↔
      st.player = some p ∨ ∃ j, j ≠ i ∧ (s.stage j).player = some p)
    (hsession : ∀ fd p, t.table fd = some (.session p) → t.descriptor st = some (p, fd) ∨
      ∃ j, j ≠ i ∧ t.descriptor (s.stage j) = some (p, fd))
    (hlistener : ∀ fd l, t.table fd = some (.listener l) →
      (i = .acceptor l → st.listens = true) ∧
      (i ≠ .acceptor l → (s.stage (.acceptor l)).listens = true) ∧ t.listenFd l = fd) :
    (t.enter i st).Tidy := by
  have hi : (t.enter i st).stage i = st := by simp [Server.enter]
  have hj : ∀ j, j ≠ i → (t.enter i st).stage j = s.stage j := by
    intro j hj
    simp [Server.enter, hj, hstage]
  have hdescriptor : ∀ st', (t.enter i st).descriptor st' = t.descriptor st' := fun st' =>
    descriptor_congr fun _ _ => rfl
  refine ⟨⟨fun p => ?_, fun fd p hfd => ?_, fun fd l hfd => ?_⟩, fun j k p hjp hkp => ?_, hfresh,
    fun p q hq => ?_⟩
  · refine (hrecord p).trans ⟨?_, ?_⟩
    · rintro (hp | ⟨j, hji, hp⟩)
      · exact ⟨i, hi.symm ▸ hp⟩
      · exact ⟨j, (hj j hji).symm ▸ hp⟩
    · rintro ⟨j, hp⟩
      by_cases hji : j = i
      · subst hji
        exact .inl (hi ▸ hp)
      · exact .inr ⟨j, hji, hj j hji ▸ hp⟩
  · obtain hp | ⟨j, hji, hp⟩ := hsession fd p hfd
    · exact ⟨i, by rw [hi, hdescriptor, hp]⟩
    · exact ⟨j, by rw [hj j hji, hdescriptor, hp]⟩
  · obtain ⟨hself, hother, hl⟩ := hlistener fd l hfd
    refine ⟨?_, hl⟩
    by_cases hli : .acceptor l = i
    · subst hli
      rw [hi]
      exact hself rfl
    · rw [hj _ hli]
      exact hother (Ne.symm hli)
  · by_cases hji : j = i <;> by_cases hki : k = i
    · rw [hji, hki]
    · subst hji
      exact absurd (hj k hki ▸ hkp) (hown p (hi ▸ hjp) k hki)
    · subst hki
      exact absurd (hj j hji ▸ hjp) (hown p (hi ▸ hkp) j hji)
    · exact h.apart j k p (hj j hji ▸ hjp) (hj k hki ▸ hkp)
  · by_cases hpi : .session p = i
    · subst hpi
      exact hnamed p q rfl (hi ▸ hq)
    · exact h.named p q (hj _ hpi ▸ hq)

/-- A thread goes on with its player. -/
theorem Tidy.goOn (h : s.Tidy) (hp : (s.stage i).player = some p) (hst : st.player = some p)
    (hstage : t.stage = s.stage) (hfresh : t.fresh = s.fresh)
    (hload : (t.player.load p).isSome = true)
    (hothers : ∀ q, q ≠ p → t.player.load q = s.player.load q)
    (hself : ∀ fd, t.table fd = some (.session p) → t.descriptor st = some (p, fd))
    (hsession : ∀ fd q, q ≠ p → t.table fd = some (.session q) → s.table fd = some (.session q))
    (hlistener : ∀ fd l, t.table fd = some (.listener l) → s.table fd = some (.listener l))
    (hlistenFd : t.listenFd = s.listenFd)
    (hlistens : ∀ l, i = .acceptor l → (s.stage i).listens = true → st.listens = true ∨
      t.table (s.listenFd l) = none) :
    (t.enter i st).Tidy := by
  have hkept : ∀ q, (t.player.load q).isSome = (s.player.load q).isSome := by
    intro q
    by_cases hq : q = p
    · subst hq
      rw [hload, (h.record q).mpr ⟨i, hp⟩]
    · rw [hothers q hq]
  refine h.enter hstage (fun q hq => ?_) (fun q hq j hji hj => ?_) (fun r q hr hq => ?_)
    (fun q => ?_) (fun fd q hfd => ?_) (fun fd l hfd => ?_)
  · rw [hfresh]
    exact h.lt_fresh q (hkept q ▸ hq)
  · obtain rfl := Option.some.inj (hst.symm.trans hq)
    exact hji (h.apart j i p hj hp)
  · subst hr
    exact h.named r q (hp.trans (hst.symm.trans hq))
  · by_cases hq : q = p
    · subst hq
      simp [hload, hst]
    · have hi : (s.stage i).player ≠ some q := by simpa [hp] using Ne.symm hq
      rw [hkept, h.record_elsewhere hi, hst]
      simp [Ne.symm hq]
  · by_cases hq : q = p
    · subst hq
      exact .inl (hself fd hfd)
    · have hi : (s.stage i).player ≠ some q := by simpa [hp] using Ne.symm hq
      exact .inr (h.session_elsewhere hi (hothers q hq) (hsession fd q hq hfd))
  · obtain ⟨hl, hlfd⟩ := h.listener fd l (hlistener fd l hfd)
    refine ⟨?_, fun _ => hl, by rw [hlistenFd, hlfd]⟩
    rintro rfl
    obtain hst | hnone := hlistens l rfl hl
    · exact hst
    · rw [hlfd, hfd] at hnone
      cases hnone

/-- Only the stage changes. -/
theorem Tidy.goto (h : s.Tidy) (hp : (s.stage i).player = some p) (hst : st.player = some p)
    (hself : s.descriptor (s.stage i) = s.descriptor st)
    (hlistens : (s.stage i).listens = true → st.listens = true) : (s.enter i st).Tidy :=
  h.goOn hp hst rfl rfl ((h.record p).mpr ⟨i, hp⟩) (fun _ _ => rfl)
    (fun _ hfd => hself ▸ h.descriptor_of_table hp hfd) (fun _ _ _ => id) (fun _ _ => id) rfl
    (fun _ _ hl => .inl (hlistens hl))

/-! ## `player_close` -/

/-- close(2) takes the descriptor away that the thread has. -/
theorem Tidy.close {q : Player} (h : s.Tidy) (hp : (s.stage i).player = some p)
    (hst : st.player = some p)
    (hfd : ∀ fd, s.descriptor (s.stage i) = some (p, fd) → fd = q.fd)
    (hlistens : (s.stage i).listens = true → st.listens = true) :
    (Server.enter { s with table := Function.update s.table q.fd none,
                           trace := s.trace ++ [.closed p q.fd] } i st).Tidy := by
  refine h.goOn hp hst rfl rfl ((h.record p).mpr ⟨i, hp⟩) (fun _ _ => rfl) (fun fd hopen => ?_)
    (fun fd r _ hopen => (of_update_none hopen).2) (fun fd l hopen => (of_update_none hopen).2) rfl
    (fun _ _ hl => .inl (hlistens hl))
  obtain ⟨hne, hkept⟩ := of_update_none hopen
  exact absurd (hfd fd (h.descriptor_of_table hp hkept)) hne

/-- free(3) takes the player away from the thread. -/
theorem Tidy.free (h : s.Tidy) (hp : (s.stage i).player = some p)
    (hclosed : s.descriptor (s.stage i) = none) (hst : st.player = none)
    (hlistens : (s.stage i).listens = true → st.listens = true) :
    (Server.enter { s with player := s.player.free p } i st).Tidy := by
  have hothers : ∀ r, r ≠ p → (s.player.free p).load r = s.player.load r := by
    intro r hr
    simp [Heap.load_free, hr]
  have hi : ∀ r, r ≠ p → (s.stage i).player ≠ some r := by
    intro r hr
    simpa [hp] using Ne.symm hr
  have hfree : ((s.player.free p).load p).isSome = false := by simp [Heap.load_free]
  refine h.enter rfl (fun r hr => ?_) (fun r hr => ?_) (fun r r' _ hr => ?_) (fun r => ?_)
    (fun fd r hfd => ?_) (fun fd l hfd => ?_)
  · have hrp : r ≠ p := by
      rintro rfl
      simp [hfree] at hr
    exact h.lt_fresh r (hothers r hrp ▸ hr)
  · rw [hst] at hr
    cases hr
  · rw [hst] at hr
    cases hr
  · by_cases hrp : r = p
    · subst hrp
      simp only [hfree, hst]
      constructor
      · rintro ⟨⟩
      · rintro (⟨⟨⟩⟩ | ⟨j, hji, hj⟩)
        exact absurd (h.apart j i r hj hp) hji
    · rw [hothers r hrp, h.record_elsewhere (hi r hrp), hst]
      simp
  · have hrp : r ≠ p := by
      rintro rfl
      have hself := h.descriptor_of_table hp hfd
      rw [hclosed] at hself
      cases hself
    exact .inr (h.session_elsewhere (hi r hrp) (hothers r hrp) hfd)
  · obtain ⟨hl, hlfd⟩ := h.listener fd l hfd
    exact ⟨fun hli => hlistens (hli ▸ hl), fun _ => hl, hlfd⟩

/-- The next call in the `player_close` of a thread. -/
theorem Tidy.resume {st : Closing → Stage} {last : Stage} {c : Closing} (h : s.Tidy)
    (hstage : s.stage i = st c) (hst : ∀ c, (st c).player = some p)
    (hshutdown : ∀ t : Server ι, t.descriptor (st .shutdown) = t.descriptor (st .close))
    (hclose : ∀ (t : Server ι) q fd, t.player.load p = some q →
      t.descriptor (st .close) = some (p, fd) → fd = q.fd)
    (hfree : ∀ t : Server ι, t.descriptor (st .free) = none) (hlast : last.player = none)
    (hlistens : ∀ c c', (st c).listens = true → (st c').listens = true)
    (hlastListens : ∀ c, (st c).listens = true → last.listens = true) :
    ∃ t, ((s.playerClose p c).map fun (t, next) => t.enter i (next.elim last st)) = some t ∧
      t.Tidy := by
  have hp : (s.stage i).player = some p := by rw [hstage, hst]
  obtain ⟨q, hq⟩ := h.load_of_player hp
  cases c with
  | shutdown =>
      refine ⟨Server.enter { s with trace := s.trace ++ [.shut p q.fd] } i (st .close),
        by simp [playerClose, hq], ?_⟩
      refine h.goOn hp (hst .close) rfl rfl ((h.record p).mpr ⟨i, hp⟩) (fun _ _ => rfl)
        (fun fd hfd => ?_) (fun _ _ _ => id) (fun _ _ => id) rfl
        (fun _ _ hl => .inl (hlistens _ _ (hstage ▸ hl)))
      rw [← hshutdown, ← h.descriptor_of_table hp hfd, hstage]
      exact descriptor_congr fun _ _ => rfl
  | close =>
      refine ⟨_, by simp only [playerClose, hq]; rfl, h.close hp (hst .free) (fun fd hfd => ?_)
        (fun hl => hlistens _ _ (hstage ▸ hl))⟩
      exact hclose s q fd hq (hstage ▸ hfd)
  | free =>
      exact ⟨_, by simp only [playerClose, hq]; rfl, h.free hp (hstage ▸ hfree s) hlast
        (fun hl => hlastListens _ (hstage ▸ hl))⟩

/-! ## The accept loop -/

theorem Tidy.listen (h : s.Tidy) (hl : s.stage (.acceptor l) = .absent) (hfd : s.table fd = none) :
    (Server.enter { s with
      table := Function.update s.table fd (some (.listener l))
      listenFd := Function.update s.listenFd l fd } (.acceptor l) .making).Tidy := by
  have hi : ∀ p, (s.stage (.acceptor l)).player ≠ some p := by simp [hl, Stage.player]
  refine h.enter rfl h.lt_fresh (by rintro r ⟨⟩) (by rintro r r' ⟨⟩) (fun p => ?_)
    (fun fd' p hopen => ?_) (fun fd' k hopen => ?_)
  · rw [h.record_elsewhere (hi p)]
    simp [Stage.player]
  · have hne : fd' ≠ fd := by
      rintro rfl
      simp at hopen
    refine .inr (h.session_elsewhere (hi p) rfl ?_)
    simpa [hne] using hopen
  · by_cases hne : fd' = fd
    · subst hne
      obtain rfl : l = k := by simpa using hopen
      exact ⟨fun _ => rfl, fun hk => absurd rfl hk, by simp⟩
    · obtain ⟨hk, hkfd⟩ := h.listener fd' k (by simpa [hne] using hopen)
      have hkl : k ≠ l := by
        rintro rfl
        rw [hl] at hk
        cases hk
      exact ⟨fun _ => rfl, fun _ => hk, by simp [hkl, hkfd]⟩

/-- The record of the new player. -/
theorem Tidy.new (h : s.Tidy) (hl : s.stage (.acceptor l) = .making) :
    (Server.enter { s with
      player := s.player.store s.fresh playerNew
      fresh := s.fresh + 1 } (.acceptor l) (.accepting s.fresh)).Tidy := by
  have hi : ∀ p, (s.stage (.acceptor l)).player ≠ some p := by simp [hl, Stage.player]
  have hfresh : ∀ j, (s.stage j).player ≠ some s.fresh := fun j hj =>
    absurd (h.lt_fresh _ ((h.record _).mpr ⟨j, hj⟩)) (Nat.lt_irrefl _)
  have hothers : ∀ p, p ≠ s.fresh →
      (s.player.store s.fresh playerNew).load p = s.player.load p := by
    intro p hp
    simp [Heap.load_store, hp]
  refine h.enter rfl (fun p hp => ?_) ?_ (by rintro r r' ⟨⟩) (fun p => ?_)
    (fun fd p hfd => ?_) (fun fd k hfd => ?_)
  · show p < s.fresh + 1
    by_cases hpf : p = s.fresh
    · omega
    · have hlt := h.lt_fresh p (hothers p hpf ▸ hp)
      omega
  · rintro p ⟨⟩ j -
    exact hfresh j
  · by_cases hpf : p = s.fresh
    · subst hpf
      simp [Stage.player]
    · rw [hothers p hpf, h.record_elsewhere (hi p)]
      simp [Stage.player, Ne.symm hpf]
  · obtain ⟨j, hj⟩ := h.session fd p hfd
    have hpf : p ≠ s.fresh := by
      rintro rfl
      exact hfresh j (player_of_descriptor hj)
    exact .inr (h.session_elsewhere (hi p) (hothers p hpf) hfd)
  · obtain ⟨hk, hkfd⟩ := h.listener fd k hfd
    exact ⟨fun _ => rfl, fun _ => hk, hkfd⟩

/-- Without a player the accept loop closes its listener and ends. -/
theorem Tidy.quit (h : s.Tidy) (hl : s.stage (.acceptor l) = .making) :
    ((s.socketClose l).enter (.acceptor l) .exited).Tidy := by
  have hi : ∀ p, (s.stage (.acceptor l)).player ≠ some p := by simp [hl, Stage.player]
  refine h.enter rfl h.lt_fresh (by rintro r ⟨⟩) (by rintro r r' ⟨⟩) (fun p => ?_)
    (fun fd p hfd => ?_) (fun fd k hfd => ?_)
  · exact (h.record_elsewhere (hi p)).trans (by simp [Stage.player])
  · exact .inr (h.session_elsewhere (hi p) rfl (of_update_none hfd).2)
  · obtain ⟨hne, hopen⟩ := of_update_none hfd
    obtain ⟨hk, hkfd⟩ := h.listener fd k hopen
    refine ⟨?_, fun _ => hk, hkfd⟩
    rintro ⟨⟩
    exact absurd hkfd.symm hne

/-- The kernel gives out a descriptor that nobody has. -/
theorem Tidy.accept (h : s.Tidy) (hl : s.stage (.acceptor l) = .accepting p)
    (hfd : s.table fd = none) :
    (Server.enter { s with
      table := Function.update s.table fd (some (.session p))
      trace := s.trace ++ [.accepted p fd] } (.acceptor l) (.accepted p fd)).Tidy := by
  have hp : (s.stage (.acceptor l)).player = some p := by rw [hl]; rfl
  refine h.goOn hp rfl rfl rfl ((h.record p).mpr ⟨_, hp⟩) (fun _ _ => rfl) (fun fd' hopen => ?_)
    (fun fd' q hq hopen => ?_) (fun fd' k hopen => ?_) rfl (fun _ _ _ => .inl rfl)
  · by_cases hne : fd' = fd
    · rw [hne]
      rfl
    · have hkept : s.table fd' = some (.session p) := by simpa [hne] using hopen
      have hself := h.descriptor_of_table hp hkept
      rw [hl] at hself
      cases hself
  · have hne : fd' ≠ fd := by
      rintro rfl
      exact hq (by simpa using hopen.symm)
    simpa [hne] using hopen
  · have hne : fd' ≠ fd := by
      rintro rfl
      simp at hopen
    simpa [hne] using hopen

theorem Tidy.assign (h : s.Tidy) (hl : s.stage (.acceptor l) = .accepted p fd) :
    ∃ t, s.step (.assign l) = some t ∧ t.Tidy := by
  have hp : (s.stage (.acceptor l)).player = some p := by rw [hl]; rfl
  obtain ⟨q, hq⟩ := h.load_of_player hp
  refine ⟨Server.enter { s with player := s.player.store p { q with fd } } (.acceptor l)
    (.starting p), by simp [step, hl, hq], ?_⟩
  refine h.goOn hp rfl rfl rfl (by simp) (fun r hr => by simp [Heap.load_store, hr])
    (fun fd' hopen => ?_) (fun _ _ _ => id) (fun _ _ => id) rfl (fun _ _ _ => .inl rfl)
  have hself := h.descriptor_of_table hp hopen
  rw [hl] at hself
  obtain ⟨-, rfl⟩ := Prod.mk.inj (Option.some.inj hself)
  simp [descriptor]

/-- The accept loop closes its listener, with a player that it has yet to close. -/
theorem Tidy.refused (h : s.Tidy) (hl : s.stage (.acceptor l) = .refused p) :
    ((s.socketClose l).enter (.acceptor l) (.dropping p .shutdown)).Tidy := by
  have hp : (s.stage (.acceptor l)).player = some p := by rw [hl]; rfl
  refine h.goOn hp rfl rfl rfl ((h.record p).mpr ⟨_, hp⟩) (fun _ _ => rfl) (fun fd hopen => ?_)
    (fun _ _ _ hopen => (of_update_none hopen).2) (fun _ _ hopen => (of_update_none hopen).2) rfl ?_
  · have hself := h.descriptor_of_table hp (of_update_none hopen).2
    rw [hl] at hself
    cases hself
  · rintro k ⟨⟩ -
    exact .inr (by simp [socketClose])

/-- The thread of the new session takes the player over from the accept loop. -/
theorem Tidy.create (h : s.Tidy) (hl : s.stage (.acceptor l) = .starting p) :
    ((s.enter (.acceptor l) .making).enter (.session p) (.running p)).Tidy := by
  have hp : (s.stage (.acceptor l)).player = some p := by rw [hl]; rfl
  have hidle : ∀ q, (s.stage (.session p)).player ≠ some q := by
    intro q hq
    obtain rfl := h.named p q hq
    cases h.apart _ _ q hq hp
  -- Who has a player before the step, and who after it.
  have hbefore : ∀ {j q}, (s.stage j).player = some q →
      j = .acceptor l ∧ q = p ∨ j ≠ .acceptor l ∧ j ≠ .session p := by
    intro j q hj
    by_cases hjl : j = .acceptor l
    · subst hjl
      exact .inl ⟨rfl, Option.some.inj (hj.symm.trans hp)⟩
    · refine .inr ⟨hjl, ?_⟩
      rintro rfl
      exact hidle q hj
  have hstage : ∀ j, j ≠ .acceptor l → j ≠ .session p →
      ((s.enter (.acceptor l) .making).enter (.session p) (.running p)).stage j = s.stage j := by
    intro j hjl hjp
    simp [Server.enter, hjl, hjp]
  have hsession : ((s.enter (.acceptor l) .making).enter (.session p) (.running p)).stage
      (.session p) = .running p := by simp [Server.enter]
  have hacceptor : ((s.enter (.acceptor l) .making).enter (.session p) (.running p)).stage
      (.acceptor l) = .making := by simp [Server.enter]
  have hafter : ∀ {j q}, (((s.enter (.acceptor l) .making).enter (.session p)
      (.running p)).stage j).player = some q →
      j = .session p ∧ q = p ∨ j ≠ .acceptor l ∧ j ≠ .session p ∧ (s.stage j).player = some q := by
    intro j q hj
    by_cases hjp : j = .session p
    · subst hjp
      rw [hsession] at hj
      exact .inl ⟨rfl, (Option.some.inj hj).symm⟩
    · by_cases hjl : j = .acceptor l
      · subst hjl
        rw [hacceptor] at hj
        cases hj
      · exact .inr ⟨hjl, hjp, hstage j hjl hjp ▸ hj⟩
  refine ⟨⟨fun q => ?_, fun fd q hfd => ?_, fun fd k hfd => ?_⟩, fun j k q hj hk => ?_, h.lt_fresh,
    fun r q hq => ?_⟩
  · refine (h.record q).trans ⟨?_, ?_⟩
    · rintro ⟨j, hj⟩
      obtain ⟨rfl, rfl⟩ | ⟨hjl, hjp⟩ := hbefore hj
      · exact ⟨.session q, by rw [hsession]; rfl⟩
      · exact ⟨j, by rw [hstage j hjl hjp, hj]⟩
    · rintro ⟨j, hj⟩
      obtain ⟨rfl, rfl⟩ | ⟨-, -, hj⟩ := hafter hj
      · exact ⟨_, hp⟩
      · exact ⟨j, hj⟩
  · obtain ⟨j, hj⟩ := h.session fd q hfd
    obtain ⟨rfl, rfl⟩ | ⟨hjl, hjp⟩ := hbefore (player_of_descriptor hj)
    · rw [hl] at hj
      exact ⟨.session q, by rw [hsession, ← hj]; rfl⟩
    · refine ⟨j, ?_⟩
      rw [hstage j hjl hjp, ← hj]
      exact descriptor_congr fun _ _ => rfl
  · obtain ⟨hk, hkfd⟩ := h.listener fd k hfd
    refine ⟨?_, hkfd⟩
    by_cases hkl : k = l
    · rw [hkl, hacceptor]
      rfl
    · rw [hstage _ (by simpa using hkl) (by simp)]
      exact hk
  · obtain ⟨rfl, rfl⟩ | ⟨hjl, -, hj'⟩ := hafter hj <;>
      obtain ⟨rfl, hqp⟩ | ⟨hkl, -, hk'⟩ := hafter hk
    · rfl
    · exact absurd (h.apart k _ q hk' hp) hkl
    · subst hqp
      exact absurd (h.apart j _ q hj' hp) hjl
    · exact h.apart j k q hj' hk'
  · obtain ⟨hr, rfl⟩ | ⟨-, -, hq⟩ := hafter hq
    · cases hr
      rfl
    · exact h.named r q hq

end Server

/-! ## The runs -/

open Server

variable [DecidableEq ι]

end ThreeW3.Descriptors
