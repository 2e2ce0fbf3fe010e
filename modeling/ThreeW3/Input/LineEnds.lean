/-
# Line ends and dispatches

How many line ends a session has received by the time of each call of `f_mode`. The
first call comes after a line end. From then on `P_READY` stays set, and every chunk
that `process_input` goes through is handed over, whether a line has ended in it or not.
-/

import Mathlib.Data.List.Chain
import ThreeW3.Input.Segments

namespace ThreeW3.Input

universe u

/-! ## Counting line ends -/

/-- The CR and LF bytes that some reads have given. -/
def lineEnds (reads : List Outcome) : ℕ :=
  reads.countP fun
    | .byte c => decide (LineEnd c)
    | _ => false

/-- How many CR and LF bytes had been received by the time of each call of `f_mode`, `n`
of them before the first of these rounds. -/
def stamps {σ : Type u} (H : Handlers σ) (s : Session σ) (n : ℕ) : List Round → List ℕ
  | [] => []
  | r :: rounds =>
      let t := s.round H r
      let n := n + lineEnds (s.reads.take (s.reads.length - t.reads.length))
      if t.calls.length = s.calls.length then stamps H t n rounds else n :: stamps H t n rounds

variable {w : List UInt8}

/-- Whatever the handlers do, the first call comes after a line end, and between two
calls there is another one. -/
def Chunking.Finished (A : Chunking w) : Prop :=
  ∀ (σ : Type) (H : Handlers σ) (mode : σ) (rounds : List Round) (reads later : List Outcome),
    Cuts rounds A.chunks → Delivers reads w →
    (0 :: stamps H (.start mode (reads ++ later)) 0 rounds).IsChain (· < ·)

/-! ## The condition -/

/-- `process_input` goes through the chunk: no byte of it closes the session, and it does
not end inside a pair. -/
def Passes : List UInt8 → Prop
  | [] => True
  | [c] => ¬ Closing c ∧ c ≠ iac
  | c :: d :: cs => ¬ Closing c ∧ if c = iac then d ≠ ip ∧ Passes cs else Passes (d :: cs)

instance decidablePasses : (a : List UInt8) → Decidable (Passes a)
  | [] => inferInstanceAs (Decidable True)
  | [c] => inferInstanceAs (Decidable (¬ Closing c ∧ c ≠ iac))
  | c :: d :: cs =>
      have := decidablePasses cs
      have := decidablePasses (d :: cs)
      inferInstanceAs (Decidable (¬ Closing c ∧
        if c = iac then d ≠ ip ∧ Passes cs else Passes (d :: cs)))

/-- A line end outside the pairs. -/
def endsLine : List UInt8 → Bool
  | [] => false
  | [c] => decide (LineEnd c)
  | c :: d :: cs => decide (LineEnd c) || if c = iac then endsLine cs else endsLine (d :: cs)

/-- Once a line has ended, every chunk has a line end in it. -/
def EndsEach (ready : Bool) : List (List UInt8) → Prop
  | [] => True
  | a :: A => Passes a → (ready = true → hasLineEnd a = true) ∧ EndsEach (ready || endsLine a) A

instance decidableEndsEach : (ready : Bool) → (A : List (List UInt8)) →
    Decidable (EndsEach ready A)
  | _, [] => inferInstanceAs (Decidable True)
  | ready, a :: A =>
      have := decidableEndsEach (ready || endsLine a) A
      inferInstanceAs (Decidable (Passes a →
        (ready = true → hasLineEnd a = true) ∧ EndsEach (ready || endsLine a) A))

/-- The line ends received by each call if no handler ends the session. -/
def chunkStamps (ready : Bool) (n : ℕ) : List (List UInt8) → List ℕ
  | [] => []
  | a :: A =>
      if Passes a then
        let m := n + a.countP fun c => decide (LineEnd c)
        if ready || endsLine a then m :: chunkStamps true m A else chunkStamps false m A
      else []

theorem hasLineEnd_iff {a : List UInt8} :
    hasLineEnd a = true ↔ 0 < a.countP fun c => decide (LineEnd c) := by
  rw [hasLineEnd, List.any_eq_true, List.countP_pos_iff]

theorem hasLineEnd_of_endsLine {a : List UInt8} (h : endsLine a = true) : hasLineEnd a = true := by
  fun_induction endsLine a with
  | case1 => cases h
  | case2 c => simpa [hasLineEnd] using h
  | case3 c d cs ih₁ ih₂ =>
      rw [Bool.or_eq_true] at h
      rcases h with h | h
      · rw [hasLineEnd, List.any_cons, h, Bool.true_or]
      · split at h
        · have := ih₁ h
          simp only [hasLineEnd, List.any_cons, Bool.or_eq_true] at this ⊢
          exact .inr (.inr this)
        · have := ih₂ h
          simp only [hasLineEnd, List.any_cons, Bool.or_eq_true] at this ⊢
          exact .inr this

/-- The stamps grow as long as every chunk ends a line. -/
theorem isChain_chunkStamps {ready : Bool} {m n : ℕ} {A : List (List UInt8)} (hmn : m ≤ n)
    (hready : ready = true → m = n) :
    (m :: chunkStamps ready n A).IsChain (· < ·) ↔ EndsEach ready A := by
  induction A generalizing ready m n with
  | nil => simp [chunkStamps, EndsEach]
  | cons a A ih =>
      rw [chunkStamps, EndsEach]
      by_cases hpass : Passes a
      · have hcount : hasLineEnd a = true ↔ 0 < a.countP fun c => decide (LineEnd c) :=
          hasLineEnd_iff
        rw [if_pos hpass]
        simp only [hpass, forall_const]
        cases hr : (ready || endsLine a) with
        | true =>
            simp only [if_true]
            rw [List.isChain_cons_cons, ih le_rfl fun _ => rfl]
            refine and_congr_left fun _ => ?_
            cases ready with
            | true =>
                have := hready rfl
                rw [hcount]
                simp only [forall_const]
                omega
            | false =>
                have hend := hcount.mp (hasLineEnd_of_endsLine (by simpa using hr))
                simp only [Bool.false_eq_true, false_implies, iff_true]
                omega
        | false =>
            obtain ⟨rfl, -⟩ := Bool.or_eq_false_iff.mp hr
            simp only [Bool.false_eq_true, if_false, false_implies, true_and]
            exact ih (by omega) (by simp)
      · simp [hpass]

/-! ## One chunk -/

/-- A flag of a line end is set only with `P_READY`. -/
def Player.FlagsReady (p : Player) : Prop := p.lastR = true ∨ p.lastN = true → p.ready = true

variable {p : Player} {c : UInt8}

/-- Only a line end sets `P_READY`, and nothing clears it. -/
theorem Player.FlagsReady.receive (h : p.FlagsReady) (c : UInt8) :
    (p.receive c).FlagsReady ∧ (p.receive c).ready = (p.ready || decide (LineEnd c)) := by
  by_cases hend : LineEnd c
  · rw [decide_eq_true hend, Bool.or_true]
    have hready : (p.receive c).ready = true := by
      rcases hend with rfl | rfl
      · rw [Player.receive, if_neg (by decide), if_pos rfl]
        split_ifs with hlast
        · exact h (.inl hlast)
        · rfl
      · rw [Player.receive, if_neg (by decide), if_neg (by decide), if_pos rfl]
        split_ifs with hlast
        · exact h (.inr hlast)
        · rfl
    exact ⟨fun _ => hready, hready⟩
  · rw [decide_eq_false hend, Bool.or_false]
    by_cases hneg : Negotiation c
    · rw [Player.receive_negotiation hneg]
      exact ⟨h, rfl⟩
    · obtain ⟨hR, hN⟩ := Player.receive_other (p := p) hneg hend
      refine ⟨fun hflag => by simp [hR, hN] at hflag, ?_⟩
      rw [not_or] at hend
      simp only [Player.receive, if_neg hneg, if_neg hend.1, if_neg hend.2]
      split_ifs <;> simp [Player.erase]

theorem Player.FlagsReady.command (h : p.FlagsReady) (c : UInt8) :
    (p.command c).FlagsReady ∧ (p.command c).ready = p.ready := by
  unfold Player.command
  split_ifs <;> exact ⟨h, rfl⟩

/-- A chunk that goes through sets `P_READY` if a line ends in it. -/
theorem scan_passes {a : List UInt8} (hpass : Passes a) (h : p.FlagsReady) :
    ∃ q, scan p a = .passed q ∧ q.FlagsReady ∧ q.ready = (p.ready || endsLine a) := by
  fun_induction Passes a generalizing p with
  | case1 => exact ⟨p, scan_nil p, h, by simp [endsLine]⟩
  | case2 c =>
      obtain ⟨hflags, hready⟩ := h.receive c
      exact ⟨_, (scan_receive hpass.1 hpass.2 p []).trans (scan_nil _), hflags, hready⟩
  | case3 c d cs ih₁ ih₂ =>
      obtain ⟨hclose, hrest⟩ := hpass
      by_cases hiac : c = iac
      · subst hiac
        rw [if_pos rfl] at hrest
        obtain ⟨hflags, hready⟩ := h.command d
        obtain ⟨q, hq, hflags', hready'⟩ := ih₁ hrest.2 hflags
        refine ⟨q, (scan_command hrest.1 p cs).trans hq, hflags', ?_⟩
        rw [hready', hready, endsLine, if_pos rfl]
        rfl
      · rw [if_neg hiac] at hrest
        obtain ⟨hflags, hready⟩ := h.receive c
        obtain ⟨q, hq, hflags', hready'⟩ := ih₂ hrest hflags
        refine ⟨q, (scan_receive hclose hiac p _).trans hq, hflags', ?_⟩
        rw [hready', hready, endsLine, if_neg hiac, Bool.or_assoc]

/-- `size` below zero never comes back to zero. -/
theorem processLoop_neg {size : ℤ} {reads rest : List Outcome} {q : Player} (hsize : size < 0) :
    processLoop p c size reads ≠ .returned q rest := by
  fun_induction processLoop p c size reads with
  | case1 => exact absurd hsize (lt_irrefl 0)
  | case2 | case3 | case4 | case5 | case6 | case7 => simp
  | case8 =>
      rename_i ih
      exact ih (by omega)
  | case9 =>
      rename_i ih
      exact ih (by omega)

/-- An IAC as the last byte takes `size` below zero. -/
theorem processLoop_lone_iac {reads rest rest' : List Outcome} {q : Player}
    (hread : socketRead c reads = some (1, iac, rest)) :
    processLoop p c 1 reads ≠ .returned q rest' := by
  rw [processLoop, if_neg (by omega)]
  split
  · simp
  · next h =>
      obtain ⟨rfl, rfl, rfl⟩ := by simpa [hread] using h
      rw [if_neg (by omega), if_neg (by decide), if_pos rfl]
      split
      · simp
      · split_ifs
        · simp
        · simp
        · exact processLoop_neg (by omega)

/-- Over a chunk that does not go through, the loop does not return. -/
theorem processLoop_not_passes {a : List UInt8} {reads : List Outcome} (hpass : ¬ Passes a)
    (hd : Delivers reads a) (p : Player) (c : UInt8) (later : List Outcome) (q : Player)
    (rest : List Outcome) : processLoop p c a.length (reads ++ later) ≠ .returned q rest := by
  fun_induction Passes a generalizing reads p c with
  | case1 => exact absurd trivial hpass
  | case2 b =>
      obtain ⟨rest', hread, -⟩ := socketRead_delivers hd c later
      by_cases hiac : b = iac
      · subst hiac
        exact processLoop_lone_iac hread
      · have hclose : Closing b := by
          by_contra hclose
          exact hpass ⟨hclose, hiac⟩
        rw [processLoop_byte (by simp) hread hiac, if_pos hclose]
        simp
  | case3 b d cs ih₁ ih₂ =>
      obtain ⟨rest', hread, hrest⟩ := socketRead_delivers hd c later
      by_cases hiac : b = iac
      · subst hiac
        obtain ⟨rest'', hcommand, hrest'⟩ := socketRead_delivers hrest iac later
        rw [processLoop_pair (by simp; omega) hread hcommand]
        split_ifs with hip
        · simp
        · have hpass' : ¬ Passes cs := fun hcs =>
            hpass ⟨by decide, by rw [if_pos rfl]; exact ⟨hip, hcs⟩⟩
          simpa using ih₁ hpass' hrest' (p.command d) d
      · rw [processLoop_byte (by simp; omega) hread hiac]
        split_ifs with hclose
        · simp
        · have hpass' : ¬ Passes (d :: cs) := fun hcs => hpass ⟨hclose, by rwa [if_neg hiac]⟩
          simpa using ih₂ hpass' hrest (p.receive b) b

/-! ## Runs -/

section Runs

variable {σ : Type u} {H : Handlers σ} {s : Session σ}

/-- A session that has stopped makes no calls. -/
theorem stamps_stopped (hstatus : s.status ≠ .running) (n : ℕ) (rounds : List Round) :
    stamps H s n rounds = [] := by
  induction rounds generalizing n with
  | nil => rfl
  | cons r rounds ih =>
      rw [stamps, round_stopped hstatus]
      simp only [if_true]
      exact ih _

theorem stamps_logout (hrun : s.status = .running) (hlogout : H.logout s.mode = true) (n : ℕ)
    (rounds : List Round) : stamps H s n rounds = [] := by
  cases rounds with
  | nil => rfl
  | cons r rounds =>
      rw [stamps, round_logout hrun hlogout]
      exact (if_pos rfl).trans (stamps_stopped (by simp [Session.close]) _ _)

/-- A round that finds a chunk which does not go through. -/
theorem round_not_passes {a : List UInt8} {reads later : List Outcome}
    (hrun : s.status = .running) (hlogout : ¬ H.logout s.mode = true) (hpass : ¬ Passes a)
    (hd : Delivers reads a) (hreads : s.reads = reads ++ later) (c : UInt8) :
    (s.round H (.readable (some (a.length : ℤ)) c)).status ≠ .running ∧
      (s.round H (.readable (some (a.length : ℤ)) c)).calls = s.calls := by
  have hreturned : ∀ q rest, processInput s.player c (some a.length) s.reads ≠ .returned q rest := by
    intro q rest
    have hpos : ¬ (a.length : ℤ) ≤ 0 := by
      cases a with
      | nil => exact absurd trivial hpass
      | cons b a =>
          simp only [List.length_cons]
          omega
    rw [processInput]
    simp only [if_neg hpos, hreads]
    exact processLoop_not_passes hpass hd s.player c later q rest
  rw [Session.round.eq_def, if_neg (by simp [hrun]), if_neg hlogout]
  dsimp only
  cases hresult : processInput s.player c (some a.length) s.reads with
  | returned q rest => exact absurd hresult (hreturned q rest)
  | closed q rest => simp [Session.close]
  | blocked q => simp

/-- The line ends of a chunk are those among its reads. -/
theorem lineEnds_delivers {a : List UInt8} {reads : List Outcome} (hd : Delivers reads a) :
    lineEnds reads = a.countP fun c => decide (LineEnd c) := by
  induction hd with
  | nil => rfl
  | byte c hd ih => simpa [lineEnds, List.countP_cons] using ih
  | again hd ih => simpa [lineEnds, List.countP_cons] using ih

/-- No handler ends the session. -/
def Handlers.Patient (H : Handlers σ) : Prop :=
  ∀ mode, H.logout mode = false ∧ ∀ input length, (H.fMode mode input length).isSome = true

/-- Dispatching reads nothing. -/
theorem dispatch_reads (H : Handlers σ) (s : Session σ) : (s.dispatch H).reads = s.reads := by
  unfold Session.dispatch
  split_ifs
  · dsimp only
    split <;> rfl
  · rfl

/-- A session that a handler ended has no more stamps, and that handler is not patient. -/
theorem stamps_of_logout (hrun : s.status = .running) (hlogout : H.logout s.mode = true) (n : ℕ)
    (rounds : List Round) (ns : List ℕ) :
    stamps H s n rounds <+: ns ∧ (H.Patient → stamps H s n rounds = ns) := by
  rw [stamps_logout hrun hlogout]
  exact ⟨List.nil_prefix, fun hpatient => absurd hlogout (by simp [(hpatient s.mode).1])⟩

/-- A dispatch hands the text over once. -/
theorem dispatch_calls {q : Player} (hq : q.ready = true) (rest : List Outcome) :
    (Session.dispatch H { s with player := q, reads := rest }).calls.length ≠ s.calls.length := by
  rw [Session.dispatch, if_pos hq]
  dsimp only
  split <;> simp [Session.close]

theorem dispatch_calls_length (H : Handlers σ) (s : Session σ) :
    (s.dispatch H).calls.length = s.calls.length ∨
      (s.dispatch H).calls.length = s.calls.length + 1 := by
  unfold Session.dispatch
  split_ifs
  · right
    dsimp only
    split <;> simp [Session.close]
  · exact .inl rfl

/-- A round makes one call at most. -/
theorem round_calls_length (H : Handlers σ) (s : Session σ) (r : Round) :
    (s.round H r).calls.length = s.calls.length ∨
      (s.round H r).calls.length = s.calls.length + 1 := by
  rw [Session.round.eq_def]
  split_ifs
  · exact .inl rfl
  · exact .inl rfl
  · cases r with
    | interrupted | failed | idle => exact .inl rfl
    | readable fionread c =>
        dsimp only
        split
        · next q rest _ => exact dispatch_calls_length H { s with player := q, reads := rest }
        · exact .inl rfl
        · exact .inl rfl

/-- There is a stamp for each call. -/
theorem length_stamps (H : Handlers σ) (s : Session σ) (n : ℕ) (rounds : List Round) :
    s.calls.length + (stamps H s n rounds).length = (socketSelect H s rounds).calls.length := by
  induction rounds generalizing s n with
  | nil => rfl
  | cons r rounds ih =>
      have hround := round_calls_length H s r
      have hrest := ih (s.round H r) (n + lineEnds (s.reads.take
        (s.reads.length - (s.round H r).reads.length)))
      rw [stamps, socketSelect_cons, ← hrest]
      split_ifs with hsame
      · rw [hsame]
      · rw [List.length_cons]
        omega

/-- The stamps after a dispatch are those of the session that goes on, unless its handler ends
it. -/
theorem stamps_of_dispatch {q : Player} {rest : List Outcome} {rounds : List Round} {ns : List ℕ}
    (n : ℕ) (hq : q.ready = true)
    (hnext : ∀ mode, let s' : Session σ :=
        { player := q.wipe.say .prompt, mode := mode, reads := rest,
          calls := s.calls ++ [⟨q.ibuffer, q.ibufferPtr⟩], status := s.status }
      stamps H s' n rounds <+: ns ∧ (H.Patient → stamps H s' n rounds = ns)) :
    stamps H (Session.dispatch H { s with player := q, reads := rest }) n rounds <+: ns ∧
      (H.Patient →
        stamps H (Session.dispatch H { s with player := q, reads := rest }) n rounds = ns) := by
  rw [Session.dispatch, if_pos hq]
  dsimp only
  split
  · next hmode =>
      rw [stamps_stopped (by simp [Session.close])]
      refine ⟨List.nil_prefix, fun hpatient => ?_⟩
      have hgoes := (hpatient s.mode).2 q.ibuffer q.ibufferPtr
      rw [hmode] at hgoes
      cases hgoes
  · next mode hmode => exact hnext mode

/-- The stamps of a session over chunks, as far as its handlers let it go. -/
theorem stamps_of_cuts {rounds : List Round} {A : List (List UInt8)} (hcuts : Cuts rounds A)
    {reads later : List Outcome} (n : ℕ) (hrun : s.status = .running)
    (hflags : s.player.FlagsReady) (hd : Delivers reads A.flatten)
    (hreads : s.reads = reads ++ later) :
    stamps H s n rounds <+: chunkStamps s.player.ready n A ∧
      (H.Patient → stamps H s n rounds = chunkStamps s.player.ready n A) := by
  induction hcuts generalizing s n reads with
  | nil => simp [stamps, chunkStamps]
  | @interrupted rounds A hcuts ih =>
      by_cases hlogout : H.logout s.mode = true
      · exact stamps_of_logout hrun hlogout _ _ _
      rw [stamps, round_interrupted hrun hlogout]
      simp only [Nat.sub_self, List.take_zero, if_true]
      exact ih _ hrun hflags hd hreads
  | @idle rounds A hcuts ih =>
      by_cases hlogout : H.logout s.mode = true
      · exact stamps_of_logout hrun hlogout _ _ _
      rw [stamps, round_idle hrun hlogout]
      simp only [Nat.sub_self, List.take_zero, if_true]
      exact ih _ hrun hflags hd hreads
  | @chunk rounds A a c hne hcuts ih =>
      by_cases hlogout : H.logout s.mode = true
      · exact stamps_of_logout hrun hlogout _ _ _
      rw [List.flatten_cons] at hd
      obtain ⟨r₁, r₂, rfl, hd₁, hd₂⟩ := hd.split
      rw [List.append_assoc] at hreads
      by_cases hpass : Passes a
      · obtain ⟨q, hscan, hflags', hready⟩ := scan_passes hpass hflags
        have hround := round_chunk (H := H) hrun hlogout hne hd₁ hreads hscan c
        have htake : s.reads.take (s.reads.length - (r₂ ++ later).length) = r₁ := by
          rw [hreads, List.length_append, Nat.add_sub_cancel, List.take_left]
        rw [stamps, hround, chunkStamps, if_pos hpass, ← hready]
        simp only [dispatch_reads, htake, lineEnds_delivers hd₁]
        cases hq : q.ready with
        | false =>
            rw [dispatch_not_ready hq]
            have hnext := ih (s := { s with player := q, reads := r₂ ++ later })
              (n + a.countP fun c => decide (LineEnd c)) hrun hflags' hd₂ rfl
            simpa [hq] using hnext
        | true =>
            simp only [if_neg (dispatch_calls hq _), if_true]
            let s' (mode : σ) : Session σ :=
              { player := q.wipe.say .prompt, mode := mode, reads := r₂ ++ later,
                calls := s.calls ++ [⟨q.ibuffer, q.ibufferPtr⟩], status := s.status }
            have hq' : (q.wipe.say .prompt).ready = true := hq
            have hnext := stamps_of_dispatch (n + a.countP fun c => decide (LineEnd c)) hq
              fun mode => hq' ▸ ih (s := s' mode) _ hrun hflags' hd₂ rfl
            exact ⟨by simpa using hnext.1, fun hpatient => by simpa using hnext.2 hpatient⟩
      · obtain ⟨hstatus, hcalls⟩ := round_not_passes (H := H) hrun hlogout hpass hd₁ hreads c
        rw [stamps, chunkStamps, if_neg hpass]
        simp only [hcalls, if_true, stamps_stopped hstatus]
        exact ⟨List.prefix_rfl, fun _ => trivial⟩

end Runs

/-! ## Chunkings -/

theorem flagsReady_new : playerNew.FlagsReady := by simp [Player.FlagsReady, playerNew]

theorem patient_patient : patient.Patient := fun _ => ⟨rfl, fun _ _ => by simp [patient]⟩

theorem Chunking.endsEach_of_finished {A : Chunking w} (h : A.Finished) : EndsEach false A.chunks := by
  obtain ⟨rounds, hcuts⟩ := exists_cuts A.nonempty
  have hd : Delivers (w.map .byte) A.chunks.flatten := by
    rw [A.flatten_eq]
    exact .bytes w
  have hchain := h Unit patient () rounds _ [] hcuts (.bytes w)
  have hstamps := (stamps_of_cuts (H := patient) (s := .start () (w.map .byte ++ [])) hcuts 0 rfl
    flagsReady_new hd rfl).2 patient_patient
  rw [hstamps] at hchain
  exact (isChain_chunkStamps le_rfl fun _ => rfl).mp hchain

/-- The stamps of a session with given handlers, which make some of the calls. -/
theorem Chunking.stamps_eq_take {σ : Type u} (A : Chunking w) (H : Handlers σ) (mode : σ)
    {rounds : List Round} {reads later : List Outcome} (hcuts : Cuts rounds A.chunks)
    (hd : Delivers reads w) :
    stamps H (.start mode (reads ++ later)) 0 rounds =
      (chunkStamps false 0 A.chunks).take
        (socketSelect H (.start mode (reads ++ later)) rounds).calls.length := by
  rw [← A.flatten_eq] at hd
  have hprefix := (stamps_of_cuts (H := H) (s := .start mode (reads ++ later)) hcuts 0 rfl
    flagsReady_new hd rfl).1
  have hlength := length_stamps H (.start mode (reads ++ later)) 0 rounds
  rw [show (Session.start mode (reads ++ later)).calls.length = 0 from rfl, Nat.zero_add] at hlength
  rw [← hlength]
  exact List.prefix_iff_eq_take.mp hprefix

/-- With given handlers, the calls count up to the one with which they end the session. -/
theorem isChain_stamps_iff {σ : Type u} (A : Chunking w) (H : Handlers σ) (mode : σ)
    {rounds : List Round} {reads later : List Outcome} (hcuts : Cuts rounds A.chunks)
    (hd : Delivers reads w) :
    (0 :: stamps H (.start mode (reads ++ later)) 0 rounds).IsChain (· < ·) ↔
      (0 :: (chunkStamps false 0 A.chunks).take
        (socketSelect H (.start mode (reads ++ later)) rounds).calls.length).IsChain (· < ·) := by
  rw [A.stamps_eq_take H mode hcuts hd]

/-- No unfinished line is handed over, whatever the handlers do, exactly when every chunk
after the first line end has a line end in it, up to a chunk that ends the session. -/
theorem finished_iff (A : Chunking w) : A.Finished ↔ EndsEach false A.chunks := by
  constructor
  · exact Chunking.endsEach_of_finished
  · intro hends σ H mode rounds reads later hcuts hd
    have hchain : (0 :: chunkStamps false 0 A.chunks).IsChain (· < ·) :=
      (isChain_chunkStamps le_rfl (by simp)).mpr hends
    rw [isChain_stamps_iff A H mode hcuts hd]
    exact hchain.prefix ((List.prefix_cons_inj 0).mpr (List.take_prefix _ _))

/-- A line, and then a letter on its own. -/
def letterAfter : Chunking [97, lf, 98] := ⟨[[97, lf], [98]], rfl, by decide⟩

/-- The letter is handed over without a line end. -/
theorem letterAfter_not_finished : ¬ letterAfter.Finished :=
  fun h => absurd (Chunking.endsEach_of_finished h) (by decide)

end ThreeW3.Input
