/-
# Reads that fail

`process_input` as a loop over the outcomes of read(2), with one stage for each of its
two calls of `socket_read`. An end of file ends the session. The -1 of an error is a
large `size_t`, so the loop goes on with what `c` held before.
-/

import ThreeW3.Input.Player
import ThreeW3.Input.Scan

namespace ThreeW3.Input

/-! ## Stages -/

/-- The two places where `process_input` reads: a byte, and the command byte after IAC,
where `c` holds IAC. -/
inductive Waiting
  | byte (p : Player) (c : UInt8) (size : ℤ)
  | command (p : Player) (size : ℤ)

/-- Where `process_input` stands. -/
inductive Stage
  | reading (w : Waiting)
  | returned (p : Player)
  | closed (p : Player)

/-- The test of the loop. -/
def Stage.top (p : Player) (c : UInt8) (size : ℤ) : Stage :=
  if size = 0 then .returned p else .reading (.byte p c size)

/-- The stage before anything has been read. -/
def Stage.start (p : Player) (c : UInt8) : Option ℤ → Stage
  | none => .closed p
  | some size => if size ≤ 0 then .closed p else .top p c size

namespace Waiting

def player : Waiting → Player
  | .byte p _ _ => p
  | .command p _ => p

/-- What `c` holds. -/
def held : Waiting → UInt8
  | .byte _ c _ => c
  | .command _ _ => iac

/-- The stage after `socket_read` has returned `n`, with what `c` holds then. -/
def got : Waiting → ℕ → UInt8 → Stage
  | .byte p _ size, n, c =>
      if n ≤ 0 then .closed p
      else if Closing c then .closed p
      else if c = iac then .reading (.command p size)
      else .top (p.receive c) c (size - 1)
  | .command p size, n, c =>
      if n ≤ 0 then .closed p
      else if c = ip then .closed p
      else .top (p.command c) c (size - 1 - 1)

/-- What `c` holds closes the session if it is taken for a byte that came. -/
def Closes : Waiting → Prop
  | .byte _ c _ => Closing c
  | .command _ _ => False

end Waiting

namespace Stage

/-- From a stage to the end of `process_input`. -/
def run : Stage → List Outcome → Result
  | .returned p, reads => .returned p reads
  | .closed p, reads => .closed p reads
  | .reading w, [] => .blocked w.player
  | .reading w, .byte c :: reads => run (w.got 1 c) reads
  | .reading w, .eof :: reads => run (w.got 0 w.held) reads
  | .reading w, .again :: reads => run (.reading w) reads
  | .reading w, .error :: reads => run (w.got sizeMinusOne w.held) reads

/-- The stage after these bytes have come. -/
def feed : Stage → List UInt8 → Stage
  | .reading w, c :: cs => feed (w.got 1 c) cs
  | g, _ => g

end Stage

variable {p : Player} {c : UInt8} {size : ℤ} {fionread : Option ℤ} {w : Waiting} {g : Stage}
  {reads later : List Outcome} {bs : List UInt8}

@[simp]
theorem Stage.run_returned (p : Player) (reads : List Outcome) :
    (Stage.returned p).run reads = .returned p reads := by
  rw [run]

@[simp]
theorem Stage.run_closed (p : Player) (reads : List Outcome) :
    (Stage.closed p).run reads = .closed p reads := by
  rw [run]

theorem Stage.run_reading (w : Waiting) (reads : List Outcome) :
    (Stage.reading w).run reads =
      match socketRead w.held reads with
      | none => .blocked w.player
      | some (n, c, reads') => (w.got n c).run reads' := by
  induction reads with
  | nil => rfl
  | cons r reads ih =>
      cases r with
      | byte c => rfl
      | eof => rfl
      | again => exact ih
      | error => rfl

theorem Stage.top_of_ne_zero (hsize : size ≠ 0) : Stage.top p c size = .reading (.byte p c size) :=
  if_neg hsize

/-- A read that returns leads from the top of the loop to the next stage. -/
theorem Stage.run_top {n : ℕ} {d : UInt8} {rest : List Outcome} (hsize : size ≠ 0)
    (hread : socketRead c reads = some (n, d, rest)) :
    (Stage.top p c size).run reads = ((Waiting.byte p c size).got n d).run rest := by
  rw [top_of_ne_zero hsize, run_reading, Waiting.held, hread]

/-- A read of IAC leads to the read of its command byte. -/
theorem Stage.run_top_iac {n : ℕ} {rest : List Outcome} (hsize : size ≠ 0)
    (hread : socketRead c reads = some (n, iac, rest)) (hn : ¬ n ≤ 0) :
    (Stage.top p c size).run reads =
      match socketRead iac rest with
      | none => .blocked p
      | some (n, c, rest') => ((Waiting.command p size).got n c).run rest' := by
  rw [run_top hsize hread, Waiting.got, if_neg hn, if_neg (by decide), if_pos rfl, run_reading]
  rfl

/-- The loop goes through the stages. -/
theorem processLoop_eq_run (p : Player) (c : UInt8) (size : ℤ) (reads : List Outcome) :
    processLoop p c size reads = (Stage.top p c size).run reads := by
  fun_induction processLoop p c size reads with
  | case1 => rw [Stage.top, if_pos rfl, Stage.run_returned]
  | case2 _ _ _ _ hsize hread =>
      rw [Stage.top_of_ne_zero hsize, Stage.run_reading, Waiting.held, hread]
      rfl
  | case3 _ _ _ _ hsize _ _ _ hread hn =>
      rw [Stage.run_top hsize hread, Waiting.got, if_pos hn, Stage.run_closed]
  | case4 _ _ _ _ hsize _ _ _ hread hn hclose =>
      rw [Stage.run_top hsize hread, Waiting.got, if_neg hn, if_pos hclose, Stage.run_closed]
  | case5 _ _ _ _ hsize =>
      rename_i hn hread _ hcommand
      rw [Stage.run_top_iac hsize hread hn, hcommand]
  | case6 _ _ _ _ hsize =>
      rename_i hn _ _ _ hn' hread _ hcommand
      rw [Stage.run_top_iac hsize hread hn, hcommand]
      simp only [Waiting.got, if_pos hn', Stage.run_closed]
  | case7 _ _ _ _ hsize =>
      rename_i hn _ _ hn' hread _ hcommand
      rw [Stage.run_top_iac hsize hread hn, hcommand]
      simp only [Waiting.got, if_neg hn', if_true, Stage.run_closed]
  | case8 _ _ _ _ hsize =>
      rename_i hn _ _ _ hn' hip hread _ hcommand ih
      rw [Stage.run_top_iac hsize hread hn, hcommand]
      simp only [Waiting.got, if_neg hn', if_neg hip, ih]
  | case9 _ _ _ _ hsize _ _ _ hread hn hclose hiac ih =>
      rw [Stage.run_top hsize hread, Waiting.got, if_neg hn, if_neg hclose, if_neg hiac, ih]

/-- `process_input` goes through the stages. -/
theorem processInput_eq_run (p : Player) (c : UInt8) (fionread : Option ℤ)
    (reads : List Outcome) :
    processInput p c fionread reads = (Stage.start p c fionread).run reads := by
  cases fionread with
  | none => rw [processInput, Stage.start, Stage.run_closed]
  | some size =>
      rw [processInput, Stage.start]
      split_ifs
      · rw [Stage.run_closed]
      · exact processLoop_eq_run p c size reads

namespace Stage

@[simp]
theorem feed_nil (g : Stage) : g.feed [] = g := by
  cases g <;> rfl

/-- A stage that is past the end stays. -/
theorem exists_reading_of_feed_cons {cs : List UInt8} (hfeed : g.feed (c :: cs) = .reading w) :
    ∃ v, g = .reading v ∧ (v.got 1 c).feed cs = .reading w := by
  cases g with
  | reading v => exact ⟨v, rfl, hfeed⟩
  | returned p => cases hfeed
  | closed p => cases hfeed

/-- Reads that succeed lead to the stage after their bytes. -/
theorem run_delivers (hd : Delivers reads bs) (hfeed : g.feed bs = .reading w) :
    g.run (reads ++ later) = (Stage.reading w).run later := by
  induction hd generalizing g with
  | nil =>
      rw [feed_nil] at hfeed
      rw [hfeed, List.nil_append]
  | byte c hd ih =>
      obtain ⟨v, rfl, hfeed⟩ := exists_reading_of_feed_cons hfeed
      exact ih hfeed
  | again hd ih =>
      obtain ⟨v, rfl, hfeed'⟩ := exists_reading_of_feed_cons hfeed
      exact ih hfeed

/-- Reads that are tried again change nothing. -/
theorem run_again (n : ℕ) :
    (Stage.reading w).run (List.replicate n .again ++ reads) = (Stage.reading w).run reads := by
  induction n with
  | zero => rfl
  | succ n ih => exact ih

/-- `process_input` waits for a byte after those that have come, if it has not ended. -/
theorem run_eq_blocked_iff {q : Player} :
    g.run (bs.map .byte) = .blocked q ↔ ∃ w, g.feed bs = .reading w ∧ w.player = q := by
  induction bs generalizing g with
  | nil => cases g <;> simp [run]
  | cons c cs ih =>
      cases g with
      | reading w => exact ih
      | returned p => simp [feed]
      | closed p => simp [feed]

/-- Each outcome leads to a stage. -/
theorem exists_run_cons (w : Waiting) (r : Outcome) (reads : List Outcome) :
    ∃ g : Stage, (Stage.reading w).run (r :: reads) = g.run reads := by
  cases r with
  | byte c => exact ⟨w.got 1 c, rfl⟩
  | eof => exact ⟨w.got 0 w.held, rfl⟩
  | again => exact ⟨.reading w, rfl⟩
  | error => exact ⟨w.got sizeMinusOne w.held, rfl⟩

/-- The outcomes are used in their order. -/
theorem rest_suffix (g : Stage) (reads : List Outcome) : (g.run reads).rest <:+ reads := by
  induction reads generalizing g with
  | nil => cases g <;> simp [run, Result.rest]
  | cons r reads ih =>
      cases g with
      | reading w =>
          obtain ⟨g, hg⟩ := exists_run_cons w r reads
          rw [hg]
          exact (ih g).trans (List.suffix_cons r reads)
      | returned p => simp [Result.rest]
      | closed p => simp [Result.rest]

/-- A stage that reads does not close the session without an outcome. -/
theorem run_reading_ne_closed {q : Player} :
    (Stage.reading w).run reads ≠ .closed q reads := by
  cases reads with
  | nil => exact nofun
  | cons r reads =>
      intro hclosed
      obtain ⟨g, hg⟩ := exists_run_cons w r reads
      have hsuffix := rest_suffix g reads
      rw [← hg, hclosed] at hsuffix
      have hlength := hsuffix.length_le
      exact absurd hlength (by simp [Result.rest])

theorem run_top_ne_closed {q : Player} : (Stage.top p c size).run reads ≠ .closed q reads := by
  rw [top]
  split_ifs
  · simp
  · exact run_reading_ne_closed

end Stage

/-! ## Failures -/

/-- An outcome with which `socket_read` returns and has delivered nothing. -/
abbrev Failed (f : Outcome) : Prop := f = .eof ∨ f = .error

/-- The bytes that reads deliver. -/
def delivered (reads : List Outcome) : List UInt8 :=
  reads.filterMap fun r =>
    match r with
    | .byte c => some c
    | .eof => none
    | .again => none
    | .error => none

/-- Wherever a read fails, after bytes at which `process_input` waits for another, the
session is closed, as these bytes have left it and with no further read. -/
def FailureCloses (p : Player) (c : UInt8) (fionread : Option ℤ) (reads : List Outcome) : Prop :=
  ∀ pre bs n f post q, reads = pre ++ List.replicate n .again ++ f :: post → Delivers pre bs →
    Failed f → processInput p c fionread (bs.map .byte) = .blocked q →
    processInput p c fionread reads = .closed q post

/-- The input depends only on the bytes that were delivered, not on what `c` holds at first. -/
def DeliveredOnly (p : Player) (c : UInt8) (fionread : Option ℤ) (reads : List Outcome) : Prop :=
  ∀ used c', reads = used ++ (processInput p c fionread reads).rest →
    SameInput (processInput p c fionread reads).player
      (processInput p c' fionread ((delivered used).map .byte)).player

/-- At every read that fails with an error, after bytes at which the stage waits for
another, what `c` holds closes the session. -/
def Stage.ErrorsClose (g : Stage) (reads : List Outcome) : Prop :=
  ∀ pre bs n post w, reads = pre ++ List.replicate n .again ++ .error :: post →
    Delivers pre bs → g.feed bs = .reading w → w.Closes

/-- The error value of `socket_read` closes only through what `c` holds. -/
theorem got_error_closed_iff {q : Player} {post : List Outcome} :
    (w.got sizeMinusOne w.held).run post = .closed q post ↔ w.Closes ∧ q = w.player := by
  have hn : ¬ sizeMinusOne ≤ 0 := by decide
  cases w with
  | byte p c size =>
      rw [Waiting.held, Waiting.got, if_neg hn]
      split_ifs with hclose hiac
      · simp [Waiting.Closes, Waiting.player, hclose, eq_comm]
      · simp [Waiting.Closes, hclose, Stage.run_reading_ne_closed]
      · simp [Waiting.Closes, hclose, Stage.run_top_ne_closed]
  | command p size =>
      rw [Waiting.held, Waiting.got, if_neg hn, if_neg (by decide)]
      simp [Waiting.Closes, Stage.run_top_ne_closed]

/-- A read that fails, at a stage that is reached. -/
theorem run_failed {pre post : List Outcome} {n : ℕ} {f : Outcome}
    (hd : Delivers pre bs) (hfeed : g.feed bs = .reading w) :
    g.run (pre ++ List.replicate n .again ++ f :: post) = (Stage.reading w).run (f :: post) := by
  rw [List.append_assoc, Stage.run_delivers hd hfeed, Stage.run_again]

/-! ## Delivered bytes -/

/-- The same stage, but for what `c` holds before a byte comes. -/
def Stage.Alike (g h : Stage) : Prop :=
  g = h ∨ ∃ p c c' size, g = .reading (.byte p c size) ∧ h = .reading (.byte p c' size)

theorem Stage.Alike.start (p : Player) (c c' : UInt8) (fionread : Option ℤ) :
    Stage.Alike (.start p c fionread) (.start p c' fionread) := by
  cases fionread with
  | none => exact .inl rfl
  | some size =>
      rw [Stage.start, Stage.start, Stage.top, Stage.top]
      split_ifs
      · exact .inl rfl
      · exact .inl rfl
      · exact .inr ⟨p, c, c', size, rfl, rfl⟩

/-- Alike stages that read are at the same place, and a byte makes them equal. -/
theorem Stage.Alike.reading {h : Stage} (halike : Stage.Alike (.reading w) h) :
    ∃ v, h = .reading v ∧ v.player = w.player ∧ ∀ c, v.got 1 c = w.got 1 c := by
  rcases halike with rfl | ⟨p, c, c', size, hw, rfl⟩
  · exact ⟨w, rfl, rfl, fun _ => rfl⟩
  · obtain rfl := Stage.reading.inj hw
    exact ⟨_, rfl, rfl, fun _ => rfl⟩

/-- The part of a run after its first outcome. -/
theorem exists_used_cons {r : Outcome} {used : List Outcome}
    (hused : r :: reads = used ++ (g.run reads).rest) :
    ∃ used', used = r :: used' ∧ reads = used' ++ (g.run reads).rest := by
  cases used with
  | nil =>
      have hlength := (Stage.rest_suffix g reads).length_le
      rw [← List.nil_append (g.run reads).rest, ← hused, List.length_cons] at hlength
      omega
  | cons r' used' =>
      obtain ⟨rfl, hused'⟩ := List.cons_eq_cons.mp hused
      exact ⟨used', rfl, hused'⟩

namespace Stage.ErrorsClose

theorem error (h : (Stage.reading w).ErrorsClose (.error :: reads)) : w.Closes :=
  h [] [] 0 reads w rfl .nil (Stage.feed_nil _)

theorem byte (h : (Stage.reading w).ErrorsClose (.byte c :: reads)) :
    (w.got 1 c).ErrorsClose reads := by
  rintro pre bs n post v rfl hd hfeed
  exact h (.byte c :: pre) (c :: bs) n post v rfl (.byte c hd) hfeed

theorem again (h : (Stage.reading w).ErrorsClose (.again :: reads)) :
    (Stage.reading w).ErrorsClose reads := by
  rintro pre bs n post v rfl hd hfeed
  cases bs with
  | nil =>
      cases hd
      exact h [] [] (n + 1) post v rfl .nil hfeed
  | cons c cs => exact h (.again :: pre) (c :: cs) n post v rfl (.again hd) hfeed

end Stage.ErrorsClose

theorem Waiting.got_zero (w : Waiting) (c : UInt8) : w.got 0 c = .closed w.player := by
  cases w <;> rfl

/-- The player that a run leaves is the one that its bytes lead to. -/
theorem player_run_delivered {h : Stage} {used : List Outcome} (halike : g.Alike h)
    (herrors : g.ErrorsClose reads) (hused : reads = used ++ (g.run reads).rest) :
    (g.run reads).player = (h.run ((delivered used).map .byte)).player := by
  induction reads generalizing g h used with
  | nil =>
      obtain ⟨rfl, -⟩ := List.nil_eq_append_iff.mp hused
      rcases halike with rfl | ⟨p, c, c', size, rfl, rfl⟩ <;> rfl
  | cons r reads ih =>
      cases g with
      | returned p =>
          obtain rfl : .returned p = h := by simpa [Stage.Alike] using halike
          simp [Result.player]
      | closed p =>
          obtain rfl : .closed p = h := by simpa [Stage.Alike] using halike
          simp [Result.player]
      | reading w =>
          obtain ⟨v, rfl, hplayer, hgot⟩ := halike.reading
          -- A read that fails ends the run, and the bytes lead to the stage that it was at.
          have hended : ∀ r, delivered [r] = [] → r :: reads = used ++ reads →
              w.player = ((Stage.reading v).run ((delivered used).map .byte)).player := by
            intro r hr hused
            obtain rfl : [r] = used := List.append_cancel_right hused
            rw [hr]
            exact hplayer.symm
          cases r with
          | byte c =>
              obtain ⟨used, rfl, hrest⟩ := exists_used_cons (g := w.got 1 c) hused
              have hsame : Stage.Alike (w.got 1 c) (v.got 1 c) := .inl (hgot c).symm
              have hnext := ih hsame herrors.byte hrest
              exact hnext
          | eof =>
              rw [Stage.run, Waiting.got_zero, Stage.run_closed] at hused ⊢
              exact hended .eof rfl hused
          | again =>
              obtain ⟨used, rfl, hrest⟩ := exists_used_cons (g := .reading w) hused
              have hnext := ih halike herrors.again hrest
              exact hnext
          | error =>
              rw [Stage.run, got_error_closed_iff.mpr ⟨herrors.error, rfl⟩] at hused ⊢
              exact hended .error rfl hused

/-! ## When failures end the session -/

/-- A failed read always ends the session, and what came in is what was delivered, exactly
if no read fails with an error, or only where what `c` holds closes the session. -/
theorem failures_close_iff (p : Player) (c : UInt8) (fionread : Option ℤ)
    (reads : List Outcome) :
    (FailureCloses p c fionread reads ∧ DeliveredOnly p c fionread reads) ↔
      (Stage.start p c fionread).ErrorsClose reads := by
  constructor
  · rintro ⟨hclose, -⟩ pre bs n post w rfl hd hfeed
    have hblocked : processInput p c fionread (bs.map .byte) = .blocked w.player := by
      rw [processInput_eq_run, Stage.run_eq_blocked_iff]
      exact ⟨w, hfeed, rfl⟩
    have hclosed := hclose pre bs n .error post w.player rfl hd (.inr rfl) hblocked
    rw [processInput_eq_run, run_failed hd hfeed] at hclosed
    exact (got_error_closed_iff.mp hclosed).1
  · intro herrors
    constructor
    · intro pre bs n f post q hreads hd hf hblocked
      rw [processInput_eq_run, Stage.run_eq_blocked_iff] at hblocked
      obtain ⟨w, hfeed, rfl⟩ := hblocked
      rw [processInput_eq_run, hreads, run_failed hd hfeed]
      rcases hf with rfl | rfl
      · rw [Stage.run, Waiting.got_zero, Stage.run_closed]
      · exact got_error_closed_iff.mpr ⟨herrors pre bs n post w hreads hd hfeed, rfl⟩
    · intro used c' hused
      rw [processInput_eq_run] at hused ⊢
      rw [processInput_eq_run, player_run_delivered (.start p c c' fionread) herrors hused]
      exact .refl _

/-- An error after the first of two bytes: the byte goes in twice, and the session goes on. -/
theorem error_not_closed :
    ¬ (FailureCloses playerNew 0 (some 2) [.byte 97, .error] ∧
      DeliveredOnly playerNew 0 (some 2) [.byte 97, .error]) := by
  rintro ⟨hclose, -⟩
  have hblocked : processInput playerNew 0 (some 2) [.byte 97] =
      .blocked (playerNew.receive 97) := by
    simp +decide [processInput, processLoop, socketRead]
  have hclosed := hclose [.byte 97] [97] 0 .error [] _ rfl (.byte 97 .nil) (.inr rfl) hblocked
  simp +decide [processInput, processLoop, socketRead] at hclosed

end ThreeW3.Input
