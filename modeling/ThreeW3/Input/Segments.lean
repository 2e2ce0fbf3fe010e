/-
# Sessions over a stream in chunks

What `socket_select` hands to the mode handlers when a text stream reaches it in
chunks. Up to the first chunk with a line end the printable characters collect in
the line buffer. `P_READY` is never cleared, so from then on every chunk is handed
over on its own, whether or not it ends a line.
-/

import Mathlib.Data.List.GetD
import ThreeW3.Input.Player
import ThreeW3.Input.Scan

namespace ThreeW3.Input

universe u

/-! ## The line buffer -/

/-- A text in a buffer of zeros. -/
def padded (w : List UInt8) : Fin bufsiz → UInt8 := fun i => w.getD i 0

/-- The text in the buffer after a printable character. -/
def put (w : List UInt8) (c : UInt8) : List UInt8 := if w.length < bufsiz then w ++ [c] else []

/-- What the buffer keeps of a text: every character past a full buffer empties it. -/
def kept (w : List UInt8) : List UInt8 := w.drop (w.length / (bufsiz + 1) * (bufsiz + 1))

theorem length_kept (w : List UInt8) : (kept w).length = w.length % (bufsiz + 1) := by
  have := Nat.div_add_mod' w.length (bufsiz + 1)
  rw [kept, List.length_drop]
  omega

theorem length_kept_le (w : List UInt8) : (kept w).length ≤ bufsiz := by
  rw [length_kept]
  exact Nat.le_of_lt_succ (Nat.mod_lt _ (Nat.succ_pos _))

theorem put_kept (w : List UInt8) (c : UInt8) : put (kept w) c = kept (w ++ [c]) := by
  have hstart : w.length / (bufsiz + 1) * (bufsiz + 1) ≤ w.length := Nat.div_mul_le_self _ _
  rw [put, length_kept]
  split_ifs with hroom
  · have hquot : (w.length + 1) / (bufsiz + 1) = w.length / (bufsiz + 1) := by
      unfold bufsiz at *
      omega
    rw [kept, kept, List.length_append, List.length_singleton, hquot,
      List.drop_append_of_le_length hstart]
  · have hfull : (w.length + 1) / (bufsiz + 1) * (bufsiz + 1) = w.length + 1 := by
      unfold bufsiz at *
      omega
    rw [kept, List.length_append, List.length_singleton, hfull, List.drop_eq_nil_of_le (by simp)]

theorem foldl_put_kept (w l : List UInt8) : l.foldl put (kept w) = kept (w ++ l) := by
  induction l generalizing w with
  | nil => simp
  | cons c l ih => rw [List.foldl_cons, put_kept, ih, List.append_assoc, List.singleton_append]

theorem padded_append {w : List UInt8} (hlt : w.length < bufsiz) (c : UInt8) :
    Function.update (padded w) ⟨w.length, hlt⟩ c = padded (w ++ [c]) := by
  funext i
  by_cases hi : i = ⟨w.length, hlt⟩
  · subst hi
    simp [padded]
  · have hne : (i : ℕ) ≠ w.length := fun heq => hi (Fin.ext heq)
    rw [Function.update_of_ne hi, padded, padded]
    rcases Nat.lt_or_gt_of_ne hne with hlow | hhigh
    · rw [List.getD_append _ _ _ _ hlow]
    · rw [List.getD_eq_default _ _ hhigh.le, List.getD_eq_default _ _ (by simp; omega)]

/-! ## The player over text -/

/-- A line end. -/
abbrev LineEnd (c : UInt8) : Prop := c = lf ∨ c = cr

/-- The chunk ends a line. -/
def hasLineEnd (a : List UInt8) : Bool := a.any fun c => decide (LineEnd c)

/-- The printable characters of a chunk. -/
def printables (a : List UInt8) : List UInt8 := a.filter fun c => decide (Printable c)

/-- The player holds this text, and `P_READY` stands so. A flag of a line end is
set only with `P_READY`. -/
structure Holds (p : Player) (w : List UInt8) (ready : Bool) : Prop where
  ibuffer : p.ibuffer = padded w
  ibufferPtr : p.ibufferPtr = w.length
  ready_eq : p.ready = ready
  flags : p.lastR = true ∨ p.lastN = true → ready = true

namespace Holds

variable {p : Player} {w : List UInt8} {ready : Bool} {c : UInt8}

theorem new : Holds playerNew [] false := ⟨by rfl, rfl, rfl, by simp [playerNew]⟩

/-- The buffer is emptied after a call of the handler. -/
theorem wipe (h : Holds p w ready) (m : Notice) : Holds (p.wipe.say m) [] ready :=
  ⟨by rfl, rfl, h.ready_eq, h.flags⟩

/-- A printable character goes into the buffer. -/
theorem printable (h : Holds p w ready) (hc : Printable c) :
    Holds (p.receive c) (put w c) ready := by
  rw [Player.receive_printable hc, Player.append, put]
  split_ifs with hptr hlen hlen
  · refine ⟨?_, ?_, h.ready_eq, by simp⟩
    · simpa only [h.ibuffer, h.ibufferPtr] using padded_append hlen c
    · simp [h.ibufferPtr]
  · exact absurd (h.ibufferPtr ▸ hptr) hlen
  · exact absurd (h.ibufferPtr.symm ▸ hlen) hptr
  · exact ⟨by rfl, rfl, h.ready_eq, by simp [Player.say, Player.wipe]⟩

/-- A line end sets `P_READY`. -/
theorem lineEnd (h : Holds p w ready) (hc : LineEnd c) : Holds (p.receive c) w true := by
  rcases hc with rfl | rfl
  · rw [Player.receive, if_neg (by decide), if_pos rfl]
    split_ifs with hlast
    · exact ⟨h.ibuffer, h.ibufferPtr, h.ready_eq.trans (h.flags (.inl hlast)), fun _ => rfl⟩
    · exact ⟨h.ibuffer, h.ibufferPtr, rfl, fun _ => rfl⟩
  · rw [Player.receive, if_neg (by decide), if_neg (by decide), if_pos rfl]
    split_ifs with hlast
    · exact ⟨h.ibuffer, h.ibufferPtr, h.ready_eq.trans (h.flags (.inr hlast)), fun _ => rfl⟩
    · exact ⟨h.ibuffer, h.ibufferPtr, rfl, fun _ => rfl⟩

/-- A chunk of text goes through: its characters collect, and a line end among
them sets `P_READY`. -/
theorem scan_text {a : List UInt8} (h : Holds p w ready) (htext : Text a) :
    ∃ q, scan p a = .passed q ∧
      Holds q ((printables a).foldl put w) (ready || hasLineEnd a) := by
  induction a generalizing p w ready with
  | nil => exact ⟨p, scan_nil p, by simpa [printables, hasLineEnd] using h⟩
  | cons c a ih =>
      have hc := htext.head
      rw [scan_receive hc.not_closing hc.ne_iac]
      by_cases hprint : Printable c
      · obtain ⟨q, hq, hholds⟩ := ih (h.printable hprint) htext.tail
        have hend : ¬ LineEnd c := by
          rintro (rfl | rfl) <;> revert hprint <;> decide
        have hline : hasLineEnd (c :: a) = hasLineEnd a := by
          rw [hasLineEnd, List.any_cons, decide_eq_false hend, Bool.false_or, hasLineEnd]
        have hchars : printables (c :: a) = c :: printables a :=
          List.filter_cons_of_pos (by simpa using hprint)
        rw [hline, hchars]
        exact ⟨q, hq, hholds⟩
      · have hend : LineEnd c := (hc.resolve_left hprint).symm
        obtain ⟨q, hq, hholds⟩ := ih (h.lineEnd hend) htext.tail
        have hline : hasLineEnd (c :: a) = true := by
          rw [hasLineEnd, List.any_cons, decide_eq_true hend, Bool.true_or]
        have hchars : printables (c :: a) = printables a :=
          List.filter_cons_of_neg (by simpa using hprint)
        rw [hline, hchars, Bool.or_true]
        exact ⟨q, hq, hholds⟩

end Holds

/-! ## Chunks -/

/-- The rounds report these chunks, one after another; rounds that find nothing
may come between them. -/
inductive Cuts : List Round → List (List UInt8) → Prop
  | nil : Cuts [] []
  | interrupted {rounds A} : Cuts rounds A → Cuts (.interrupted :: rounds) A
  | idle {rounds A} : Cuts rounds A → Cuts (.idle :: rounds) A
  | chunk {rounds A a} (c) : a ≠ [] → Cuts rounds A →
      Cuts (.readable (some (a.length : ℤ)) c :: rounds) (a :: A)

/-- A way to cut a stream into chunks. -/
structure Chunking (w : List UInt8) where
  chunks : List (List UInt8)
  flatten_eq : chunks.flatten = w
  nonempty : ∀ a ∈ chunks, a ≠ []

/-- The chunks are reported in some rounds. -/
theorem exists_cuts {A : List (List UInt8)} (hne : ∀ a ∈ A, a ≠ []) : ∃ rounds, Cuts rounds A := by
  induction A with
  | nil => exact ⟨[], .nil⟩
  | cons a A ih =>
      obtain ⟨rounds, hcuts⟩ := ih fun b hb => hne b (List.mem_cons_of_mem _ hb)
      exact ⟨_, .chunk 0 (hne a List.mem_cons_self) hcuts⟩

/-- The characters that collect, chunk by chunk: up to the first chunk with a line
end, then those of each chunk. -/
def pieces (u : List UInt8) : List (List UInt8) → List (List UInt8)
  | [] => []
  | a :: A =>
      if hasLineEnd a then (u ++ printables a) :: A.map printables
      else pieces (u ++ printables a) A

/-- The call of the handler on a text. -/
def Call.ofText (w : List UInt8) : Call := ⟨padded w, w.length⟩

/-- The calls that are made for these texts, until a handler ends the session. -/
def answered {σ : Type u} (H : Handlers σ) (mode : σ) : List (List UInt8) → List Call
  | [] => []
  | w :: ws =>
      if H.logout mode then []
      else Call.ofText w ::
        match H.fMode mode (padded w) w.length with
        | none => []
        | some mode => answered H mode ws

/-- The texts of these that a session is given, up to the one with which its handler ends it. -/
def heard {σ : Type u} (H : Handlers σ) (mode : σ) : List (List UInt8) → List (List UInt8)
  | [] => []
  | w :: ws =>
      if H.logout mode then []
      else w ::
        match H.fMode mode (padded w) w.length with
        | none => []
        | some mode => heard H mode ws

theorem answered_eq {σ : Type u} (H : Handlers σ) (mode : σ) (ws : List (List UInt8)) :
    answered H mode ws = (heard H mode ws).map .ofText := by
  induction ws generalizing mode with
  | nil => rfl
  | cons w ws ih =>
      rw [answered, heard]
      split_ifs
      · rfl
      · rw [List.map_cons]
        split
        · rfl
        · rw [ih]

theorem heard_initial {σ : Type u} (H : Handlers σ) (mode : σ) (ws : List (List UInt8)) :
    heard H mode ws <+: ws := by
  induction ws generalizing mode with
  | nil => exact List.nil_prefix
  | cons w ws ih =>
      rw [heard]
      split_ifs
      · exact List.nil_prefix
      · rw [List.prefix_cons_inj]
        split
        · exact List.nil_prefix
        · exact ih _

theorem answered_logout {σ : Type u} {H : Handlers σ} {mode : σ} (hlogout : H.logout mode = true)
    (ws : List (List UInt8)) : answered H mode ws = [] := by
  cases ws <;> simp [answered, hlogout]

/-! ## Runs -/

section Runs

variable {σ : Type u} {H : Handlers σ} {s : Session σ}

theorem socketSelect_cons (r : Round) (rounds : List Round) :
    socketSelect H s (r :: rounds) = socketSelect H (s.round H r) rounds := rfl

theorem round_stopped (hstatus : s.status ≠ .running) (r : Round) : s.round H r = s :=
  if_pos hstatus

/-- A thread that is gone or waits makes no calls. -/
theorem socketSelect_stopped (hstatus : s.status ≠ .running) (rounds : List Round) :
    socketSelect H s rounds = s := by
  induction rounds with
  | nil => rfl
  | cons r rounds ih => rw [socketSelect_cons, round_stopped hstatus, ih]

theorem round_logout (hrun : s.status = .running) (hlogout : H.logout s.mode = true) (r : Round) :
    s.round H r = s.close := by
  rw [Session.round.eq_def, if_neg (by simp [hrun]), if_pos hlogout]

/-- A session that a handler ended makes no more calls. -/
theorem calls_logout (hrun : s.status = .running) (hlogout : H.logout s.mode = true)
    (rounds : List Round) : (socketSelect H s rounds).calls = s.calls := by
  cases rounds with
  | nil => rfl
  | cons r rounds =>
      rw [socketSelect_cons, round_logout hrun hlogout, socketSelect_stopped (by simp [Session.close])]
      rfl

theorem round_idle (hrun : s.status = .running) (hlogout : ¬ H.logout s.mode = true) :
    s.round H .idle = s := by
  rw [Session.round.eq_def, if_neg (by simp [hrun]), if_neg hlogout]

theorem round_interrupted (hrun : s.status = .running) (hlogout : ¬ H.logout s.mode = true) :
    s.round H .interrupted = s := by
  rw [Session.round.eq_def, if_neg (by simp [hrun]), if_neg hlogout]

/-- A round that finds a chunk which goes through. -/
theorem round_chunk {a : List UInt8} {reads later : List Outcome} {q : Player}
    (hrun : s.status = .running) (hlogout : ¬ H.logout s.mode = true) (hne : a ≠ [])
    (hd : Delivers reads a) (hreads : s.reads = reads ++ later)
    (hscan : scan s.player a = .passed q) (c : UInt8) :
    s.round H (.readable (some (a.length : ℤ)) c) =
      Session.dispatch H { s with player := q, reads := later } := by
  have hresult := processInput_scan hne hd s.player c later
  rw [hscan] at hresult
  obtain hresult : processInput s.player c (some a.length) s.reads = .returned q later :=
    hreads ▸ hresult
  rw [Session.round.eq_def, if_neg (by simp [hrun]), if_neg hlogout]
  simp only [hresult]

/-- Without `P_READY` nothing is handed over. -/
theorem dispatch_not_ready (hready : s.player.ready = false) : s.dispatch H = s :=
  if_neg (by simp [hready])

/-- With `P_READY` the text is handed over, and the buffer emptied. -/
theorem dispatch_ready {w : List UInt8} (h : Holds s.player w true) :
    s.dispatch H =
      let s' := { s with calls := s.calls ++ [Call.ofText w] }
      match H.fMode s.mode (padded w) w.length with
      | none => s'.close
      | some mode => { s' with mode := mode, player := s.player.wipe.say .prompt } := by
  rw [Session.dispatch, if_pos h.ready_eq, h.ibuffer, h.ibufferPtr]
  rfl

/-- A session that a handler ended answers no more texts. -/
theorem calls_answered_logout (hrun : s.status = .running) (hlogout : H.logout s.mode = true)
    (rounds : List Round) (ws : List (List UInt8)) :
    (socketSelect H s rounds).calls = s.calls ++ answered H s.mode ws := by
  rw [calls_logout hrun hlogout, answered_logout hlogout, List.append_nil]

/-- A text is handed over, and the session goes on from there unless its handler ends it. -/
theorem calls_dispatch {w : List UInt8} {ws : List (List UInt8)} {q : Player}
    {rest : List Outcome} {rounds : List Round} (hlogout : ¬ H.logout s.mode = true)
    (hq : Holds q w true)
    (hnext : ∀ mode, (socketSelect H
      { player := q.wipe.say .prompt, mode := mode, reads := rest,
        calls := s.calls ++ [Call.ofText w], status := s.status } rounds).calls =
      s.calls ++ [Call.ofText w] ++ answered H mode ws) :
    (socketSelect H (Session.dispatch H { s with player := q, reads := rest }) rounds).calls =
      s.calls ++ answered H s.mode (w :: ws) := by
  rw [dispatch_ready hq, answered, if_neg hlogout]
  dsimp only
  split
  · rw [socketSelect_stopped (by simp [Session.close])]
    rfl
  · next mode hmode => simpa [hmode] using hnext mode

/-- The texts still to come: those of the chunks once `P_READY` is set, and else
the pieces after the characters collected so far. -/
def textsFrom (ready : Bool) (u : List UInt8) (A : List (List UInt8)) : List (List UInt8) :=
  if ready then A.map printables else pieces u A

theorem textsFrom_cons_ready {ready : Bool} {u a : List UInt8} (A : List (List UInt8))
    (hu : ready = true → u = []) (hready : (ready || hasLineEnd a) = true) :
    textsFrom ready u (a :: A) = (u ++ printables a) :: textsFrom true [] A := by
  cases ready with
  | false =>
      have hend : hasLineEnd a = true := by simpa using hready
      simp only [textsFrom, Bool.false_eq_true, if_false, if_true, pieces, if_pos hend]
  | true => simp [textsFrom, hu rfl]

theorem textsFrom_cons_not_ready {ready : Bool} {u a : List UInt8} (A : List (List UInt8))
    (hready : (ready || hasLineEnd a) = false) :
    textsFrom ready u (a :: A) = textsFrom false (u ++ printables a) A := by
  obtain ⟨rfl, hend⟩ := Bool.or_eq_false_iff.mp hready
  simp only [textsFrom, Bool.false_eq_true, if_false, pieces, hend]

/-- The calls that a session makes over chunks of text are those for the texts
still to come. -/
theorem calls_of_cuts {rounds : List Round} {A : List (List UInt8)} (hcuts : Cuts rounds A)
    {u : List UInt8} {ready : Bool} {reads later : List Outcome} (hrun : s.status = .running)
    (hholds : Holds s.player (kept u) ready) (hu : ready = true → u = [])
    (htext : ∀ a ∈ A, Text a) (hd : Delivers reads A.flatten)
    (hreads : s.reads = reads ++ later) :
    (socketSelect H s rounds).calls =
      s.calls ++ answered H s.mode ((textsFrom ready u A).map kept) := by
  induction hcuts generalizing s u ready reads with
  | nil => cases ready <;> simp [socketSelect, textsFrom, pieces, answered]
  | interrupted hcuts ih =>
      by_cases hlogout : H.logout s.mode = true
      · exact calls_answered_logout hrun hlogout _ _
      rw [socketSelect_cons, round_interrupted hrun hlogout]
      exact ih hrun hholds hu htext hd hreads
  | idle hcuts ih =>
      by_cases hlogout : H.logout s.mode = true
      · exact calls_answered_logout hrun hlogout _ _
      rw [socketSelect_cons, round_idle hrun hlogout]
      exact ih hrun hholds hu htext hd hreads
  | @chunk rounds A a c hne hcuts ih =>
      by_cases hlogout : H.logout s.mode = true
      · exact calls_answered_logout hrun hlogout _ _
      rw [List.flatten_cons] at hd
      obtain ⟨r₁, r₂, rfl, hd₁, hd₂⟩ := hd.split
      have hA : ∀ b ∈ A, Text b := fun b hb => htext b (List.mem_cons_of_mem _ hb)
      obtain ⟨q, hscan, hq⟩ := hholds.scan_text (htext a List.mem_cons_self)
      rw [foldl_put_kept] at hq
      rw [List.append_assoc] at hreads
      rw [socketSelect_cons, round_chunk hrun hlogout hne hd₁ hreads hscan]
      cases hready : (ready || hasLineEnd a) with
      | false =>
          rw [hready] at hq
          rw [dispatch_not_ready hq.ready_eq, textsFrom_cons_not_ready A hready]
          exact ih hrun hq (by simp) hA hd₂ rfl
      | true =>
          rw [hready] at hq
          rw [textsFrom_cons_ready A hu hready, List.map_cons]
          exact calls_dispatch hlogout hq fun mode =>
            ih (u := []) hrun (hq.wipe .prompt) (fun _ => rfl) hA hd₂ rfl

end Runs

/-! ## Two ways to cut a stream -/

/-- The text of a call. -/
def Call.text (c : Call) : List UInt8 := (List.ofFn c.input).take c.length

theorem Call.text_ofText {w : List UInt8} (hw : w.length ≤ bufsiz) : (Call.ofText w).text = w := by
  apply List.ext_getElem
  · simp [Call.text, Call.ofText, hw]
  · intro i hi hi'
    simp [Call.text, Call.ofText, padded, hi']

theorem map_text_ofText {ws : List (List UInt8)} (hws : ∀ w ∈ ws, w.length ≤ bufsiz) :
    (ws.map Call.ofText).map Call.text = ws := by
  have htext : ∀ w ∈ ws, (Call.text ∘ Call.ofText) w = id w := fun w hw =>
    Call.text_ofText (hws w hw)
  rw [List.map_map, List.map_congr_left htext, List.map_id]

/-- A handler that lets every session go on. -/
def patient : Handlers Unit where
  fMode := fun _ _ _ => some ()
  logout := fun _ => false

theorem heard_patient (ws : List (List UInt8)) : heard patient () ws = ws := by
  induction ws with
  | nil => rfl
  | cons w ws ih => simpa [heard, patient] using ih

variable {w : List UInt8}

/-- The texts that a chunking leads to. -/
def Chunking.texts (A : Chunking w) : List (List UInt8) := (pieces [] A.chunks).map kept

theorem Chunking.text_of_mem (htext : Text w) (A : Chunking w) : ∀ a ∈ A.chunks, Text a := by
  intro a ha c hc
  apply htext
  rw [← A.flatten_eq]
  exact List.mem_flatten_of_mem ha hc

/-- A session over a chunking makes the calls for its texts. -/
theorem Chunking.calls_eq {σ : Type u} (htext : Text w) (A : Chunking w)
    (H : Handlers σ) (mode : σ) {rounds : List Round} {reads later : List Outcome}
    (hcuts : Cuts rounds A.chunks) (hd : Delivers reads w) :
    (socketSelect H (.start mode (reads ++ later)) rounds).calls = answered H mode A.texts := by
  rw [← A.flatten_eq] at hd
  simpa [Session.start, textsFrom, Chunking.texts] using
    calls_of_cuts (H := H) (s := .start mode (reads ++ later)) (u := []) hcuts rfl .new
      (by simp) (A.text_of_mem htext) hd rfl

theorem Chunking.length_le {A : Chunking w} {t : List UInt8} (ht : t ∈ A.texts) :
    t.length ≤ bufsiz := by
  obtain ⟨u, -, rfl⟩ := List.mem_map.mp ht
  exact length_kept_le u

/-- With given handlers, the texts count up to the one with which they end the session. -/
theorem calls_eq_iff {σ : Type u} (htext : Text w) (A B : Chunking w) (H : Handlers σ) (mode : σ)
    {rounds₁ rounds₂ : List Round} {reads₁ reads₂ later₁ later₂ : List Outcome}
    (hcuts₁ : Cuts rounds₁ A.chunks) (hcuts₂ : Cuts rounds₂ B.chunks) (hd₁ : Delivers reads₁ w)
    (hd₂ : Delivers reads₂ w) :
    (socketSelect H (.start mode (reads₁ ++ later₁)) rounds₁).calls =
        (socketSelect H (.start mode (reads₂ ++ later₂)) rounds₂).calls ↔
      heard H mode A.texts = heard H mode B.texts := by
  rw [A.calls_eq htext H mode hcuts₁ hd₁, B.calls_eq htext H mode hcuts₂ hd₂, answered_eq,
    answered_eq]
  have hshort : ∀ C : Chunking w, ∀ t ∈ heard H mode C.texts, t.length ≤ bufsiz := fun C t ht =>
    C.length_le ((heard_initial H mode C.texts).mem ht)
  refine ⟨fun hcalls => ?_, fun hheard => by rw [hheard]⟩
  rw [← map_text_ofText (hshort A), hcalls, map_text_ofText (hshort B)]

/-- Whatever the handlers do, both runs make the same calls. -/
def SameCalls (A B : Chunking w) : Prop :=
  ∀ (σ : Type) (H : Handlers σ) (mode : σ) (rounds₁ rounds₂ : List Round)
    (reads₁ reads₂ later₁ later₂ : List Outcome),
    Cuts rounds₁ A.chunks → Cuts rounds₂ B.chunks → Delivers reads₁ w → Delivers reads₂ w →
    (socketSelect H (.start mode (reads₁ ++ later₁)) rounds₁).calls =
      (socketSelect H (.start mode (reads₂ ++ later₂)) rounds₂).calls

/-- The calls show the texts. -/
theorem SameCalls.texts_eq (htext : Text w) {A B : Chunking w}
    (hsame : SameCalls A B) : A.texts = B.texts := by
  obtain ⟨rounds₁, hcuts₁⟩ := exists_cuts A.nonempty
  obtain ⟨rounds₂, hcuts₂⟩ := exists_cuts B.nonempty
  have hcalls := hsame Unit patient () rounds₁ rounds₂ _ _ [] [] hcuts₁ hcuts₂ (.bytes w) (.bytes w)
  rw [calls_eq_iff htext A B patient () hcuts₁ hcuts₂ (.bytes w) (.bytes w)] at hcalls
  rwa [heard_patient, heard_patient] at hcalls

/-- Two ways to cut a text stream lead to the same calls exactly when they put the
same characters together. -/
theorem sameCalls_iff (htext : Text w) (A B : Chunking w) :
    SameCalls A B ↔ A.texts = B.texts := by
  constructor
  · exact SameCalls.texts_eq htext
  · intro htexts σ H mode rounds₁ rounds₂ reads₁ reads₂ later₁ later₂ hcuts₁ hcuts₂ hd₁ hd₂
    rw [calls_eq_iff htext A B H mode hcuts₁ hcuts₂ hd₁ hd₂, htexts]

/-- Two short lines. -/
def twoLines : List UInt8 := [97, lf, 98, lf]

/-- Each line in a chunk of its own. -/
def lineByLine : Chunking twoLines := ⟨[[97, lf], [98, lf]], rfl, by decide⟩

/-- The first line in two chunks. -/
def splitLine : Chunking twoLines := ⟨[[97], [lf], [98, lf]], rfl, by decide⟩

/-- Both lines in one chunk. -/
def atOnce : Chunking twoLines := ⟨[[97, lf, 98, lf]], rfl, by decide⟩

theorem lineByLine_sameCalls_splitLine : SameCalls lineByLine splitLine :=
  (sameCalls_iff (by decide) lineByLine splitLine).mpr (by decide)

/-- In one chunk the two lines are handed over as one. -/
theorem lineByLine_not_sameCalls_atOnce :
    Text twoLines ∧ twoLines.getLast? = some lf ∧ twoLines.length < bufsiz ∧
      ¬ SameCalls lineByLine atOnce := by
  refine ⟨by decide, by decide, by decide, fun hsame => ?_⟩
  exact absurd (hsame.texts_eq (by decide)) (by decide)

end ThreeW3.Input
