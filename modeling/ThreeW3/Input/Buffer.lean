/-
# The line buffer as a string

Every edit that `process_input` and `socket_select` make on the line buffer, one after
another. The check before a character goes in lets the pointer reach `BUFSIZ`, and then
no NUL is left in the buffer. Until a character takes the last cell the buffer is a
string that ends at the pointer.
-/

import ThreeW3.Input.Login
import ThreeW3.Lib.Machine

namespace ThreeW3.Input

open Lib

universe u

/-! ## Edits -/

/-- What may change the line buffer: a byte in the outer switch, a command byte after
IAC, and the clearing after a call of `f_mode`. -/
inductive Edit
  | byte (c : UInt8)
  | command (c : UInt8)
  | answered
  deriving DecidableEq

def Player.edit (p : Player) : Edit → Player
  | .byte c => p.receive c
  | .command c => p.command c
  | .answered => p.wipe.say .prompt

/-- The line buffer of a player, edit by edit. -/
def lineBuffer : Machine Player Edit where
  init := playerNew
  enabled := fun _ _ => True
  step := fun p e => some (p.edit e)

/-- The edits of the loop of `process_input`. -/
def loopEdits (c : UInt8) (size : ℤ) (reads : List Outcome) : List Edit :=
  if size = 0 then []
  else
    match _hread : socketRead c reads with
    | none => []
    | some (n, c, reads') =>
      if n ≤ 0 then []
      else if Closing c then []
      else if c = iac then
        match _hcommand : socketRead c reads' with
        | none => []
        | some (n, c, reads'') =>
          if n ≤ 0 then []
          else if c = ip then []
          else .command c :: loopEdits c (size - 1 - 1) reads''
      else .byte c :: loopEdits c (size - 1) reads'
  termination_by reads.length
  decreasing_by
    · exact (socketRead_length _hcommand).trans (socketRead_length _hread)
    · exact socketRead_length _hread

/-- The edits of `process_input`. -/
def inputEdits (c : UInt8) (fionread : Option ℤ) (reads : List Outcome) : List Edit :=
  match fionread with
  | none => []
  | some size => if size ≤ 0 then [] else loopEdits c size reads

section Sessions

variable {σ : Type u} (H : Handlers σ)

/-- The edit of `socket_select` once `f_read` has returned. -/
def dispatchEdits (s : Session σ) : List Edit :=
  if s.player.ready then
    match H.fMode s.mode s.player.ibuffer s.player.ibufferPtr with
    | none => []
    | some _ => [.answered]
  else []

/-- The edits of one round. -/
def roundEdits (s : Session σ) (r : Round) : List Edit :=
  if s.status ≠ .running then []
  else if H.logout s.mode then []
  else
    match r with
    | .interrupted => []
    | .failed => []
    | .idle => []
    | .readable fionread c =>
      inputEdits c fionread s.reads ++
        match processInput s.player c fionread s.reads with
        | .returned p reads => dispatchEdits H { s with player := p, reads := reads }
        | .closed _ _ => []
        | .blocked _ => []

/-- The edits of the rounds of `socket_select`. -/
def edits (s : Session σ) : List Round → List Edit
  | [] => []
  | r :: rounds => roundEdits H s r ++ edits (s.round H r) rounds

end Sessions

@[simp]
theorem lineBuffer_step (p : Player) (e : Edit) : lineBuffer.step p e = some (p.edit e) := rfl

/-- One iteration. -/
theorem loopEdits_of_ne_zero {c : UInt8} {size : ℤ} {reads : List Outcome} (hsize : size ≠ 0) :
    loopEdits c size reads =
      match socketRead c reads with
      | none => []
      | some (n, c, reads') =>
        if n ≤ 0 then []
        else if Closing c then []
        else if c = iac then
          match socketRead c reads' with
          | none => []
          | some (n, c, reads'') =>
            if n ≤ 0 then []
            else if c = ip then []
            else .command c :: loopEdits c (size - 1 - 1) reads''
        else .byte c :: loopEdits c (size - 1) reads' := by
  rw [loopEdits, if_neg hsize]
  generalize socketRead c reads = r
  rcases r with _ | ⟨n, d, rest⟩
  · rfl
  · dsimp only
    generalize socketRead d rest = r
    cases r <;> rfl

/-- The loop changes the player by its edits. -/
theorem exec_loopEdits (p : Player) (c : UInt8) (size : ℤ) (reads : List Outcome) :
    lineBuffer.exec p (loopEdits c size reads) = some (processLoop p c size reads).player := by
  fun_induction processLoop p c size reads with
  | case1 =>
      rw [loopEdits, if_pos rfl]
      rfl
  | case2 _ _ _ _ hsize hread =>
      rw [loopEdits_of_ne_zero hsize, hread]
      rfl
  | case3 _ _ _ _ hsize _ _ _ hread hn =>
      rw [loopEdits_of_ne_zero hsize, hread]
      simp [hn, Result.player]
  | case4 _ _ _ _ hsize _ _ _ hread hn hclose =>
      rw [loopEdits_of_ne_zero hsize, hread]
      simp [hn, hclose, Result.player]
  | case5 _ _ _ _ hsize =>
      rename_i hn hread hclose hcommand
      rw [loopEdits_of_ne_zero hsize, hread]
      simp [hn, hclose, hcommand, Result.player]
  | case6 _ _ _ _ hsize =>
      rename_i hn' hread hclose hcommand
      rw [loopEdits_of_ne_zero hsize, hread]
      simp [hn', hclose, hcommand, Result.player]
  | case7 _ _ _ _ hsize =>
      rename_i hn' hread hclose hcommand
      rw [loopEdits_of_ne_zero hsize, hread]
      simp [hn', hclose, hcommand, Result.player]
  | case8 _ _ _ _ hsize =>
      rename_i hn _ _ _ hn' hip hread hclose hcommand ih
      rw [loopEdits_of_ne_zero hsize, hread]
      simp only [if_neg hn, if_neg hclose, if_true, hcommand, if_neg hn', if_neg hip]
      rw [Machine.exec_cons_of_step (lineBuffer_step _ _)]
      exact ih
  | case9 _ _ _ _ hsize _ _ _ hread hn hclose hiac ih =>
      rw [loopEdits_of_ne_zero hsize, hread]
      simp only [if_neg hn, if_neg hclose, if_neg hiac]
      rw [Machine.exec_cons_of_step (lineBuffer_step _ _)]
      exact ih

/-- `process_input` changes the player by its edits. -/
theorem exec_inputEdits (p : Player) (c : UInt8) (fionread : Option ℤ) (reads : List Outcome) :
    lineBuffer.exec p (inputEdits c fionread reads) =
      some (processInput p c fionread reads).player := by
  cases fionread with
  | none => rfl
  | some size =>
      rw [inputEdits, processInput]
      split_ifs
      · rfl
      · exact exec_loopEdits p c size reads

section Sessions

variable {σ : Type u} {H : Handlers σ}

theorem exec_dispatchEdits (s : Session σ) :
    lineBuffer.exec s.player (dispatchEdits H s) = some (s.dispatch H).player := by
  rw [dispatchEdits, Session.dispatch]
  split_ifs
  · dsimp only
    cases H.fMode s.mode s.player.ibuffer s.player.ibufferPtr <;> rfl
  · rfl

/-- A round changes the player by its edits. -/
theorem exec_roundEdits (s : Session σ) (r : Round) :
    lineBuffer.exec s.player (roundEdits H s r) = some (s.round H r).player := by
  rw [roundEdits.eq_def, Session.round.eq_def]
  split_ifs
  · rfl
  · rfl
  · cases r with
    | interrupted | failed | idle => rfl
    | readable fionread c =>
        dsimp only
        rw [Machine.exec_append, exec_inputEdits, Option.bind_some]
        cases processInput s.player c fionread s.reads with
        | returned p reads => exact exec_dispatchEdits { s with player := p, reads := reads }
        | closed p reads => rfl
        | blocked p => rfl

/-- The rounds change the player by their edits. -/
theorem exec_edits (s : Session σ) (rounds : List Round) :
    lineBuffer.exec s.player (edits H s rounds) = some (socketSelect H s rounds).player := by
  induction rounds generalizing s with
  | nil => rfl
  | cons r rounds ih =>
      rw [edits, Machine.exec_append, exec_roundEdits, Option.bind_some]
      exact ih _

end Sessions

/-! ## The string in the buffer -/

/-- The buffer is a string: characters up to the pointer, and NULs from there. -/
structure IsCString (p : Player) : Prop where
  ptr_lt : p.ibufferPtr < bufsiz
  printable : ∀ i : Fin bufsiz, (i : ℕ) < p.ibufferPtr → Printable (p.ibuffer i)
  nul : ∀ i : Fin bufsiz, p.ibufferPtr ≤ i → p.ibuffer i = 0

/-- A NUL ends the text that `f_mode` gets. -/
def Call.Terminated (call : Call) : Prop := ∃ i, call.input i = 0

/-- The edit puts a character into the last cell of the buffer. -/
def TakesLastCell (p : Player) : Edit → Prop
  | .byte c => Printable c ∧ p.ibufferPtr = bufsiz - 1
  | .command _ => False
  | .answered => False

variable {p : Player}

theorem isCString_iff : IsCString p ↔ p.ibufferPtr < bufsiz ∧ ∃ w, Typed p w := by
  constructor
  · intro h
    have hlength : ((List.ofFn p.ibuffer).take p.ibufferPtr).length = p.ibufferPtr := by
      rw [List.length_take, List.length_ofFn]
      exact min_eq_left p.ptr_le
    refine ⟨h.ptr_lt, (List.ofFn p.ibuffer).take p.ibufferPtr, ?_, hlength.symm, ?_⟩
    · funext i
      rw [padded]
      rcases Nat.lt_or_ge i p.ibufferPtr with hlow | hhigh
      · rw [List.getD_eq_getElem _ _ (by rwa [hlength]), List.getElem_take, List.getElem_ofFn]
      · rw [List.getD_eq_default _ _ (by rwa [hlength]), h.nul i hhigh]
    · intro c hc
      obtain ⟨i, hi, rfl⟩ := List.mem_iff_getElem.mp hc
      rw [List.getElem_take, List.getElem_ofFn]
      exact h.printable _ (by rwa [hlength] at hi)
  · rintro ⟨hptr, w, hw⟩
    refine ⟨hptr, fun i hi => ?_, fun i hi => ?_⟩
    · rw [hw.ibufferPtr] at hi
      rw [hw.ibuffer, padded, List.getD_eq_getElem _ _ hi]
      exact hw.chars _ (List.getElem_mem hi)
    · rw [hw.ibufferPtr] at hi
      rw [hw.ibuffer, padded, List.getD_eq_default _ _ hi]

theorem IsCString.new : IsCString playerNew := isCString_iff.mpr ⟨bufsiz_pos, [], .new⟩

/-- The NUL that ends the text stands at the pointer. -/
theorem IsCString.terminated (h : IsCString p) : Call.Terminated ⟨p.ibuffer, p.ibufferPtr⟩ :=
  ⟨⟨p.ibufferPtr, h.ptr_lt⟩, h.nul _ le_rfl⟩

/-- Every edit leaves a text in the buffer. -/
theorem Typed.edit {w : List UInt8} (h : Typed p w) (e : Edit) : ∃ w, Typed (p.edit e) w := by
  cases e with
  | byte c => exact h.receive c
  | command c => exact h.command c
  | answered => exact ⟨[], (wipe p).say .prompt⟩

theorem ptr_append (c : UInt8) :
    (p.append c).ibufferPtr = if p.ibufferPtr < bufsiz then p.ibufferPtr + 1 else 0 := by
  rw [Player.append]
  split_ifs <;> rfl

theorem ptr_receive_le {c : UInt8} (hc : ¬ Printable c) :
    (p.receive c).ibufferPtr ≤ p.ibufferPtr := by
  unfold Player.receive
  split_ifs
  all_goals first
    | exact le_rfl
    | exact Nat.sub_le _ _

theorem ptr_command_le (c : UInt8) : (p.command c).ibufferPtr ≤ p.ibufferPtr := by
  unfold Player.command
  split_ifs
  · exact le_rfl
  · exact Nat.sub_le _ _
  · exact Nat.zero_le _
  · exact le_rfl

/-- An edit keeps the string unless it takes the last cell. -/
theorem IsCString.edit (h : IsCString p) {e : Edit} (he : ¬ TakesLastCell p e) :
    IsCString (p.edit e) := by
  obtain ⟨hptr, w, hw⟩ := isCString_iff.mp h
  refine isCString_iff.mpr ⟨?_, hw.edit e⟩
  cases e with
  | byte c =>
      by_cases hc : Printable c
      · have hroom : p.ibufferPtr ≠ bufsiz - 1 := fun hlast => he ⟨hc, hlast⟩
        rw [Player.edit, Player.receive_printable hc, ptr_append]
        split_ifs <;> dsimp only <;> omega
      · exact lt_of_le_of_lt (ptr_receive_le hc) hptr
  | command c => exact lt_of_le_of_lt (ptr_command_le c) hptr
  | answered => exact bufsiz_pos

/-- A character in the last cell leaves the pointer past the buffer. -/
theorem not_isCString_of_takesLastCell {e : Edit} (he : TakesLastCell p e) :
    ¬ IsCString (p.edit e) := by
  intro h
  cases e with
  | byte c =>
      obtain ⟨hc, hlast⟩ := he
      have hlt := h.ptr_lt
      rw [Player.edit, Player.receive_printable hc, ptr_append] at hlt
      dsimp only at hlt
      have := bufsiz_pos
      rw [if_pos (by omega)] at hlt
      omega
  | command c => exact he
  | answered => exact he

/-! ## Runs -/

section Runs

variable {σ : Type u} {H : Handlers σ} {s : Session σ}

/-- No character takes the last cell. -/
abbrev NoneTakesLastCell (p : Player) (es : List Edit) : Prop :=
  lineBuffer.AllSteps (fun p e => ¬ TakesLastCell p e) p es

theorem IsCString.exec (h : IsCString p) {q : Player} {es : List Edit}
    (hes : NoneTakesLastCell p es) (hexec : lineBuffer.exec p es = some q) : IsCString q := by
  have hvalid : lineBuffer.Valid p es :=
    Machine.allSteps_of_forall (fun _ _ _ => trivial) p
  have hall : lineBuffer.AllStates IsCString p es :=
    Machine.allStates_of_keeps (fun _ _ _ hs _ he ht => Option.some.inj ht ▸ hs.edit he)
      h hvalid hes
  exact hall.last hexec

/-- `f_mode` gets a terminated text if the buffer holds a string when `f_read` returns. -/
theorem calls_dispatch_terminated (h : IsCString s.player) :
    ∀ call ∈ (s.dispatch H).calls, call ∈ s.calls ∨ call.Terminated := by
  intro call hcall
  rw [Session.dispatch] at hcall
  split_ifs at hcall
  · have hcalls : call ∈ s.calls ++ [⟨s.player.ibuffer, s.player.ibufferPtr⟩] := by
      dsimp only at hcall
      cases hmode : H.fMode s.mode s.player.ibuffer s.player.ibufferPtr with
      | none => simpa [hmode, Session.close] using hcall
      | some mode => simpa [hmode] using hcall
    rcases List.mem_append.mp hcalls with hcall | hcall
    · exact .inl hcall
    · rw [List.mem_singleton.mp hcall]
      exact .inr h.terminated
  · exact .inl hcall

theorem calls_round_terminated (h : IsCString s.player) {r : Round}
    (hes : NoneTakesLastCell s.player (roundEdits H s r)) :
    ∀ call ∈ (s.round H r).calls, call ∈ s.calls ∨ call.Terminated := by
  rw [roundEdits.eq_def] at hes
  rw [Session.round.eq_def]
  split_ifs at hes ⊢
  · exact fun _ hcall => .inl hcall
  · exact fun _ hcall => .inl hcall
  · cases r with
    | interrupted | failed | idle => exact fun _ hcall => .inl hcall
    | readable fionread c =>
        have hinput := ((Machine.allSteps_append ..).mp hes).1
        have hq := h.exec hinput (exec_inputEdits s.player c fionread s.reads)
        dsimp only
        cases hresult : processInput s.player c fionread s.reads with
        | returned q reads =>
            rw [hresult] at hq
            exact calls_dispatch_terminated (s := { s with player := q, reads := reads }) hq
        | closed q reads => exact fun _ hcall => .inl hcall
        | blocked q => exact fun _ hcall => .inl hcall

theorem calls_terminated (h : IsCString s.player) {rounds : List Round}
    (hes : NoneTakesLastCell s.player (edits H s rounds)) :
    ∀ call ∈ (socketSelect H s rounds).calls, call ∈ s.calls ∨ call.Terminated := by
  induction rounds generalizing s with
  | nil => exact fun _ hcall => .inl hcall
  | cons r rounds ih =>
      obtain ⟨hround, hrest⟩ := (Machine.allSteps_append ..).mp hes
      have hplayer := exec_roundEdits (H := H) s r
      intro call hcall
      rcases ih (h.exec hround hplayer) (hrest _ hplayer) call hcall with hcall | hcall
      · exact calls_round_terminated h hround call hcall
      · exact .inr hcall

end Runs

/-- The string that the last edit leaves. -/
theorem isCString_last {σ : Type u} {H : Handlers σ} {mode : σ} {reads : List Outcome}
    {rounds : List Round}
    (h : lineBuffer.AllStates IsCString playerNew (edits H (.start mode reads) rounds)) :
    IsCString (socketSelect H (.start mode reads) rounds).player :=
  h.last (exec_edits (.start mode reads) rounds)

/-- In a session over any stream and any rounds, the buffer is a string after every edit,
and `f_mode` gets terminated texts, exactly if no character takes the last cell. -/
theorem isCString_iff_noneTakesLastCell {σ : Type u} (H : Handlers σ) (mode : σ)
    (reads : List Outcome) (rounds : List Round) :
    (lineBuffer.AllStates IsCString playerNew (edits H (.start mode reads) rounds) ∧
      ∀ call ∈ (socketSelect H (.start mode reads) rounds).calls, call.Terminated) ↔
    lineBuffer.AllSteps (fun p e => ¬ TakesLastCell p e) playerNew
      (edits H (.start mode reads) rounds) := by
  have hvalid : lineBuffer.Valid playerNew (edits H (.start mode reads) rounds) :=
    Machine.allSteps_of_forall (fun _ _ _ => trivial) _
  have hstates : ((∃ q, lineBuffer.exec playerNew (edits H (.start mode reads) rounds) = some q) ∧
      lineBuffer.AllStates IsCString playerNew (edits H (.start mode reads) rounds)) ↔
      NoneTakesLastCell playerNew (edits H (.start mode reads) rounds) := by
    refine Machine.run_iff_guard (fun _ h => h) ?_ ?_ .new hvalid
    · exact fun q e hq _ he => ⟨_, rfl, hq.edit he⟩
    · intro q e _ _ he t ht
      obtain rfl : q.edit e = t := Option.some.inj ht
      exact not_isCString_of_takesLastCell (not_not.mp he)
  constructor
  · rintro ⟨hall, -⟩
    exact hstates.mp ⟨⟨_, exec_edits (.start mode reads) rounds⟩, hall⟩
  · intro hes
    refine ⟨(hstates.mpr hes).2, fun call hcall => ?_⟩
    rcases calls_terminated (s := .start mode reads) .new hes call hcall with hcall | hcall
    · simp [Session.start] at hcall
    · exact hcall

/-- As many characters as the buffer has cells leave the pointer past it. -/
theorem not_isCString_of_full {a : List UInt8} (hchars : ∀ c ∈ a, Printable c)
    (hlength : a.length = bufsiz) :
    ¬ IsCString (socketSelect patient (.start () (a.map .byte))
      [.readable (some (a.length : ℤ)) 0]).player := by
  obtain ⟨q, hscan, hholds⟩ := Holds.new.scan_text (a := a) fun c hc => .inl (hchars c hc)
  have hprint : printables a = a :=
    List.filter_eq_self.mpr fun c hc => by simpa using hchars c hc
  have hptr : q.ibufferPtr = bufsiz := by
    have hkept : ([] : List UInt8) = kept [] := rfl
    rw [hholds.ibufferPtr, hprint, hkept, foldl_put_kept, length_kept, List.nil_append, hlength]
    exact Nat.mod_eq_of_lt (Nat.lt_succ_self _)
  have hready : q.ready = false := by
    rw [hholds.ready_eq, Bool.false_or, hasLineEnd, List.any_eq_false]
    intro c hc hend
    have hc := hchars c hc
    rcases of_decide_eq_true hend with rfl | rfl <;> revert hc <;> decide
  have hplayer : (socketSelect patient (.start () (a.map .byte))
      [.readable (some (a.length : ℤ)) 0]).player = q := by
    have hchunk := round_chunk (H := patient) (s := .start () (a.map .byte)) rfl
      Bool.false_ne_true (List.ne_nil_of_length_pos (hlength ▸ bufsiz_pos)) (.bytes a)
      (List.append_nil _).symm hscan 0
    rw [socketSelect_cons, hchunk, dispatch_not_ready hready]
    rfl
  intro h
  have hlt := h.ptr_lt
  rw [hplayer, hptr] at hlt
  exact lt_irrefl _ hlt

/-- As many characters as the buffer has cells. -/
@[irreducible] def fullLine : List UInt8 := List.replicate bufsiz 97

/-- A full line in one chunk leaves no NUL in the buffer. -/
theorem fullLine_not_isCString :
    ¬ (lineBuffer.AllStates IsCString playerNew
        (edits patient (.start () (fullLine.map .byte))
          [.readable (some (fullLine.length : ℤ)) 0]) ∧
      ∀ call ∈ (socketSelect patient (.start () (fullLine.map .byte))
        [.readable (some (fullLine.length : ℤ)) 0]).calls, call.Terminated) := by
  rintro ⟨hall, -⟩
  have hchars : ∀ c ∈ fullLine, Printable c := fun c hc => by
    rw [fullLine] at hc
    rw [List.eq_of_mem_replicate hc]
    decide
  have hlength : fullLine.length = bufsiz := by rw [fullLine, List.length_replicate]
  exact not_isCString_of_full hchars hlength (isCString_last hall)

end ThreeW3.Input
