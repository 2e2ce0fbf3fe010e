/-
# Input of a session

`socket_read` and `process_input` over the outcomes of read(2), and the rounds of
`socket_select`. A session reads one stream; a round tells what select(2) and
FIONREAD report. The mode handlers are parameters: they see the line buffer and
its length, and may close the session.
-/

import Mathlib.Data.Fin.Basic
import Mathlib.Data.List.Basic
import Mathlib.Logic.Function.Basic

namespace ThreeW3.Input

universe u

/-! ## Bytes and codes -/

/-- Telnet codes of `arpa/telnet.h` that the switch of `process_input` names. -/
abbrev iac : UInt8 := 255
abbrev dont : UInt8 := 254
abbrev doOpt : UInt8 := 253
abbrev wont : UInt8 := 252
abbrev will : UInt8 := 251
abbrev sb : UInt8 := 250
abbrev el : UInt8 := 248
abbrev ec : UInt8 := 247
abbrev ayt : UInt8 := 246
abbrev ip : UInt8 := 244
abbrev brk : UInt8 := 243
abbrev se : UInt8 := 240

/-- The line ends. -/
abbrev lf : UInt8 := 10
abbrev cr : UInt8 := 13

/-- `c > 31 && c < 127`. -/
abbrev Printable (c : UInt8) : Prop := 31 < c ∧ c < 127

/-- The cases of the switch that only log: negotiation codes outside an IAC pair. -/
abbrev Negotiation (c : UInt8) : Prop :=
  c = doOpt ∨ c = dont ∨ c = wont ∨ c = will ∨ c = sb ∨ c = se

/-- The cases of the switch that close the session. -/
abbrev Closing (c : UInt8) : Prop := c = brk ∨ c = ip

/-! ## The player -/

/-- `BUFSIZ` of `stdio.h`. -/
def bufsiz : ℕ := 8192

theorem bufsiz_pos : 0 < bufsiz := by decide

/-- What the code writes to the socket while it reads. -/
inductive Notice
  | yes
  | eraseCharacter
  | truncated
  | prompt
  deriving DecidableEq, Repr

/-- The fields of `player_t` that input processing reads and writes. A full line
has `ibuffer_ptr` at `BUFSIZ`, one past the buffer. -/
structure Player where
  ibuffer : Fin bufsiz → UInt8
  ibufferPtr : ℕ
  ptr_le : ibufferPtr ≤ bufsiz
  lastR : Bool
  lastN : Bool
  ready : Bool
  sent : List Notice

/-- The part of `player_new` that concerns input. -/
def playerNew : Player where
  ibuffer := fun _ => 0
  ibufferPtr := 0
  ptr_le := Nat.zero_le _
  lastR := false
  lastN := false
  ready := false
  sent := []

namespace Player

def say (p : Player) (m : Notice) : Player := { p with sent := p.sent ++ [m] }

/-- `memset(p->ibuffer, '\0', sizeof(p->ibuffer)); p->ibuffer_ptr = 0;` -/
def wipe (p : Player) : Player :=
  { p with ibuffer := fun _ => 0, ibufferPtr := 0, ptr_le := Nat.zero_le _ }

/-- Backspace, DEL and IAC EC. The pointer stays at zero on an empty line. -/
def erase (p : Player) : Player :=
  have hlt : p.ibufferPtr - 1 < bufsiz := by have := p.ptr_le; have := bufsiz_pos; omega
  { p with
    ibuffer := Function.update p.ibuffer ⟨p.ibufferPtr - 1, hlt⟩ 0
    ibufferPtr := p.ibufferPtr - 1
    ptr_le := hlt.le
    sent := p.sent ++ [.eraseCharacter] }

/-- A printable character. A full buffer is emptied, and the character is lost. -/
def append (p : Player) (c : UInt8) : Player :=
  if hlt : p.ibufferPtr < bufsiz then
    { p with
      ibuffer := Function.update p.ibuffer ⟨p.ibufferPtr, hlt⟩ c
      ibufferPtr := p.ibufferPtr + 1
      ptr_le := hlt }
  else p.wipe.say .truncated

/-- The outer switch on a byte that neither closes the session nor is IAC. -/
def receive (p : Player) (c : UInt8) : Player :=
  if Negotiation c then p
  else if c = lf then
    if p.lastR then p else { p with ready := true, lastN := true }
  else if c = cr then
    if p.lastN then p else { p with ready := true, lastR := true }
  else
    let p := { p with lastN := false, lastR := false }
    let p := if c = 8 ∨ c = 127 then p.erase else p
    if Printable c then p.append c else p

/-- The inner switch on the byte after IAC, other than IP. -/
def command (p : Player) (c : UInt8) : Player :=
  if c = ayt then p.say .yes
  else if c = ec then p.erase
  else if c = el then p.wipe
  else p

end Player

/-! ## Reading -/

/-- What one read(2) of one byte does. -/
inductive Outcome
  | byte (c : UInt8)
  | eof
  | again
  | error
  deriving DecidableEq, Repr

/-- `(size_t) -1` on an LP64 platform. -/
def sizeMinusOne : ℕ := 0xffffffffffffffff

/-- `socket_read(fd, &c, 1)`: the returned count, what `c` holds after it, and
the outcomes that are left. It blocks while none is left. -/
def socketRead (c : UInt8) : List Outcome → Option (ℕ × UInt8 × List Outcome)
  | [] => none
  | .byte b :: reads => some (1, b, reads)
  | .eof :: reads => some (0, c, reads)
  | .again :: reads => socketRead c reads
  | .error :: reads => some (sizeMinusOne, c, reads)

theorem socketRead_length {c d : UInt8} {n : ℕ} {reads reads' : List Outcome}
    (hread : socketRead c reads = some (n, d, reads')) : reads'.length < reads.length := by
  induction reads with
  | nil => simp [socketRead] at hread
  | cons r reads ih =>
      cases r with
      | again => exact (ih hread).trans (Nat.lt_succ_self _)
      | byte b =>
          obtain ⟨rfl, rfl, rfl⟩ : 1 = n ∧ b = d ∧ reads = reads' := by simpa [socketRead] using hread
          simp
      | eof =>
          obtain ⟨rfl, rfl, rfl⟩ : 0 = n ∧ c = d ∧ reads = reads' := by simpa [socketRead] using hread
          simp
      | error =>
          obtain ⟨rfl, rfl, rfl⟩ : sizeMinusOne = n ∧ c = d ∧ reads = reads' := by
            simpa [socketRead] using hread
          simp

/-- How `process_input` ends, and the outcomes it has not used. -/
inductive Result
  | returned (p : Player) (reads : List Outcome)
  | closed (p : Player) (reads : List Outcome)
  | blocked (p : Player)

/-- The loop of `process_input`. It tests `size` for being nonzero, and `c` keeps
its value over a read that fails. -/
def processLoop (p : Player) (c : UInt8) (size : ℤ) (reads : List Outcome) : Result :=
  if size = 0 then .returned p reads
  else
    match _hread : socketRead c reads with
    | none => .blocked p
    | some (n, c, reads') =>
      if n ≤ 0 then .closed p reads'
      else if Closing c then .closed p reads'
      else if c = iac then
        match _hcommand : socketRead c reads' with
        | none => .blocked p
        | some (n, c, reads'') =>
          if n ≤ 0 then .closed p reads''
          else if c = ip then .closed p reads''
          else processLoop (p.command c) c (size - 1 - 1) reads''
      else processLoop (p.receive c) c (size - 1) reads'
  termination_by reads.length
  decreasing_by
    · exact (socketRead_length _hcommand).trans (socketRead_length _hread)
    · exact socketRead_length _hread

/-- `process_input`, given what FIONREAD reports (`none` when ioctl(2) fails) and
what the uninitialised `c` holds. -/
def processInput (p : Player) (c : UInt8) (fionread : Option ℤ) (reads : List Outcome) : Result :=
  match fionread with
  | none => .closed p reads
  | some size => if size ≤ 0 then .closed p reads else processLoop p c size reads

/-! ## Rounds -/

/-- The mode handlers over the state they share. A handler may close the session,
and may ask for the end of it. -/
structure Handlers (σ : Type u) where
  fMode : σ → (Fin bufsiz → UInt8) → ℕ → Option σ
  logout : σ → Bool

/-- A call of `f_mode`. -/
structure Call where
  input : Fin bufsiz → UInt8
  length : ℕ

/-- What a round of `socket_select` finds: select(2) is interrupted, fails, or
times out, or the socket is readable. -/
inductive Round
  | interrupted
  | failed
  | idle
  | readable (fionread : Option ℤ) (c : UInt8)

/-- What the thread of a session does: it goes through its rounds, it waits in
read(2), or it has closed the player and is gone. -/
inductive Status
  | running
  | blocked
  | closed
  deriving DecidableEq, Repr

/-- A session: its player, the state of its handlers, the outcomes that its reads
will have, and the calls of `f_mode` so far. -/
structure Session (σ : Type u) where
  player : Player
  mode : σ
  reads : List Outcome
  calls : List Call
  status : Status

variable {σ : Type u}

/-- A new session. -/
def Session.start (mode : σ) (reads : List Outcome) : Session σ :=
  ⟨playerNew, mode, reads, [], .running⟩

/-- The session after `player_close` and `pthread_exit`. -/
def Session.close (s : Session σ) : Session σ := { s with status := .closed }

/-- What `socket_select` does once `f_read` has returned. -/
def Session.dispatch (H : Handlers σ) (s : Session σ) : Session σ :=
  if s.player.ready then
    let call : Call := ⟨s.player.ibuffer, s.player.ibufferPtr⟩
    let s := { s with calls := s.calls ++ [call] }
    match H.fMode s.mode call.input call.length with
    | none => s.close
    | some mode => { s with mode := mode, player := s.player.wipe.say .prompt }
  else s

/-- One round of `socket_select`. -/
def Session.round (H : Handlers σ) (s : Session σ) (r : Round) : Session σ :=
  if s.status ≠ .running then s
  else if H.logout s.mode then s.close
  else
    match r with
    | .interrupted => s
    | .failed => s.close
    | .idle => s
    | .readable fionread c =>
      match processInput s.player c fionread s.reads with
      | .returned p reads => Session.dispatch H { s with player := p, reads := reads }
      | .closed p reads => Session.close { s with player := p, reads := reads }
      | .blocked p => { s with player := p, reads := [], status := .blocked }

/-- The rounds of `socket_select`, one after another. -/
def socketSelect (H : Handlers σ) (s : Session σ) (rounds : List Round) : Session σ :=
  rounds.foldl (Session.round H) s

end ThreeW3.Input
