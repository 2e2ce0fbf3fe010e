/-
# Login and commands

The two mode handlers of a session: `login_get_name`, which takes a name and lets the
player in, and `process_command`, which looks the text up among the registered commands.
The hash table of the commands is taken as the map of what `command_init` registers.
-/

import ThreeW3.Input.Editing

namespace ThreeW3.Input

/-! ## The handlers -/

/-- The handler that `f_mode` points to. -/
inductive Mode
  | loginGetName
  | processCommand
  deriving DecidableEq

/-- What the handlers write to the socket. -/
inductive Message
  | namePrompt
  | nameTooLong
  | nameNotAlphabetic
  | notFound (input : List UInt8)
  deriving DecidableEq

/-- The text that is written. -/
def Message.text : Message → String
  | namePrompt => "Please enter your name: "
  | nameTooLong => "Username too long.\n"
  | nameNotAlphabetic => "Usernames may only contain alphabetic characters.\n"
  | notFound input =>
      String.ofList ((input.take 63).map fun c => Char.ofNat c.toNat) ++ ": command not found\n"

/-- The fields of `player_t` that the handlers set. -/
structure Login where
  fMode : Mode
  loggedIn : Bool
  name : Fin bufsiz → UInt8
  said : List Message

/-- `player_new`, and `f_mode` as the accept loop sets it. -/
def loginNew : Login := ⟨.loginGetName, false, fun _ => 0, []⟩

def Login.say (m : Login) (ms : List Message) : Login := { m with said := m.said ++ ms }

/-- `isalpha` in the C locale. -/
abbrev IsAlpha (c : UInt8) : Prop := (65 ≤ c ∧ c ≤ 90) ∨ (97 ≤ c ∧ c ≤ 122)

/-- The bytes before the first NUL. -/
def cString (input : Fin bufsiz → UInt8) : List UInt8 := (List.ofFn input).takeWhile (· ≠ 0)

/-- `strncpy`, from a buffer of the same size. -/
def strncpy (dst src : Fin bufsiz → UInt8) (n : ℕ) : Fin bufsiz → UInt8 := fun i =>
  if (i : ℕ) < n then (if ∃ j ≤ i, src j = 0 then 0 else src i) else dst i

/-- `login_get_name`. -/
def loginGetName (m : Login) (input : Fin bufsiz → UInt8) (length : ℕ) : Login :=
  if length ≤ 0 then m.say [.namePrompt]
  else if length > 32 then m.say [.nameTooLong, .namePrompt]
  else if (cString input).any (fun c => !decide (IsAlpha c)) then
    m.say [.nameNotAlphabetic, .namePrompt]
  else { m with
    name := strncpy m.name input length
    fMode := .processCommand
    loggedIn := true }

/-- The handlers that `command_init` registers. -/
inductive Command
  | who
  | twho
  | quit
  deriving DecidableEq

/-- What `command_init` puts into `command_hash`: `who`, `twho`, `quit` and `exit`. -/
def commandHash : List (List UInt8 × Command) :=
  [([119, 104, 111], .who), ([116, 119, 104, 111], .twho), ([113, 117, 105, 116], .quit),
    ([101, 120, 105, 116], .quit)]

/-- `hash_find(command_hash, input, length, &command)`. -/
def findCommand (input : Fin bufsiz → UInt8) (length : ℕ) : Option Command :=
  commandHash.lookup ((List.ofFn input).take length)

/-- A command handler, as far as the login goes. `command_quit` closes the session. -/
def Command.run (m : Login) : Command → Option Login
  | who => some m
  | twho => some m
  | quit => none

/-- `process_command`: the command handler that it runs, and what becomes of the session. -/
def processCommand (m : Login) (input : Fin bufsiz → UInt8) (length : ℕ) :
    Option Command × Option Login :=
  if length ≤ 0 then (none, some m)
  else
    match findCommand input length with
    | some command => (some command, command.run m)
    | none => (none, some (m.say [.notFound (cString input)]))

/-- The call of `f_mode`. -/
def Login.callMode (m : Login) (call : Call) : Option Command × Option Login :=
  match m.fMode with
  | .loginGetName => (none, some (loginGetName m call.input call.length))
  | .processCommand => processCommand m call.input call.length

/-- The handlers of the server. Nothing sets `LOGOUT`. -/
def server : Handlers Login where
  fMode := fun m input length => (m.callMode ⟨input, length⟩).2
  logout := fun _ => false

/-- The command handlers that are run in these rounds, with the calls that run them. -/
def commandsRun (s : Session Login) : List Round → List (Call × Command)
  | [] => []
  | r :: rounds =>
      let t := s.round server r
      (t.calls.drop s.calls.length).filterMap
          (fun call => (s.mode.callMode call).1.map fun command => (call, command)) ++
        commandsRun t rounds

/-! ## Names -/

/-- One to 32 letters. -/
structure IsName (w : List UInt8) : Prop where
  pos : 0 < w.length
  le : w.length ≤ 32
  alpha : ∀ c ∈ w, IsAlpha c

/-- `login_get_name` takes the text of the call. -/
def Call.Accepted (call : Call) : Prop :=
  0 < call.length ∧ call.length ≤ 32 ∧ ∀ c ∈ cString call.input, IsAlpha c

/-- The name of the player is the text of the first call that was accepted. -/
def Named (s : Session Login) : Prop :=
  ∃ before w after, s.calls = before ++ .ofText w :: after ∧ (∀ call ∈ before, ¬ call.Accepted) ∧
    (Call.ofText w).Accepted ∧ IsName w ∧ s.mode.name = padded w

/-! ## The buffer holds a text -/

/-- The buffer holds printable characters, up to the pointer, and zeros. -/
structure Typed (p : Player) (w : List UInt8) : Prop where
  ibuffer : p.ibuffer = padded w
  ibufferPtr : p.ibufferPtr = w.length
  chars : ∀ c ∈ w, Printable c

namespace Typed

variable {p : Player} {w : List UInt8}

theorem new : Typed playerNew [] := ⟨by rfl, rfl, by simp⟩

theorem say (h : Typed p w) (m : Notice) : Typed (p.say m) w := ⟨h.ibuffer, h.ibufferPtr, h.chars⟩

theorem wipe (p : Player) : Typed p.wipe [] := ⟨by rfl, rfl, by simp⟩

theorem length_le (h : Typed p w) : w.length ≤ bufsiz := h.ibufferPtr ▸ p.ptr_le

/-- The last character goes, if there is one. -/
theorem erase (h : Typed p w) : Typed p.erase w.dropLast := by
  obtain ⟨hbuffer, hptr⟩ := erase_padded h.ibuffer h.ibufferPtr
  exact ⟨hbuffer, hptr, fun c hc => h.chars c (List.dropLast_subset w hc)⟩

/-- A printable character goes in, or the buffer is emptied. -/
theorem append (h : Typed p w) {c : UInt8} (hc : Printable c) : ∃ w, Typed (p.append c) w := by
  rw [Player.append]
  split_ifs with hroom
  · have hlt : w.length < bufsiz := h.ibufferPtr ▸ hroom
    refine ⟨w ++ [c], ?_, by simp [h.ibufferPtr], ?_⟩
    · simpa only [h.ibuffer, h.ibufferPtr] using padded_append hlt c
    · intro d hd
      rcases List.mem_append.mp hd with hd | hd
      · exact h.chars d hd
      · rwa [List.mem_singleton.mp hd]
  · exact ⟨[], (wipe p).say .truncated⟩

theorem receive (h : Typed p w) (c : UInt8) : ∃ w, Typed (p.receive c) w := by
  have hflags : ∀ lastR lastN ready, Typed { p with lastR, lastN, ready } w :=
    fun _ _ _ => ⟨h.ibuffer, h.ibufferPtr, h.chars⟩
  unfold Player.receive
  split_ifs with hneg hlf hlast hcr hlast hrub hprint hprint
  · exact ⟨w, h⟩
  · exact ⟨w, h⟩
  · exact ⟨w, hflags _ _ _⟩
  · exact ⟨w, h⟩
  · exact ⟨w, hflags _ _ _⟩
  · exact (hflags _ _ _).erase.append hprint
  · exact ⟨_, (hflags _ _ _).erase⟩
  · exact (hflags _ _ _).append hprint
  · exact ⟨w, hflags _ _ _⟩

theorem command (h : Typed p w) (c : UInt8) : ∃ w, Typed (p.command c) w := by
  unfold Player.command
  split_ifs
  · exact ⟨w, h.say .yes⟩
  · exact ⟨_, h.erase⟩
  · exact ⟨[], wipe p⟩
  · exact ⟨w, h⟩

/-- `process_input` leaves a text in the buffer, however it ends. -/
theorem processLoop {c : UInt8} {size : ℤ} {reads : List Outcome} (h : Typed p w) :
    match processLoop p c size reads with
    | .returned q _ => ∃ w, Typed q w
    | .closed q _ => ∃ w, Typed q w
    | .blocked q => ∃ w, Typed q w := by
  fun_induction Input.processLoop p c size reads generalizing w with
  | case1 | case2 | case3 | case4 | case5 | case6 | case7 => exact ⟨w, h⟩
  | case8 =>
      rename_i ih
      obtain ⟨w, hw⟩ := h.command _
      exact ih hw
  | case9 =>
      rename_i ih
      obtain ⟨w, hw⟩ := h.receive _
      exact ih hw

end Typed

/-! ## The handlers on a text -/

theorem ofFn_padded {w : List UInt8} (hle : w.length ≤ bufsiz) :
    List.ofFn (padded w) = w ++ List.replicate (bufsiz - w.length) 0 := by
  apply List.ext_getElem
  · simp only [List.length_ofFn, List.length_append, List.length_replicate]
    omega
  · intro i hi hi'
    rw [List.getElem_ofFn, padded]
    rcases Nat.lt_or_ge i w.length with hlow | hhigh
    · rw [List.getD_eq_getElem _ _ hlow, List.getElem_append_left hlow]
    · rw [List.getD_eq_default _ _ hhigh, List.getElem_append_right hhigh, List.getElem_replicate]

/-- A text of printable characters. -/
structure Printed (w : List UInt8) : Prop where
  length_le : w.length ≤ bufsiz
  chars : ∀ c ∈ w, Printable c

theorem Typed.printed {p : Player} {w : List UInt8} (h : Typed p w) : Printed w :=
  ⟨h.length_le, h.chars⟩

namespace Printed

variable {w : List UInt8} {m : Login}

theorem ne_zero (h : Printed w) {c : UInt8} (hc : c ∈ w) : c ≠ 0 := by
  rintro rfl
  exact absurd (h.chars 0 hc) (by decide)

/-- The text has no NUL in it, so the scan and the length agree. -/
theorem cString_padded (h : Printed w) : cString (padded w) = w := by
  have hzeros : ∀ n, (List.replicate n (0 : UInt8)).takeWhile (· ≠ 0) = [] := by
    intro n
    cases n <;> simp [List.replicate_succ]
  rw [cString, ofFn_padded h.length_le, List.takeWhile_append_of_pos, hzeros, List.append_nil]
  exact fun c hc => decide_eq_true (h.ne_zero hc)

theorem take_padded (h : Printed w) : (List.ofFn (padded w)).take w.length = w := by
  rw [ofFn_padded h.length_le, List.take_left]

theorem strncpy_padded (h : Printed w) : strncpy (fun _ => 0) (padded w) w.length = padded w := by
  funext i
  rw [strncpy]
  split_ifs with hi hzero
  · obtain ⟨j, hj, hj0⟩ := hzero
    have hjlt : (j : ℕ) < w.length := lt_of_le_of_lt hj hi
    rw [padded, List.getD_eq_getElem _ _ hjlt] at hj0
    exact absurd hj0 (h.ne_zero (List.getElem_mem hjlt))
  · rfl
  · rw [padded, List.getD_eq_default _ _ (Nat.le_of_not_lt hi)]

/-- A text is accepted exactly if it is a name. -/
theorem accepted_iff (h : Printed w) : (Call.ofText w).Accepted ↔ IsName w := by
  have hcString : cString (Call.ofText w).input = w := h.cString_padded
  constructor
  · rintro ⟨hpos, hle, halpha⟩
    exact ⟨hpos, hle, fun c hc => halpha c (by rwa [hcString])⟩
  · intro hname
    exact ⟨hname.pos, hname.le, fun c hc => hname.alpha c (by rwa [hcString] at hc)⟩

end Printed

/-- `login_get_name` lets in exactly the players whose text it accepts. -/
theorem loginGetName_eq (m : Login) (call : Call) :
    (call.Accepted → loginGetName m call.input call.length =
      { m with
        name := strncpy m.name call.input call.length
        fMode := .processCommand
        loggedIn := true }) ∧
    (¬ call.Accepted → ∃ said, loginGetName m call.input call.length = m.say said) := by
  have hany : (cString call.input).any (fun c => !decide (IsAlpha c)) = true ↔
      ¬ ∀ c ∈ cString call.input, IsAlpha c := by
    simp only [List.any_eq_true, Bool.not_eq_true', decide_eq_false_iff_not]
    constructor
    · rintro ⟨c, hc, hnot⟩ hall
      exact hnot (hall c hc)
    · intro hnot
      by_contra hnone
      exact hnot fun c hc => by_contra fun hcnot => hnone ⟨c, hc, hcnot⟩
  constructor
  · rintro ⟨hpos, hle, halpha⟩
    rw [loginGetName, if_neg (by omega), if_neg (by omega), if_neg (by rw [hany]; exact not_not.mpr halpha)]
  · intro hnot
    rw [loginGetName]
    split_ifs with hzero hlong hother
    · exact ⟨_, rfl⟩
    · exact ⟨_, rfl⟩
    · exact ⟨_, rfl⟩
    · rw [hany, not_not] at hother
      exact absurd ⟨by omega, by omega, hother⟩ hnot

/-- `process_command` changes nothing of the login, and runs the handler of the key that
the text is. -/
theorem processCommand_text {w : List UInt8} (h : Printed w) (m : Login) :
    (∀ m', (processCommand m (padded w) w.length).2 = some m' →
      m'.fMode = m.fMode ∧ m'.loggedIn = m.loggedIn ∧ m'.name = m.name) ∧
    ∀ command, (processCommand m (padded w) w.length).1 = some command → (w, command) ∈ commandHash := by
  rw [processCommand]
  split_ifs
  · simp
  · split
    · next command hfind =>
        constructor
        · intro m' hm'
          cases command <;> simp [Command.run] at hm' <;> simp [hm'.symm]
        · intro command' hcommand
          rw [findCommand, h.take_padded] at hfind
          obtain rfl : command = command' := by simpa using hcommand
          obtain ⟨before, after, hsplit, -⟩ := List.lookup_eq_some_iff.mp hfind
          rw [hsplit]
          simp
    · constructor
      · intro m' hm'
        obtain rfl : m.say [.notFound (cString (padded w))] = m' := by simpa using hm'
        exact ⟨rfl, rfl, rfl⟩
      · intro command hcommand
        cases hcommand

/-! ## The gate -/

variable {s t : Session Login}

/-- What holds of a session of the server at the top of its loop. -/
structure Gate (s : Session Login) : Prop where
  typed : ∃ w, Typed s.player w
  mode_iff : s.mode.fMode = .processCommand ↔ s.mode.loggedIn = true
  outside : s.mode.loggedIn = false →
    (s.mode.name = fun _ => 0) ∧ ∀ call ∈ s.calls, ¬ call.Accepted
  inside : s.mode.loggedIn = true → Named s

theorem Gate.start (reads : List Outcome) : Gate (.start loginNew reads) where
  typed := ⟨[], .new⟩
  mode_iff := by simp [Session.start, loginNew]
  outside := by simp [Session.start, loginNew]
  inside := by simp [Session.start, loginNew]

theorem Gate.fMode_of_outside (h : Gate s) (hout : s.mode.loggedIn = false) :
    s.mode.fMode = .loginGetName := by
  cases hmode : s.mode.fMode with
  | loginGetName => rfl
  | processCommand => simp [h.mode_iff.mp hmode] at hout

/-- What a round does to a session: it may call the handler once, on the text that the
buffer holds. -/
structure Rounded (s t : Session Login) : Prop where
  typed : ∃ w, Typed t.player w
  effect : (t.calls = s.calls ∧ t.mode = s.mode) ∨
    ∃ w, Printed w ∧ t.calls = s.calls ++ [.ofText w] ∧
      t.mode = (s.mode.callMode (.ofText w)).2.getD s.mode

theorem rounded_dispatch {w : List UInt8} (h : Typed s.player w) : Rounded s (s.dispatch server) := by
  rw [Session.dispatch]
  split_ifs
  · have hcall : (⟨s.player.ibuffer, s.player.ibufferPtr⟩ : Call) = .ofText w := by
      rw [h.ibuffer, h.ibufferPtr]
      rfl
    simp only [hcall, server]
    cases hmode : (s.mode.callMode (.ofText w)).2 with
    | none => exact ⟨⟨w, h⟩, .inr ⟨w, h.printed, rfl, by simp [hmode, Session.close]⟩⟩
    | some mode =>
        exact ⟨⟨[], (Typed.wipe s.player).say .prompt⟩, .inr ⟨w, h.printed, rfl, by simp [hmode]⟩⟩
  · exact ⟨⟨w, h⟩, .inl ⟨rfl, rfl⟩⟩

theorem rounded_round {w : List UInt8} (h : Typed s.player w) (r : Round) :
    Rounded s (s.round server r) := by
  have hsame : Rounded s s := ⟨⟨w, h⟩, .inl ⟨rfl, rfl⟩⟩
  have hclose : Rounded s s.close := ⟨⟨w, h⟩, .inl ⟨rfl, rfl⟩⟩
  rw [Session.round.eq_def]
  split_ifs
  · exact hsame
  · exact hclose
  · cases r with
    | interrupted => exact hsame
    | failed => exact hclose
    | idle => exact hsame
    | readable fionread c =>
        have hinput : match processInput s.player c fionread s.reads with
            | .returned q _ => ∃ w, Typed q w
            | .closed q _ => ∃ w, Typed q w
            | .blocked q => ∃ w, Typed q w := by
          cases fionread with
          | none => exact ⟨w, h⟩
          | some size =>
              rw [processInput]
              split_ifs
              · exact ⟨w, h⟩
              · exact h.processLoop
        dsimp only
        cases hresult : processInput s.player c fionread s.reads with
        | returned q reads =>
            rw [hresult] at hinput
            obtain ⟨w', hw'⟩ := hinput
            obtain ⟨htyped, heffect⟩ :=
              rounded_dispatch (s := { s with player := q, reads := reads }) hw'
            exact ⟨htyped, heffect⟩
        | closed q reads =>
            rw [hresult] at hinput
            exact ⟨hinput, .inl ⟨rfl, rfl⟩⟩
        | blocked q =>
            rw [hresult] at hinput
            exact ⟨hinput, .inl ⟨rfl, rfl⟩⟩

/-- The login never takes back what it has let in. -/
def Keeps (m m' : Login) : Prop := m.loggedIn = true → m'.loggedIn = true ∧ m'.name = m.name

theorem Keeps.trans {m m' m'' : Login} (h : Keeps m m') (h' : Keeps m' m'') : Keeps m m'' :=
  fun hin => ⟨(h' (h hin).1).1, (h' (h hin).1).2.trans (h hin).2⟩

/-- A call before the login: the text lets the player in, or nothing changes but what
has been said. -/
theorem callMode_outside {w : List UInt8} (hw : Printed w) {m : Login}
    (hmode : m.fMode = .loginGetName) (hname : m.name = fun _ => 0) :
    (m.callMode (.ofText w)).1 = none ∧
    ((IsName w ∧ (m.callMode (.ofText w)).2 =
        some { m with name := padded w, fMode := .processCommand, loggedIn := true }) ∨
      (¬ (Call.ofText w).Accepted ∧ ∃ said, (m.callMode (.ofText w)).2 = some (m.say said))) := by
  simp only [Login.callMode, hmode]
  obtain ⟨haccept, hrefuse⟩ := loginGetName_eq m (.ofText w)
  refine ⟨trivial, ?_⟩
  by_cases hacc : (Call.ofText w).Accepted
  · refine .inl ⟨hw.accepted_iff.mp hacc, ?_⟩
    have hcopy : strncpy m.name (Call.ofText w).input (Call.ofText w).length = padded w := by
      rw [hname]
      exact hw.strncpy_padded
    rw [haccept hacc, hcopy]
  · obtain ⟨said, hsaid⟩ := hrefuse hacc
    exact .inr ⟨hacc, said, by rw [hsaid]⟩

/-- A call after the login. -/
theorem callMode_inside {w : List UInt8} (hw : Printed w) {m : Login}
    (hmode : m.fMode = .processCommand) :
    (∀ m', (m.callMode (.ofText w)).2 = some m' →
      m'.fMode = .processCommand ∧ m'.loggedIn = m.loggedIn ∧ m'.name = m.name) ∧
    ∀ command, (m.callMode (.ofText w)).1 = some command → (w, command) ∈ commandHash := by
  obtain ⟨hkeep, hrun⟩ := processCommand_text hw m
  simp only [Login.callMode, hmode]
  rw [hmode] at hkeep
  exact ⟨hkeep, hrun⟩

/-- The gate stands after a round, and what was let in stays in. -/
theorem Gate.rounded (h : Gate s) (hround : Rounded s t) : Gate t ∧ Keeps s.mode t.mode := by
  rcases hround.effect with ⟨hcalls, hmode⟩ | ⟨w, hw, hcalls, hmode⟩
  · refine ⟨⟨hround.typed, by rw [hmode]; exact h.mode_iff, ?_, ?_⟩, ?_⟩
    · rw [hmode, hcalls]
      exact h.outside
    · rw [hmode]
      intro hin
      rw [Named, hcalls, hmode]
      exact h.inside hin
    · rw [hmode]
      exact fun hin => ⟨hin, rfl⟩
  cases hin : s.mode.loggedIn with
  | false =>
      obtain ⟨hname, hnone⟩ := h.outside hin
      obtain ⟨-, ⟨hisName, hlet⟩ | ⟨hrefused, said, hsaid⟩⟩ :=
        callMode_outside hw (h.fMode_of_outside hin) hname
      · rw [hlet, Option.getD_some] at hmode
        refine ⟨⟨hround.typed, by simp [hmode], by simp [hmode], fun _ => ?_⟩, by simp [Keeps, hin]⟩
        exact ⟨s.calls, w, [], hcalls, hnone, hw.accepted_iff.mpr hisName, hisName, by rw [hmode]⟩
      · rw [hsaid, Option.getD_some] at hmode
        have hout : t.mode.loggedIn = false := by rw [hmode]; exact hin
        refine ⟨⟨hround.typed, ?_, fun _ => ⟨by rw [hmode]; exact hname, ?_⟩, ?_⟩, ?_⟩
        · rw [hmode]
          exact h.mode_iff
        · rw [hcalls]
          intro call hcall
          rcases List.mem_append.mp hcall with hcall | hcall
          · exact hnone call hcall
          · rwa [List.mem_singleton.mp hcall]
        · simp [hout]
        · simp [Keeps, hin]
  | true =>
      have hfMode := h.mode_iff.mpr hin
      obtain ⟨hkeep, -⟩ := callMode_inside hw hfMode
      have hsame : t.mode.fMode = .processCommand ∧ t.mode.loggedIn = true ∧
          t.mode.name = s.mode.name := by
        rw [hmode]
        cases hnext : (s.mode.callMode (.ofText w)).2 with
        | none => exact ⟨hfMode, hin, rfl⟩
        | some m' =>
            obtain ⟨hf, hl, hn⟩ := hkeep m' hnext
            exact ⟨hf, hl.trans hin, hn⟩
      obtain ⟨before, w', after, hsplit, hnone, hacc, hisName, hname⟩ := h.inside hin
      refine ⟨⟨hround.typed, by simp [hsame], by simp [hsame], fun _ => ?_⟩, fun _ => hsame.2⟩
      refine ⟨before, w', after ++ [.ofText w], ?_, hnone, hacc, hisName, hsame.2.2.trans hname⟩
      rw [hcalls, hsplit]
      simp

theorem Gate.round (h : Gate s) (r : Round) :
    Gate (s.round server r) ∧ Keeps s.mode (s.round server r).mode := by
  obtain ⟨w, hw⟩ := h.typed
  exact h.rounded (rounded_round hw r)

theorem Gate.rounds (h : Gate s) (rounds : List Round) :
    Gate (socketSelect server s rounds) ∧ Keeps s.mode (socketSelect server s rounds).mode := by
  induction rounds generalizing s with
  | nil => exact ⟨h, fun hin => ⟨hin, rfl⟩⟩
  | cons r rounds ih =>
      obtain ⟨hgate, hkeeps⟩ := h.round r
      obtain ⟨hgate', hkeeps'⟩ := ih hgate
      exact ⟨hgate', hkeeps.trans hkeeps'⟩

/-- A command that a round runs is run after the login, by a call of its key. -/
theorem Gate.ran (h : Gate s) {r : Round} {call : Call} {command : Command}
    (hcall : call ∈ (s.round server r).calls.drop s.calls.length)
    (hrun : (s.mode.callMode call).1 = some command) :
    s.mode.loggedIn = true ∧ ∃ key, (key, command) ∈ commandHash ∧ call = .ofText key := by
  obtain ⟨w, hw⟩ := h.typed
  rcases (rounded_round hw r).effect with ⟨hcalls, -⟩ | ⟨w', hw', hcalls, -⟩
  · simp [hcalls] at hcall
  · rw [hcalls, List.drop_left, List.mem_singleton] at hcall
    subst hcall
    cases hin : s.mode.loggedIn with
    | false =>
        obtain ⟨hnone, -⟩ := callMode_outside hw' (h.fMode_of_outside hin) (h.outside hin).1
        rw [hnone] at hrun
        cases hrun
    | true =>
        exact ⟨rfl, w', (callMode_inside hw' (h.mode_iff.mpr hin)).2 command hrun, rfl⟩

theorem Gate.commandsRun (h : Gate s) {rounds : List Round} {call : Call} {command : Command}
    (hrun : (call, command) ∈ commandsRun s rounds) :
    (socketSelect server s rounds).mode.loggedIn = true ∧
      ∃ key, (key, command) ∈ commandHash ∧ call = .ofText key := by
  induction rounds generalizing s with
  | nil => simp [Input.commandsRun] at hrun
  | cons r rounds ih =>
      obtain ⟨hgate, hkeeps⟩ := h.round r
      rw [Input.commandsRun, List.mem_append] at hrun
      rcases hrun with hrun | hrun
      · obtain ⟨call', hcall, hmap⟩ := List.mem_filterMap.mp hrun
        obtain ⟨command', hcommand, heq⟩ := Option.map_eq_some_iff.mp hmap
        obtain ⟨rfl, rfl⟩ := Prod.mk.injEq .. ▸ heq
        obtain ⟨hin, hkey⟩ := h.ran hcall hcommand
        exact ⟨((hgate.rounds rounds).2 (hkeeps hin).1).1, hkey⟩
      · exact ih hgate hrun

/-- The login gate, over any stream and any rounds, and any rounds that follow. -/
theorem login_gate (reads : List Outcome) (rounds more : List Round) :
    let s := socketSelect server (.start loginNew reads) rounds
    let t := socketSelect server s more
    (s.mode.fMode = .processCommand ↔ s.mode.loggedIn = true) ∧
    (s.mode.loggedIn = true → Named s ∧ t.mode.loggedIn = true ∧ t.mode.name = s.mode.name) ∧
    (s.mode.loggedIn = false → commandsRun (.start loginNew reads) rounds = []) ∧
    ∀ call command, (call, command) ∈ commandsRun (.start loginNew reads) rounds →
      ∃ key, (key, command) ∈ commandHash ∧ call = .ofText key := by
  intro s t
  have hstart := Gate.start reads
  have hgate : Gate s := (hstart.rounds rounds).1
  have hkeeps : Keeps s.mode t.mode := (hgate.rounds more).2
  refine ⟨hgate.mode_iff, fun hin => ⟨hgate.inside hin, hkeeps hin⟩, fun hout => ?_, ?_⟩
  · rw [List.eq_nil_iff_forall_not_mem]
    rintro ⟨call, command⟩ hrun
    have hin : s.mode.loggedIn = true := (hstart.commandsRun hrun).1
    simp [hout] at hin
  · intro call command hrun
    exact (hstart.commandsRun hrun).2

end ThreeW3.Input
