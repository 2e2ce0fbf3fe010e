/-
# Conversations

What a session writes to its socket after `login_welcome`, in its order, against a server
that hears lines and knows nothing else: it asks for a name until it hears one, and then
answers commands until one of them ends the session. The session answers as this server does
whatever it reads.
-/

import ThreeW3.Input.Login
import ThreeW3.Output.Delivery

namespace ThreeW3.Input

open ThreeW3.Lib

/-! ## What a session writes -/

/-- A write of `process_input` or `socket_select`, a write of a mode handler, or the run of a
command handler, which writes what it has to say. -/
inductive Utterance
  | notice (n : Notice)
  | message (m : Message)
  | ran (command : Command)
  deriving DecidableEq

def Utterance.notice? : Utterance → Option Notice
  | notice n => some n
  | message _ => none
  | ran _ => none

def Utterance.message? : Utterance → Option Message
  | notice _ => none
  | message m => some m
  | ran _ => none

/-- What the call of `f_mode` writes, and the prompt that follows it. The thread is gone when
a handler has closed the session. -/
def Login.answer (m : Login) (call : Call) : List Utterance :=
  (m.callMode call).1.toList.map .ran ++
    match (m.callMode call).2 with
    | none => []
    | some m' => (m'.said.drop m.said.length).map .message ++ [.notice .prompt]

/-- What the player has been told since. -/
def Player.news (p q : Player) : List Utterance := (q.sent.drop p.sent.length).map .notice

/-- What a round of `socket_select` writes: `process_input` while it reads, then the handler. -/
def Session.written (s : Session Login) (r : Round) : List Utterance :=
  if s.status ≠ .running then []
  else
    match r with
    | .interrupted => []
    | .failed => []
    | .idle => []
    | .readable fionread c =>
      match processInput s.player c fionread s.reads with
      | .returned p _ => s.player.news p ++
          if p.ready then s.mode.answer ⟨p.ibuffer, p.ibufferPtr⟩ else []
      | .closed p _ => s.player.news p
      | .blocked p => s.player.news p

/-- What a session writes in these rounds, which come after `login_welcome`. -/
def transcript (s : Session Login) : List Round → List Utterance
  | [] => []
  | r :: rounds => s.written r ++ transcript (s.round server r) rounds

/-! ## The server of lines -/

/-- A server that hears lines, by how far the conversation is. -/
inductive LineServer
  | nameless
  | named (name : List UInt8)
  | ended
  deriving DecidableEq

instance (w : List UInt8) : Decidable (IsName w) :=
  decidable_of_iff (0 < w.length ∧ w.length ≤ 32 ∧ (w.all fun c => decide (IsAlpha c)) = true)
    ⟨fun h => ⟨h.1, h.2.1, fun c hc => of_decide_eq_true (List.all_eq_true.mp h.2.2 c hc)⟩,
      fun h => ⟨h.pos, h.le, List.all_eq_true.mpr fun c hc => decide_eq_true (h.alpha c hc)⟩⟩

/-- What is wrong with a line that is no name. -/
def refusal (w : List UInt8) : List Message :=
  if w = [] then [.namePrompt]
  else if 32 < w.length then [.nameTooLong, .namePrompt]
  else [.nameNotAlphabetic, .namePrompt]

/-- How the server goes on after a line, and what it answers. -/
def LineServer.hear (w : List UInt8) : LineServer → LineServer × List Utterance
  | nameless =>
      if IsName w then (named w, [.notice .prompt])
      else (nameless, (refusal w).map .message ++ [.notice .prompt])
  | named name =>
      if w = [] then (named name, [.notice .prompt])
      else
        match commandHash.lookup w with
        | none => (named name, [.message (.notFound w), .notice .prompt])
        | some .quit => (ended, [.ran .quit])
        | some command => (named name, [.ran command, .notice .prompt])
  | ended => (ended, [])

/-- The answers to these lines. -/
def LineServer.converse (stage : LineServer) : List (List UInt8) → List Utterance
  | [] => []
  | w :: ws => (stage.hear w).2 ++ (stage.hear w).1.converse ws

/-- What the server of lines has to say. The other notices are about the line while it is
typed. -/
def Utterance.IsAnswer : Utterance → Prop
  | notice n => n = .prompt
  | message _ => True
  | ran _ => True

instance : DecidablePred Utterance.IsAnswer
  | .notice n => inferInstanceAs (Decidable (n = .prompt))
  | .message _ => .isTrue trivial
  | .ran _ => .isTrue trivial

def answers (us : List Utterance) : List Utterance := us.filter fun u => decide u.IsAnswer

/-! ## Notices -/

/-- What is said while a byte is handled, and never the prompt. -/
def Player.Adds (p q : Player) : Prop := ∃ ns, q.sent = p.sent ++ ns ∧ .prompt ∉ ns

namespace Player.Adds

variable {p q r : Player}

theorem refl (p : Player) : p.Adds p := ⟨[], by simp, by simp⟩

theorem trans (h : p.Adds q) (h' : q.Adds r) : p.Adds r := by
  obtain ⟨ns, hns, hprompt⟩ := h
  obtain ⟨ms, hms, hprompt'⟩ := h'
  refine ⟨ns ++ ms, by rw [hms, hns, List.append_assoc], ?_⟩
  rw [List.mem_append]
  exact not_or.mpr ⟨hprompt, hprompt'⟩

theorem of_eq (h : q.sent = p.sent) : p.Adds q := ⟨[], by simp [h], by simp⟩

theorem say (p : Player) {n : Notice} (hn : n ≠ .prompt) : p.Adds (p.say n) :=
  ⟨[n], rfl, by simpa using hn.symm⟩

theorem erase (p : Player) : p.Adds p.erase := ⟨[.eraseCharacter], rfl, by simp⟩

theorem append (p : Player) (c : UInt8) : p.Adds (p.append c) := by
  rw [Player.append]
  split_ifs
  · exact of_eq rfl
  · exact ⟨[.truncated], rfl, by simp⟩

theorem receive (p : Player) (c : UInt8) : p.Adds (p.receive c) := by
  have hflags : ∀ lastR lastN ready, p.Adds { p with lastR, lastN, ready } :=
    fun _ _ _ => of_eq rfl
  unfold Player.receive
  split_ifs
  · exact refl p
  · exact refl p
  · exact hflags _ _ _
  · exact refl p
  · exact hflags _ _ _
  · exact (hflags _ _ _).trans ((erase _).trans (append _ c))
  · exact (hflags _ _ _).trans (erase _)
  · exact (hflags _ _ _).trans (append _ c)
  · exact hflags _ _ _

theorem command (p : Player) (c : UInt8) : p.Adds (p.command c) := by
  unfold Player.command
  split_ifs
  · exact say p (by decide)
  · exact erase p
  · exact of_eq rfl
  · exact refl p

theorem processLoop (p : Player) (c : UInt8) (size : ℤ) (reads : List Outcome) :
    p.Adds (Input.processLoop p c size reads).player := by
  fun_induction Input.processLoop p c size reads with
  | case1 | case2 | case3 | case4 | case5 | case6 | case7 => exact refl _
  | case8 =>
      rename_i ih
      exact (command _ _).trans ih
  | case9 =>
      rename_i ih
      exact (receive _ _).trans ih

theorem processInput (p : Player) (c : UInt8) (fionread : Option ℤ) (reads : List Outcome) :
    p.Adds (Input.processInput p c fionread reads).player := by
  cases fionread with
  | none => exact refl p
  | some size =>
      rw [Input.processInput]
      split_ifs
      · exact refl p
      · exact processLoop p c size reads

theorem sent_eq (h : p.Adds q) :
    q.sent = p.sent ++ (p.news q).filterMap Utterance.notice? := by
  obtain ⟨ns, hns, -⟩ := h
  have hnotices : ∀ ns : List Notice,
      (ns.map Utterance.notice).filterMap Utterance.notice? = ns := by
    intro ns
    rw [List.filterMap_map]
    exact List.filterMap_some
  rw [Player.news, hns, List.drop_left, hnotices]

theorem messages_news (p q : Player) : (p.news q).filterMap Utterance.message? = [] := by
  rw [Player.news, List.filterMap_map]
  exact List.filterMap_eq_nil_iff.mpr fun _ _ => rfl

/-- None of it is an answer. -/
theorem answers_news (h : p.Adds q) : answers (p.news q) = [] := by
  obtain ⟨ns, hns, hprompt⟩ := h
  rw [Player.news, hns, List.drop_left, answers, List.filter_map, List.map_eq_nil_iff,
    List.filter_eq_nil_iff]
  intro n hn hanswer
  have hn' : n = .prompt := of_decide_eq_true hanswer
  exact hprompt (hn' ▸ hn)

end Player.Adds

/-! ## A line is heard -/

/-- The session is where the server of lines is. -/
def LineServer.Matches (m : Login) : LineServer → Prop
  | nameless => m.fMode = .loginGetName ∧ m.name = fun _ => 0
  | named name => m.fMode = .processCommand ∧ m.name = padded name
  | ended => False

variable {stage : LineServer} {m m' : Login} {w : List UInt8}

theorem Login.answer_some {call : Call} (ms : List Message) (hrun : (m.callMode call).1 = none)
    (hnext : (m.callMode call).2 = some m') (hsaid : m'.said = m.said ++ ms) :
    m.answer call = ms.map .message ++ [.notice .prompt] := by
  simp only [answer, hrun, hnext, hsaid, List.drop_left]
  rfl

/-- A line that is no name is refused. -/
theorem loginGetName_refused (hw : Printed w) (hnot : ¬ IsName w) (m : Login) :
    loginGetName m (padded w) w.length = m.say (refusal w) := by
  rw [loginGetName, refusal]
  by_cases hempty : w = []
  · rw [if_pos hempty, if_pos (by rw [hempty]; rfl)]
  have hpos : 0 < w.length := List.length_pos_of_ne_nil hempty
  rw [if_neg hempty, if_neg (by omega)]
  by_cases hlong : 32 < w.length
  · rw [if_pos hlong, if_pos hlong]
  have hother : (cString (padded w)).any (fun c => !decide (IsAlpha c)) = true := by
    rw [hw.cString_padded, List.any_eq_true]
    by_contra hnone
    refine hnot ⟨hpos, Nat.le_of_not_lt hlong, fun c hc => by_contra fun halpha => ?_⟩
    exact hnone ⟨c, hc, by rw [decide_eq_false halpha]; rfl⟩
  rw [if_neg hlong, if_neg hlong, if_pos hother]

/-- `login_get_name` answers to a line as the server of lines does. -/
theorem loginGetName_hears (hw : Printed w) (hmode : m.fMode = .loginGetName)
    (hname : m.name = fun _ => 0) :
    m.answer (.ofText w) = (LineServer.nameless.hear w).2 ∧
      ∀ m', (m.callMode (.ofText w)).2 = some m' → (LineServer.nameless.hear w).1.Matches m' := by
  have hcall : m.callMode (.ofText w) = (none, some (loginGetName m (padded w) w.length)) := by
    simp only [Login.callMode, hmode]
    rfl
  by_cases hisName : IsName w
  · have hcopy : strncpy m.name (Call.ofText w).input (Call.ofText w).length = padded w := by
      rw [hname]
      exact hw.strncpy_padded
    have hnext : loginGetName m (padded w) w.length =
        { m with name := padded w, fMode := .processCommand, loggedIn := true } := by
      have haccepted := (loginGetName_eq m (.ofText w)).1 (hw.accepted_iff.mpr hisName)
      rwa [hcopy] at haccepted
    rw [hnext] at hcall
    rw [LineServer.hear, if_pos hisName]
    constructor
    · exact Login.answer_some [] (by rw [hcall]) (by rw [hcall]) (by simp)
    · intro m' hm'
      rw [hcall] at hm'
      obtain rfl := Option.some.inj hm'
      exact ⟨rfl, rfl⟩
  · rw [loginGetName_refused hw hisName] at hcall
    rw [LineServer.hear, if_neg hisName]
    constructor
    · exact Login.answer_some _ (by rw [hcall]) (by rw [hcall]) rfl
    · intro m' hm'
      rw [hcall] at hm'
      obtain rfl := Option.some.inj hm'
      exact ⟨hmode, hname⟩

/-- So does `process_command`. -/
theorem processCommand_hears (hw : Printed w) {name : List UInt8}
    (hmatches : (LineServer.named name).Matches m) :
    m.answer (.ofText w) = ((LineServer.named name).hear w).2 ∧
      ∀ m', (m.callMode (.ofText w)).2 = some m' →
        ((LineServer.named name).hear w).1.Matches m' := by
  have hcall : m.callMode (.ofText w) = processCommand m (padded w) w.length := by
    simp only [Login.callMode, hmatches.1]
    rfl
  have hfind : findCommand (padded w) w.length = commandHash.lookup w := by
    rw [findCommand, hw.take_padded]
  by_cases hempty : w = []
  · have hnone : processCommand m (padded w) w.length = (none, some m) :=
      if_pos (by rw [hempty]; rfl)
    rw [LineServer.hear, if_pos hempty]
    constructor
    · exact Login.answer_some [] (by rw [hcall, hnone]) (by rw [hcall, hnone]) (by simp)
    · intro m' hm'
      rw [hcall, hnone] at hm'
      obtain rfl := Option.some.inj hm'
      exact hmatches
  have hlength : ¬ w.length ≤ 0 := fun h => hempty (List.length_eq_zero_iff.mp (Nat.le_zero.mp h))
  rw [LineServer.hear, if_neg hempty]
  rw [processCommand, if_neg hlength, hfind, hw.cString_padded] at hcall
  cases hlookup : commandHash.lookup w with
  | none =>
      rw [hlookup] at hcall
      constructor
      · exact Login.answer_some _ (by rw [hcall]) (by rw [hcall]) rfl
      · intro m' hm'
        rw [hcall] at hm'
        obtain rfl := Option.some.inj hm'
        exact hmatches
  | some command =>
      rw [hlookup] at hcall
      cases command with
      | quit => simp [Login.answer, hcall, Command.run]
      | who | twho =>
          constructor
          · simp [Login.answer, hcall, Command.run]
          · intro m' hm'
            rw [hcall] at hm'
            obtain rfl := Option.some.inj hm'
            exact hmatches

/-- The mode handlers answer to a line as the server of lines does. -/
theorem LineServer.Matches.hears (h : stage.Matches m) (hw : Printed w) :
    m.answer (.ofText w) = (stage.hear w).2 ∧
      ∀ m', (m.callMode (.ofText w)).2 = some m' → (stage.hear w).1.Matches m' := by
  cases stage with
  | nameless => exact loginGetName_hears hw h.1 h.2
  | named name => exact processCommand_hears hw h
  | ended => exact h.elim

/-- A handler that closes the session ends the conversation. -/
theorem LineServer.Matches.ends (h : stage.Matches m) (hw : Printed w)
    (hnone : (m.callMode (.ofText w)).2 = none) : (stage.hear w).1 = .ended := by
  cases stage with
  | ended => rfl
  | nameless => simp [Login.callMode, h.1] at hnone
  | named name =>
      have hfind : findCommand (padded w) w.length = commandHash.lookup w := by
        rw [findCommand, hw.take_padded]
      have hcall : (processCommand m (padded w) w.length).2 = none := by
        rw [← hnone, Login.callMode, h.1]
        rfl
      rw [processCommand, hfind] at hcall
      split_ifs at hcall with hlength
      have hempty : w ≠ [] := by
        rintro rfl
        exact hlength (Nat.le_refl 0)
      rw [LineServer.hear, if_neg hempty]
      cases hlookup : commandHash.lookup w with
      | none => simp [hlookup] at hcall
      | some command =>
          cases command with
          | quit => rfl
          | who | twho => simp [hlookup, Command.run] at hcall

/-! ## Rounds -/

/-- How far the conversation is after these lines. -/
def LineServer.after (stage : LineServer) (ws : List (List UInt8)) : LineServer :=
  ws.foldl (fun stage w => (stage.hear w).1) stage

theorem LineServer.converse_append (stage : LineServer) (ws vs : List (List UInt8)) :
    stage.converse (ws ++ vs) = stage.converse ws ++ (stage.after ws).converse vs := by
  induction ws generalizing stage with
  | nil => rfl
  | cons w ws ih => rw [List.cons_append, converse, converse, ih, List.append_assoc]; rfl

theorem LineServer.converse_ended (ws : List (List UInt8)) : LineServer.ended.converse ws = [] := by
  induction ws with
  | nil => rfl
  | cons w ws ih => exact ih

theorem answers_append (us vs : List Utterance) : answers (us ++ vs) = answers us ++ answers vs :=
  List.filter_append ..

theorem answers_hear (stage : LineServer) (w : List UInt8) :
    answers (stage.hear w).2 = (stage.hear w).2 := by
  rw [answers, List.filter_eq_self]
  intro u hu
  refine decide_eq_true ?_
  cases u with
  | message m => trivial
  | ran command => trivial
  | notice n =>
      cases stage with
      | ended => cases hu
      | nameless =>
          rw [LineServer.hear] at hu
          split_ifs at hu with hisName
          · simpa [Utterance.IsAnswer] using hu
          · simpa [Utterance.IsAnswer] using hu
      | named name =>
          rw [LineServer.hear] at hu
          split_ifs at hu
          · simpa [Utterance.IsAnswer] using hu
          · split at hu <;> simp [Utterance.IsAnswer] at hu ⊢ <;> exact hu

/-- Between `s` and `t` the session says this. -/
structure Logged (s t : Session Login) (us : List Utterance) : Prop where
  sent : t.player.sent = s.player.sent ++ us.filterMap Utterance.notice?
  said : t.mode.said = s.mode.said ++ us.filterMap Utterance.message?

theorem Logged.trans {s t u : Session Login} {us vs : List Utterance} (h : Logged s t us)
    (h' : Logged t u vs) : Logged s u (us ++ vs) where
  sent := by rw [h'.sent, h.sent, List.filterMap_append, List.append_assoc]
  said := by rw [h'.said, h.said, List.filterMap_append, List.append_assoc]

theorem Logged.refl (s : Session Login) : Logged s s [] :=
  ⟨(List.append_nil _).symm, (List.append_nil _).symm⟩

theorem Logged.ran (s : Session Login) (command : Option Command) :
    Logged s s (command.toList.map .ran) := by
  cases command with
  | none => exact .refl s
  | some command => exact ⟨(List.append_nil _).symm, (List.append_nil _).symm⟩

/-- Between `s` and `t` the session takes these lines, and answers to them as the server of
lines does. -/
structure Heard (stage : LineServer) (s t : Session Login) (us : List Utterance)
    (ws : List (List UInt8)) : Prop where
  logged : Logged s t us
  typed : ∃ w, Typed t.player w
  printed : ∀ w ∈ ws, Printed w
  calls : t.calls = s.calls ++ ws.map .ofText
  answers : answers us = stage.converse ws
  matches_of_running : t.status = .running → (stage.after ws).Matches t.mode

namespace Heard

variable {s t u : Session Login} {us vs : List Utterance} {ws ws' : List (List UInt8)}

theorem trans (h : Heard stage s t us ws) (h' : Heard (stage.after ws) t u vs ws') :
    Heard stage s u (us ++ vs) (ws ++ ws') where
  logged := h.logged.trans h'.logged
  typed := h'.typed
  printed v hv := (List.mem_append.mp hv).elim (h.printed v) (h'.printed v)
  calls := by rw [h'.calls, h.calls, List.map_append, List.append_assoc]
  answers := by rw [answers_append, h.answers, h'.answers, LineServer.converse_append]
  matches_of_running hrun := by
    rw [LineServer.after, List.foldl_append]
    exact h'.matches_of_running hrun

/-- Nothing is heard. -/
theorem silent (hlogged : Logged s t us) (htyped : ∃ w, Typed t.player w)
    (hcalls : t.calls = s.calls) (hus : Input.answers us = [])
    (hmatches : t.status = .running → stage.Matches t.mode) :
    Heard stage s t us [] :=
  ⟨hlogged, htyped, by simp, by simp [hcalls], hus, hmatches⟩

end Heard

variable {s : Session Login}

theorem Typed.processInput {p : Player} (h : Typed p w) (c : UInt8) (fionread : Option ℤ)
    (reads : List Outcome) : ∃ v, Typed (Input.processInput p c fionread reads).player v := by
  cases fionread with
  | none => exact ⟨w, h⟩
  | some size =>
      rw [Input.processInput]
      split_ifs
      · exact ⟨w, h⟩
      · have hloop : match Input.processLoop p c size reads with
            | .returned q _ => ∃ w, Typed q w
            | .closed q _ => ∃ w, Typed q w
            | .blocked q => ∃ w, Typed q w := h.processLoop
        cases hresult : Input.processLoop p c size reads with
        | returned q rest => rwa [hresult] at hloop
        | closed q rest => rwa [hresult] at hloop
        | blocked q => rwa [hresult] at hloop

/-- A handler adds to what has been said. -/
theorem said_callMode {call : Call} (hnext : (m.callMode call).2 = some m') :
    ∃ ms, m'.said = m.said ++ ms := by
  have hsame : ∃ ms, m.said = m.said ++ ms := ⟨[], (List.append_nil _).symm⟩
  cases hmode : m.fMode with
  | loginGetName =>
      simp only [Login.callMode, hmode] at hnext
      obtain rfl := Option.some.inj hnext
      rw [loginGetName]
      split_ifs
      · exact ⟨_, rfl⟩
      · exact ⟨_, rfl⟩
      · exact ⟨_, rfl⟩
      · exact hsame
  | processCommand =>
      simp only [Login.callMode, hmode, processCommand] at hnext
      split_ifs at hnext
      · obtain rfl := Option.some.inj hnext
        exact hsame
      split at hnext
      · next command _ =>
          cases command with
          | quit => cases hnext
          | who | twho =>
              obtain rfl := Option.some.inj hnext
              exact hsame
      · obtain rfl := Option.some.inj hnext
        exact ⟨_, rfl⟩

/-- The answer is what the handler adds, and the prompt. -/
theorem logged_answer {call : Call} (hnext : (m.callMode call).2 = some m') :
    (m.answer call).filterMap Utterance.notice? = [.prompt] ∧
      m'.said = m.said ++ (m.answer call).filterMap Utterance.message? := by
  obtain ⟨ms, hms⟩ := said_callMode hnext
  have hmessages : (ms.map Utterance.message).filterMap Utterance.message? = ms := by
    rw [List.filterMap_map]
    exact List.filterMap_some
  have hnotices : (ms.map Utterance.message).filterMap Utterance.notice? = [] := by
    rw [List.filterMap_map]
    exact List.filterMap_eq_nil_iff.mpr fun _ _ => rfl
  simp only [Login.answer, hnext, hms, List.drop_left, List.filterMap_append, hmessages, hnotices]
  cases (m.callMode call).1 <;>
    exact ⟨rfl, congrArg (m.said ++ ·) (List.append_nil ms).symm⟩

/-- The handler is called on the text in the buffer, if there is one to call it on. -/
theorem heard_dispatch (htyped : Typed s.player w) (h : stage.Matches s.mode) :
    ∃ ws, Heard stage s (s.dispatch server)
      (if s.player.ready then s.mode.answer ⟨s.player.ibuffer, s.player.ibufferPtr⟩
        else []) ws := by
  cases hready : s.player.ready with
  | false =>
      rw [dispatch_not_ready hready]
      exact ⟨[], .silent (.refl s) ⟨w, htyped⟩ rfl rfl fun _ => h⟩
  | true =>
      have hcall : (⟨s.player.ibuffer, s.player.ibufferPtr⟩ : Call) = .ofText w := by
        rw [htyped.ibuffer, htyped.ibufferPtr]
        rfl
      obtain ⟨hanswer, hnext⟩ := h.hears htyped.printed
      refine ⟨[w], ?_⟩
      rw [Session.dispatch, if_pos hready, if_pos rfl, hcall]
      simp only [server]
      have hanswers : answers (s.mode.answer (.ofText w)) = stage.converse [w] := by
        rw [hanswer, answers_hear, LineServer.converse, LineServer.converse, List.append_nil]
      have hprinted : ∀ v ∈ [w], Printed v := by simpa using htyped.printed
      cases hmode : (s.mode.callMode (.ofText w)).2 with
      | none =>
          have hgone : Status.closed = .running → (stage.after [w]).Matches s.mode :=
            fun h => absurd h (by decide)
          have hran : (s.mode.answer (.ofText w)) =
              (s.mode.callMode (.ofText w)).1.toList.map .ran := by
            simp only [Login.answer, hmode, List.append_nil]
          have hlogged : Logged s s (s.mode.answer (.ofText w)) := by
            rw [hran]
            exact .ran s _
          exact ⟨⟨hlogged.sent, hlogged.said⟩, ⟨w, htyped⟩, hprinted, rfl, hanswers, hgone⟩
      | some mode =>
          obtain ⟨hprompt, hsaid⟩ := logged_answer hmode
          exact ⟨⟨by rw [hprompt]; rfl, hsaid⟩, ⟨[], (Typed.wipe _).say _⟩, hprinted, rfl, hanswers,
            fun _ => hnext mode hmode⟩

theorem heard_round (htyped : Typed s.player w) (hrun : s.status = .running)
    (h : stage.Matches s.mode) (r : Round) :
    ∃ ws, Heard stage s (s.round server r) (s.written r) ws := by
  have hstay : Heard stage s s [] [] := .silent (.refl s) ⟨w, htyped⟩ rfl rfl fun _ => h
  have hgone : Status.closed = .running → stage.Matches s.mode := fun h => absurd h (by decide)
  have hwaits : Status.blocked = .running → stage.Matches s.mode := fun h => absurd h (by decide)
  have hclose : Heard stage s s.close [] [] :=
    .silent ⟨(Logged.refl s).sent, (Logged.refl s).said⟩ ⟨w, htyped⟩ rfl rfl hgone
  have hgoes : ¬ s.status ≠ .running := not_not.mpr hrun
  have hlogout : ¬ server.logout s.mode = true := Bool.false_ne_true
  rw [Session.round.eq_def, Session.written.eq_def, if_neg hgoes, if_neg hlogout, if_neg hgoes]
  cases r with
  | interrupted | idle => exact ⟨[], hstay⟩
  | failed => exact ⟨[], hclose⟩
  | readable fionread c =>
      obtain ⟨v, hv⟩ := htyped.processInput c fionread s.reads
      have hadds := Player.Adds.processInput s.player c fionread s.reads
      have hsaid : ∀ q, s.mode.said =
          s.mode.said ++ (s.player.news q).filterMap Utterance.message? := fun q => by
        rw [Player.Adds.messages_news, List.append_nil]
      dsimp only
      cases hresult : processInput s.player c fionread s.reads with
      | returned q reads =>
          rw [hresult] at hv hadds
          have hread : Heard stage s { s with player := q, reads := reads } (s.player.news q) [] :=
            .silent ⟨hadds.sent_eq, hsaid q⟩ ⟨v, hv⟩ rfl hadds.answers_news fun _ => h
          obtain ⟨ws, hws⟩ :=
            heard_dispatch (s := { s with player := q, reads := reads }) hv h
          exact ⟨ws, hread.trans hws⟩
      | closed q reads =>
          rw [hresult] at hv hadds
          exact ⟨[], .silent ⟨hadds.sent_eq, hsaid q⟩ ⟨v, hv⟩ rfl hadds.answers_news hgone⟩
      | blocked q =>
          rw [hresult] at hv hadds
          exact ⟨[], .silent ⟨hadds.sent_eq, hsaid q⟩ ⟨v, hv⟩ rfl hadds.answers_news hwaits⟩

theorem written_stopped (hstatus : s.status ≠ .running) (r : Round) : s.written r = [] :=
  if_pos hstatus

theorem transcript_stopped (hstatus : s.status ≠ .running) (rounds : List Round) :
    transcript s rounds = [] := by
  induction rounds with
  | nil => rfl
  | cons r rounds ih => rw [transcript, written_stopped hstatus, round_stopped hstatus, ih]; rfl

theorem heard_rounds (htyped : ∃ w, Typed s.player w)
    (h : s.status = .running → stage.Matches s.mode) (rounds : List Round) :
    ∃ ws, Heard stage s (socketSelect server s rounds) (transcript s rounds) ws := by
  induction rounds generalizing s stage with
  | nil => exact ⟨[], .silent (.refl s) htyped rfl rfl h⟩
  | cons r rounds ih =>
      by_cases hrun : s.status = .running
      · obtain ⟨w, hw⟩ := htyped
        obtain ⟨ws, hround⟩ := heard_round hw hrun (h hrun) r
        obtain ⟨vs, hrounds⟩ := ih hround.typed hround.matches_of_running
        exact ⟨ws ++ vs, hround.trans hrounds⟩
      · rw [transcript_stopped hrun, socketSelect_stopped hrun]
        exact ⟨[], .silent (.refl s) htyped rfl rfl h⟩

/-! ## What is written is delivered -/

/-- The bytes of a text. -/
def bytesOf (text : String) : List UInt8 := text.toList.map fun c => UInt8.ofNat c.toNat

def Notice.bytes : Notice → List UInt8
  | yes => bytesOf "[3w3]: yes\n"
  | eraseCharacter => [iac, doOpt, ec]
  | truncated => bytesOf "[3w3]: input truncated.\n"
  | prompt => bytesOf "$ "

def Message.bytes (m : Message) : List UInt8 := bytesOf m.text

/-- The call that writes it. -/
def Notice.write (n : Notice) (heap : Option (ℕ → UInt8)) (writes : List Output.Write) :
    Output.Result :=
  match n with
  | yes => Output.socketWrite (some (n.bytes ++ [0])) writes
  | eraseCharacter => Output.socketWritef n.bytes heap writes
  | truncated => Output.socketWrite (some (n.bytes ++ [0])) writes
  | prompt => Output.socketWrite (some (n.bytes ++ [0])) writes

def Message.write (m : Message) (heap : Option (ℕ → UInt8)) (writes : List Output.Write) :
    Output.Result :=
  match m with
  | namePrompt => Output.socketPrompt (m.bytes ++ [0]) heap writes
  | nameTooLong => Output.socketWrite (some (m.bytes ++ [0])) writes
  | nameNotAlphabetic => Output.socketWrite (some (m.bytes ++ [0])) writes
  | notFound _ => Output.socketWritef m.bytes heap writes

/-- With memory, and a write(2) that takes what it is given, all of the text goes out. -/
def GoesOut (bytes : List UInt8)
    (write : Option (ℕ → UInt8) → List Output.Write → Output.Result) : Prop :=
  ∀ old writes n, Output.firstTaken writes = some n → bytes.length ≤ n →
    ∃ rest, write (some old) writes = .returned bytes.length bytes rest

/-- A character of a terminal, or the end of a line. -/
abbrev Shown (c : UInt8) : Prop := Printable c ∨ c = lf

/-- A text that no write function cuts. -/
structure Short (bytes : List UInt8) : Prop where
  length_le : bytes.length ≤ 1022
  no_nul : 0 ∉ bytes

/-- All of it goes out, and it is text; the echo of an erasure alone is a telnet command. -/
def Notice.Proper (n : Notice) : Prop :=
  GoesOut n.bytes n.write ∧ (n = .eraseCharacter ∨ ∀ c ∈ n.bytes, Shown c)

/-- All of it goes out, and it is text. -/
def Message.Proper (m : Message) : Prop := GoesOut m.bytes m.write ∧ ∀ c ∈ m.bytes, Shown c

namespace Short

variable {bytes : List UInt8}

theorem of_shown (hlength : bytes.length ≤ 1022) (hshown : ∀ c ∈ bytes, Shown c) : Short bytes :=
  ⟨hlength, fun h => absurd (hshown 0 h) (by decide)⟩

/-- The text as a string in memory. -/
def string (h : Short bytes) : C.CString :=
  ⟨bytes, h.no_nul, h.length_le.trans_lt (by decide)⟩

theorem socketWrite_some (h : Short bytes) (writes : List Output.Write) :
    Output.socketWrite (some (bytes ++ [0])) writes = Output._socketWrite bytes writes :=
  Output.socketWrite_memory h.string [] writes

theorem _socketWrite_taken {writes : List Output.Write} {n : ℕ}
    (htaken : Output.firstTaken writes = some n) (hn : bytes.length ≤ n) :
    ∃ rest, Output._socketWrite bytes writes = .returned bytes.length bytes rest := by
  rcases Output._socketWrite_eq bytes writes with ⟨hnone, -⟩ | ⟨n', rest, hsome, hwritten⟩
  · rw [htaken] at hnone
    cases hnone
  · obtain rfl : n = n' := Option.some.inj (htaken.symm.trans hsome)
    exact ⟨rest, by rw [hwritten, Nat.min_eq_right hn, List.take_of_length_le hn]⟩

theorem goesOut_socketWrite (h : Short bytes) :
    GoesOut bytes fun _ writes => Output.socketWrite (some (bytes ++ [0])) writes := by
  intro old writes n htaken hn
  dsimp only
  rw [h.socketWrite_some]
  exact _socketWrite_taken htaken hn

theorem goesOut_socketWritef (h : Short bytes) :
    GoesOut bytes fun heap writes => Output.socketWritef bytes heap writes := by
  intro old writes n htaken hn
  dsimp only
  rw [Output.socketWritef_text, List.take_of_length_le h.length_le, C.chars_eq_self h.no_nul]
  exact _socketWrite_taken htaken hn

theorem goesOut_socketPrompt (h : Short bytes) :
    GoesOut bytes fun heap writes => Output.socketPrompt (bytes ++ [0]) heap writes := by
  intro old writes n htaken hn
  obtain ⟨rest, hwritten⟩ := _socketWrite_taken htaken hn
  have hcount : C.sizeOf (C.intOf bytes.length) = bytes.length := by
    have hle := h.length_le
    rw [C.sizeOf, C.intOf]
    omega
  refine ⟨rest, (Output.socketPrompt_memory h.string [] old writes).trans ?_⟩
  rw [show h.string.chars = bytes from rfl, hwritten, Output.Result.throughInt, hcount]

end Short

theorem Notice.proper (n : Notice) : n.Proper := by
  cases n with
  | eraseCharacter =>
      have hshort : Short (Notice.bytes .eraseCharacter) := ⟨by decide, by decide⟩
      exact ⟨hshort.goesOut_socketWritef, .inl rfl⟩
  | yes =>
      have hshown : ∀ c ∈ Notice.bytes .yes, Shown c := by decide +kernel
      exact ⟨(Short.of_shown (by decide) hshown).goesOut_socketWrite, .inr hshown⟩
  | truncated =>
      have hshown : ∀ c ∈ Notice.bytes .truncated, Shown c := by decide +kernel
      exact ⟨(Short.of_shown (by decide) hshown).goesOut_socketWrite, .inr hshown⟩
  | prompt =>
      have hshown : ∀ c ∈ Notice.bytes .prompt, Shown c := by decide +kernel
      exact ⟨(Short.of_shown (by decide) hshown).goesOut_socketWrite, .inr hshown⟩

theorem bytes_notFound (w : List UInt8) :
    (Message.notFound w).bytes = w.take 63 ++ bytesOf ": command not found\n" := by
  have hbyte : ∀ c : UInt8, UInt8.ofNat (Char.ofNat c.toNat).toNat = c := by
    intro c
    have hvalid : c.toNat.isValidChar := .inl (c.toNat_lt.trans (by decide))
    rw [Char.ofNat, dif_pos hvalid]
    exact UInt8.ofNat_toNat
  rw [Message.bytes, Message.text, bytesOf, String.toList_append, String.toList_ofList,
    List.map_append, List.map_map]
  congr 1
  exact (List.map_congr_left fun c _ => hbyte c).trans (List.map_id _)

/-- The line in the answer is cut at 63 characters, so the answer is not. -/
theorem notFound_proper (hw : Printed w) : (Message.notFound w).Proper := by
  have htail : (bytesOf ": command not found\n").length = 20 ∧
      ∀ c ∈ bytesOf ": command not found\n", Shown c := by decide +kernel
  have hshown : ∀ c ∈ (Message.notFound w).bytes, Shown c := by
    rw [bytes_notFound]
    intro c hc
    rcases List.mem_append.mp hc with hc | hc
    · exact .inl (hw.chars c (List.mem_of_mem_take hc))
    · exact htail.2 c hc
  refine ⟨(Short.of_shown ?_ hshown).goesOut_socketWritef, hshown⟩
  rw [bytes_notFound, List.length_append, List.length_take, htail.1]
  omega

theorem Message.proper_of_ne {m : Message} (hm : ∀ w, m ≠ .notFound w) : m.Proper := by
  cases m with
  | notFound w => exact absurd rfl (hm w)
  | namePrompt =>
      have hshown : ∀ c ∈ Message.bytes .namePrompt, Shown c := by decide +kernel
      exact ⟨(Short.of_shown (by decide) hshown).goesOut_socketPrompt, hshown⟩
  | nameTooLong =>
      have hshown : ∀ c ∈ Message.bytes .nameTooLong, Shown c := by decide +kernel
      exact ⟨(Short.of_shown (by decide) hshown).goesOut_socketWrite, hshown⟩
  | nameNotAlphabetic =>
      have hshown : ∀ c ∈ Message.bytes .nameNotAlphabetic, Shown c := by decide +kernel
      exact ⟨(Short.of_shown (by decide) hshown).goesOut_socketWrite, hshown⟩

theorem refusal_proper {m : Message} (hm : m ∈ refusal w) : m.Proper := by
  refine Message.proper_of_ne fun v => ?_
  rintro rfl
  rw [refusal] at hm
  split_ifs at hm <;> simp at hm

/-- What the server of lines answers to a printed line is proper. -/
theorem hear_proper (hw : Printed w) {m : Message} (hm : .message m ∈ (stage.hear w).2) :
    m.Proper := by
  cases stage with
  | ended => cases hm
  | nameless =>
      rw [LineServer.hear] at hm
      split_ifs at hm
      · simp at hm
      · exact refusal_proper (by simpa using hm)
  | named name =>
      rw [LineServer.hear] at hm
      split_ifs at hm
      · simp at hm
      · split at hm
        · obtain rfl : m = .notFound w := by simpa using hm
          exact notFound_proper hw
        · simp at hm
        · simp at hm

theorem converse_proper (stage : LineServer) {ws : List (List UInt8)}
    (hws : ∀ w ∈ ws, Printed w) {m : Message} (hm : .message m ∈ stage.converse ws) :
    m.Proper := by
  induction ws generalizing stage with
  | nil => cases hm
  | cons w ws ih =>
      rcases List.mem_append.mp hm with hm | hm
      · exact hear_proper (hws w List.mem_cons_self) hm
      · exact ih _ (fun v hv => hws v (List.mem_cons_of_mem w hv)) hm

theorem Heard.proper {t : Session Login} {us : List Utterance} {ws : List (List UInt8)}
    (h : Heard stage s t us ws) {m : Message} (hm : .message m ∈ us) : m.Proper := by
  refine converse_proper stage h.printed ?_
  rw [← h.answers]
  exact List.mem_filter.mpr ⟨hm, decide_eq_true trivial⟩

/-- Whatever a session reads, and however: it takes some lines and answers to them as the
server of lines does, until it stops. What it writes itself goes out whole and is text, but
for the echo of the erasures. -/
theorem conversation (reads : List Outcome) (rounds : List Round) :
    let s := Session.start loginNew reads
    let t := socketSelect server s rounds
    (∃ ws, (∀ w ∈ ws, Printed w) ∧ t.calls = ws.map .ofText ∧
      answers (transcript s rounds) = LineServer.nameless.converse ws ∧
      (t.status = .running → (LineServer.nameless.after ws).Matches t.mode)) ∧
    t.player.sent = (transcript s rounds).filterMap Utterance.notice? ∧
    t.mode.said = (transcript s rounds).filterMap Utterance.message? ∧
    (∀ n, .notice n ∈ transcript s rounds → n.Proper) ∧
    ∀ m, .message m ∈ transcript s rounds → m.Proper := by
  intro s t
  have hstart : s.status = .running → LineServer.nameless.Matches s.mode := fun _ => ⟨rfl, rfl⟩
  obtain ⟨ws, h⟩ := heard_rounds (s := s) ⟨[], .new⟩ hstart rounds
  exact ⟨⟨ws, h.printed, h.calls, h.answers, h.matches_of_running⟩, h.logged.sent, h.logged.said,
    fun n _ => n.proper, fun m hm => h.proper hm⟩

end ThreeW3.Input
