/-
# Sessions on the player list

The threads of the server as far as they meet on `player_list`: the accept loop that
makes a player and puts it on the list, the login, `command_who`, and `player_close`.
Each locked section of the list, each read of a player's field and each call of free(3)
is one step, and the steps of all sessions interleave in any order.
-/

import ThreeW3.LinkedList.Clients

namespace ThreeW3.Sessions

open ThreeW3.Lib ThreeW3.LinkedList

universe u
variable {ι : Type u}

/-- The fields of `player_t` that `command_who` reads; `loggedIn` is the flag
`LOGGED_IN`. -/
structure Player (ι : Type u) where
  loggedIn : Bool
  name : List UInt8
  thread : Option ι
  deriving DecidableEq

/-- `player_new`. -/
def playerNew : Player ι := ⟨false, [], none⟩

/-- What a session with a player on the list is doing. -/
inductive Activity (ι : Type u)
  /-- Its thread does not run yet. -/
  | starting
  /-- In its loop, between commands. -/
  | idle
  /-- In `command_who`, at `list_next`. -/
  | stepping
  /-- Back from `list_next`, at the test of the loop and the read of `node->data`. -/
  | scanning
  /-- At `scan->flags`. -/
  | looking (scan : ℕ)
  /-- At `scan->thread`. -/
  | listing (scan : ℕ)
  /-- At `scan->name`. -/
  | naming (scan : ℕ) (thread : Option ι)
  deriving DecidableEq

/-- A session with its player. -/
inductive Phase (ι : Type u)
  /-- No session. -/
  | absent
  /-- The player is made, and not on the list yet. -/
  | created (p : ℕ)
  /-- The player is on the list. -/
  | member (p : ℕ) (act : Activity ι)
  /-- In `player_close`, from `list_delete_data(player_list, p)` on. -/
  | closing (p : ℕ)
  deriving DecidableEq

/-- `player_list` with the iterators and calls of the sessions, the players allocated,
the number of the next one, the sessions, and what `command_who` has given to
`socket_writef` in each: a call of it without memory for its text writes nothing. A player
is named by its allocation, so a name is not used twice. -/
structure Hall (ι : Type u) where
  list : Sys ι ℕ Empty
  player : Heap (Player ι)
  fresh : ℕ
  phase : ι → Phase ι
  shown : List (ι × List UInt8 × Option ι)

/-- A step of a session, or of the accept loop for it. -/
inductive Act (ι : Type u)
  /-- `player_new`. -/
  | accept (i : ι)
  /-- `list_push(player_list, new_player)`. -/
  | join (i : ι)
  /-- `pthread_create`. -/
  | start (i : ι)
  /-- `login_get_name` takes a name. -/
  | login (i : ι) (name : List UInt8)
  /-- The call of `command_who`. -/
  | who (i : ι)
  /-- `player_close` calls `list_delete_data(player_list, p)`. -/
  | close (i : ι)
  /-- The next step of `command_who` or `player_close`. -/
  | resume (i : ι)
  deriving DecidableEq

namespace Phase

/-- The player of a session that may call `player_close` now: the accept loop when
accept(2) or `pthread_create` has failed, or the session between commands. -/
def mayClose : Phase ι → Option ℕ
  | created p => some p
  | member p .starting => some p
  | member p .idle => some p
  | _ => none

end Phase

namespace Hall

/-- The server with no sessions. -/
def new : Hall ι := ⟨.new, .empty, 0, fun _ => .absent, []⟩

variable [DecidableEq ι]

def enter (s : Hall ι) (i : ι) (φ : Phase ι) : Hall ι :=
  { s with phase := Function.update s.phase i φ }

/-- `player_new` makes a player. -/
def allocate (s : Hall ι) : Hall ι :=
  { s with player := s.player.store s.fresh playerNew, fresh := s.fresh + 1 }

/-- A step on the list. -/
def onList (s : Hall ι) (i : ι) (act : Action ι ℕ Empty) (φ : Phase ι) : Option (Hall ι) :=
  (s.list.step act).map fun l => enter { s with list := l } i φ

/-- A change of a player's fields. -/
def assign (s : Hall ι) (p : ℕ) (f : Player ι → Player ι) : Option (Hall ι) :=
  (s.player.load p).map fun r => { s with player := s.player.store p (f r) }

/-- The next step of `command_who`; the last one of a turn is its call of
`socket_writef`. -/
def resumeWho (s : Hall ι) (i : ι) (p : ℕ) : Activity ι → Option (Hall ι)
  | .starting => none
  | .idle => none
  | .stepping => s.onList i (.call i (.walk .fwd)) (.member p .scanning)
  | .scanning => match s.list.task i with
    | .walking none => some (s.enter i (.member p .idle))
    | .walking (some x) => (nodeData x s.list.mem).map fun q => s.enter i (.member p (.looking q))
    | _ => none
  | .looking q => (s.player.load q).map fun r =>
      s.enter i (.member p (if r.loggedIn then .listing q else .stepping))
  | .listing q => (s.player.load q).map fun r => s.enter i (.member p (.naming q r.thread))
  | .naming q t => (s.player.load q).map fun r =>
      enter { s with shown := s.shown ++ [(i, r.name, t)] } i (.member p .stepping)

/-- The next step of `player_close`: `list_delete_data` goes on, or is over and free(3)
is called. -/
def resumeClose (s : Hall ι) (i : ι) (p : ℕ) : Option (Hall ι) :=
  if s.list.task i = .walking none then
    (s.player.load p).map fun _ => enter { s with player := s.player.free p } i .absent
  else s.onList i (.resume i) (.closing p)

def step (s : Hall ι) : Act ι → Option (Hall ι)
  | .accept i => some (s.allocate.enter i (.created s.fresh))
  | .join i => match s.phase i with
    | .created p => s.onList i (.insert .fwd p) (.member p .starting)
    | _ => none
  | .start i => match s.phase i with
    | .member p .starting =>
        (s.assign p fun r => { r with thread := some i }).map (·.enter i (.member p .idle))
    | _ => none
  | .login i name => match s.phase i with
    | .member p .idle => (s.assign p fun r => { r with loggedIn := true, name := name }).map
        (·.enter i (.member p .idle))
    | _ => none
  | .who i => match s.phase i with
    | .member p .idle => some (s.enter i (.member p .stepping))
    | _ => none
  | .close i => (s.phase i).mayClose.bind fun p =>
      s.onList i (.call i (.deleteData p)) (.closing p)
  | .resume i => match s.phase i with
    | .member p act => s.resumeWho i p act
    | .closing p => s.resumeClose i p
    | _ => none

end Hall

/-- The session that makes the step, or for which the accept loop makes it. -/
def Act.session : Act ι → ι
  | accept i => i
  | join i => i
  | start i => i
  | login i _ => i
  | who i => i
  | close i => i
  | resume i => i

/-- The steps that a session may make in a phase. -/
def Phase.allows : Phase ι → Act ι → Bool
  | absent, .accept _ => true
  | created _, .join _ => true
  | member _ .starting, .start _ => true
  | member _ .idle, .login _ _ => true
  | member _ .idle, .who _ => true
  | φ, .close _ => φ.mayClose.isSome
  | member _ .starting, .resume _ => false
  | member _ .idle, .resume _ => false
  | member _ _, .resume _ => true
  | closing _, .resume _ => true
  | _, _ => false

/-- The sessions of the server. -/
def sessions (ι : Type u) [DecidableEq ι] : Machine (Hall ι) (Act ι) where
  init := .new
  enabled := fun s act => (s.phase act.session).allows act = true
  step := Hall.step

instance sessionsDecidableEnabled [DecidableEq ι] (s : Hall ι) (act : Act ι) :
    Decidable ((sessions ι).enabled s act) :=
  inferInstanceAs (Decidable ((s.phase act.session).allows act = true))

end ThreeW3.Sessions
