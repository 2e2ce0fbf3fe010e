/-
# Descriptors of sessions

The threads of the server as far as they meet in the descriptor table of the process:
the accept loops, the sessions, and `player_close`. Every system call on a descriptor is
one step, and the steps of all threads interleave in any order. A thread reads its own player
here; that `command_who` reads the players of other sessions is left to `Sessions`.
-/

import ThreeW3.Lib.Heap
import ThreeW3.Lib.Machine

namespace ThreeW3.Descriptors

open ThreeW3.Lib

universe u
variable {ι : Type u}

/-- What an open descriptor is for: a listener in its accept loop, the session of a player, or
anything else in the process, such as what `interface_tcp_create` leaves open when it fails. -/
inductive Owner (ι : Type u)
  | process
  | listener (l : ι)
  | session (p : ℕ)
  deriving DecidableEq

/-- `player_t`; of its fields only `socket.fd`. -/
structure Player where
  fd : ℕ

/-- `player_new`, which clears the record. -/
def playerNew : Player := ⟨0⟩

/-- The next call in `player_close`: shutdown(2), close(2), or, after the player has been
taken from its lists, free(3). -/
inductive Closing
  | shutdown
  | close
  | free
  deriving DecidableEq

/-- A thread: the accept loop of a listener, or the session of a player. -/
inductive Thread (ι : Type u)
  | acceptor (l : ι)
  | session (p : ℕ)
  deriving DecidableEq

/-- Where a thread is. -/
inductive Stage
  /-- It does not run yet. -/
  | absent
  /-- At `player_new`. -/
  | making
  /-- At accept(2), with the new player. -/
  | accepting (p : ℕ)
  /-- accept(2) has returned a descriptor. -/
  | accepted (p connfd : ℕ)
  /-- The player has its descriptor and is on its lists; at `pthread_create`. -/
  | starting (p : ℕ)
  /-- `pthread_create` has failed; in `player_close`. -/
  | undoing (p : ℕ) (c : Closing)
  /-- accept(2) has failed; at `socket_close`. -/
  | refused (p : ℕ)
  /-- Then in `player_close`. -/
  | dropping (p : ℕ) (c : Closing)
  /-- A session, in its loop. -/
  | running (p : ℕ)
  /-- A session, in `player_close`. -/
  | closing (p : ℕ) (c : Closing)
  /-- It has ended. -/
  | exited
  deriving DecidableEq

/-- What has happened to a descriptor for a player. -/
inductive Event
  | accepted (p fd : ℕ)
  | shut (p fd : ℕ)
  | closed (p fd : ℕ)
  deriving DecidableEq

/-- The descriptor table, the descriptors of the listeners, the players allocated with the
number of the next one, and the threads, each with its own player. A player is named by its
allocation, so a name is not used twice. -/
structure Server (ι : Type u) where
  table : ℕ → Option (Owner ι)
  listenFd : ι → ℕ
  player : Heap Player
  fresh : ℕ
  stage : Thread ι → Stage
  trace : List Event

/-- A step of a thread, or of the process elsewhere. -/
inductive Act (ι : Type u)
  /-- `interface_tcp_create` sets a listener up and starts its thread. -/
  | listen (l : ι) (fd : ℕ)
  /-- The process opens a descriptor. -/
  | opens (fd : ℕ)
  /-- The process closes one that it has opened. -/
  | closes (fd : ℕ)
  /-- `player_new`, which may fail. -/
  | new (l : ι) (ok : Bool)
  /-- accept(2) returns a descriptor, or fails with an error after which the thread ends.
  After the others it is called again. -/
  | accept (l : ι) (connfd : Option ℕ)
  /-- `new_player->socket.fd = connfd`, and the player goes on its lists. -/
  | assign (l : ι)
  /-- `pthread_create`, which may fail. -/
  | create (l : ι) (ok : Bool)
  /-- `socket_close(listener)`. -/
  | socketClose (l : ι)
  /-- A session comes to its end, for any reason, and calls `player_close`. -/
  | finish (p : ℕ)
  /-- The next call in the `player_close` of a thread. -/
  | resume (i : Thread ι)
  deriving DecidableEq

namespace Server

/-- A call in `player_close`, and what comes after it. -/
def playerClose (s : Server ι) (p : ℕ) : Closing → Option (Server ι × Option Closing)
  | .shutdown => (s.player.load p).map fun q =>
      ({ s with trace := s.trace ++ [.shut p q.fd] }, some .close)
  | .close => (s.player.load p).map fun q =>
      ({ s with table := Function.update s.table q.fd none, trace := s.trace ++ [.closed p q.fd] },
        some .free)
  | .free => (s.player.load p).map fun _ => ({ s with player := s.player.free p }, none)

variable [DecidableEq ι]

def enter (s : Server ι) (i : Thread ι) (st : Stage) : Server ι :=
  { s with stage := Function.update s.stage i st }

/-- `socket_close`: the descriptor of a listener. -/
def socketClose (s : Server ι) (l : ι) : Server ι :=
  { s with table := Function.update s.table (s.listenFd l) none }

def step (s : Server ι) : Act ι → Option (Server ι)
  | .listen l fd => some (enter { s with
      table := Function.update s.table fd (some (.listener l))
      listenFd := Function.update s.listenFd l fd } (.acceptor l) .making)
  | .opens fd => some { s with table := Function.update s.table fd (some .process) }
  | .closes fd => some { s with table := Function.update s.table fd none }
  | .new l true => some (enter { s with
      player := s.player.store s.fresh playerNew
      fresh := s.fresh + 1 } (.acceptor l) (.accepting s.fresh))
  | .new l false => some ((s.socketClose l).enter (.acceptor l) .exited)
  | .accept l connfd => match s.stage (.acceptor l), connfd with
    | .accepting p, some fd => some (enter { s with
        table := Function.update s.table fd (some (.session p))
        trace := s.trace ++ [.accepted p fd] } (.acceptor l) (.accepted p fd))
    | .accepting p, none => some (s.enter (.acceptor l) (.refused p))
    | _, _ => none
  | .assign l => match s.stage (.acceptor l) with
    | .accepted p connfd => (s.player.load p).map fun q =>
        enter { s with player := s.player.store p { q with fd := connfd } } (.acceptor l)
          (.starting p)
    | _ => none
  | .create l ok => match s.stage (.acceptor l), ok with
    | .starting p, true => some ((s.enter (.acceptor l) .making).enter (.session p) (.running p))
    | .starting p, false => some (s.enter (.acceptor l) (.undoing p .shutdown))
    | _, _ => none
  | .socketClose l => match s.stage (.acceptor l) with
    | .refused p => some ((s.socketClose l).enter (.acceptor l) (.dropping p .shutdown))
    | _ => none
  | .finish p => match s.stage (.session p) with
    | .running q => some (s.enter (.session p) (.closing q .shutdown))
    | _ => none
  | .resume i => match s.stage i with
    | .undoing p c => (s.playerClose p c).map fun (t, next) =>
        t.enter i (next.elim .making (.undoing p))
    | .dropping p c => (s.playerClose p c).map fun (t, next) =>
        t.enter i (next.elim .exited (.dropping p))
    | .closing p c => (s.playerClose p c).map fun (t, next) =>
        t.enter i (next.elim .exited (.closing p))
    | _ => none

end Server

/-- The thread that makes the step. -/
def Act.thread : Act ι → Option (Thread ι)
  | listen l _ => some (.acceptor l)
  | opens _ => none
  | closes _ => none
  | new l _ => some (.acceptor l)
  | accept l _ => some (.acceptor l)
  | assign l => some (.acceptor l)
  | create l _ => some (.acceptor l)
  | socketClose l => some (.acceptor l)
  | finish p => some (.session p)
  | resume i => some i

/-- The steps that a thread may make. -/
def Stage.allows : Stage → Act ι → Bool
  | absent, .listen _ _ => true
  | making, .new _ _ => true
  | accepting _, .accept _ _ => true
  | accepted _ _, .assign _ => true
  | starting _, .create _ _ => true
  | undoing _ _, .resume _ => true
  | refused _, .socketClose _ => true
  | dropping _ _, .resume _ => true
  | running _, .finish _ => true
  | closing _ _, .resume _ => true
  | _, _ => false

/-- The kernel gives out descriptors that are not open, and the process closes what is its
own. -/
def Act.promised [DecidableEq ι] (s : Server ι) : Act ι → Bool
  | listen _ fd => s.table fd = none
  | opens fd => s.table fd = none
  | closes fd => s.table fd = some .process
  | accept _ (some fd) => s.table fd = none
  | _ => true

/-- The server, in a process with these descriptors open. -/
def servers (ι : Type u) [DecidableEq ι] (standard : ℕ → Bool) : Machine (Server ι) (Act ι) where
  init :=
    { table := fun fd => if standard fd then some .process else none
      listenFd := fun _ => 0
      player := .empty
      fresh := 0
      stage := fun _ => .absent
      trace := [] }
  enabled := fun s act =>
    (act.promised s && act.thread.all fun i => (s.stage i).allows act) = true
  step := Server.step

instance serversDecidableEnabled [DecidableEq ι] (standard : ℕ → Bool) (s : Server ι)
    (act : Act ι) : Decidable ((servers ι standard).enabled s act) :=
  inferInstanceAs (Decidable (_ = true))

end ThreeW3.Descriptors
