/-
# The locks of the server

The functions that the threads of the server run, as far as they take locks and wait in system
calls. A thread makes its calls in any order here, and a call may read, write and walk for as
long as it likes: the source makes its calls in one of these orders. What a section under a lock
does is work, and a library call that always returns is work too.
-/

import ThreeW3.Lib.Locks

namespace ThreeW3.Locks

open ThreeW3.Lib

universe u
variable {ι κ ρ : Type u}

/-- The thread of `main`, of a session, of a listener, and of `_socket_ip2host`. -/
inductive Thread (ι κ ρ : Type u)
  | main
  | session (i : ι)
  | listener (l : κ)
  | resolver (r : ρ)
  deriving DecidableEq

/-- The locks of the sockets and of the lists, of `command_hash` and of the banner's record, and
the one that the standard library has for `stderr`. -/
inductive Lock (ι κ : Type u)
  | player (i : ι)
  | listener (l : κ)
  | plist (l : κ)
  | playerList
  | socketList
  | interfaceList
  | dnsList
  | commandHash
  | dfile
  | stderr
  deriving DecidableEq

abbrev Code (ι κ : Type u) := List (Instr (Lock ι κ))

/-- `fprintf(stderr, ..)`, which locks the stream while it writes: a write to the standard error
stream is taken to return, and is work. -/
def fprintf (n : ℕ) : Code ι κ := Instr.locked .stderr n

/-- Lines for the standard error stream. -/
def logged (ls : List ℕ) : Code ι κ := ls.flatMap fprintf

/-- `list_next`, `list_push`, `list_destroy`, and a section of `list_remove`; all of the work is
under the lock. -/
def listSection (x : Lock ι κ) (n : ℕ) : Code ι κ := Instr.locked x n

/-- `list_delete_data`, which goes through the list by `list_next` and removes by `list_remove`. -/
def listDeleteData (x : Lock ι κ) (ns : List ℕ) : Code ι κ := ns.flatMap (Instr.locked x)

/-- `dfile_get`. -/
def dfileGet (n : ℕ) : Code ι κ := Instr.locked .dfile n

/-- `hash_find(command_hash, ..)`, and a section of `hash_replace(command_hash, ..)`. -/
def hashSection (n : ℕ) : Code ι κ := Instr.locked .commandHash n

/-- `_socket_write`: write(2) is called under the lock, and again after some errors. -/
def _socketWrite (x : Lock ι κ) (again : ℕ) : Code ι κ :=
  .acquire x :: (List.replicate (again + 1) .wait ++ [.release x])

/-- What `socket_write`, `socket_prompt` and `socket_writef` come to: the last two say so on the
standard error stream when they get no memory. -/
inductive Write
  | sent (again : ℕ)
  | noMemory (n : ℕ)
  deriving DecidableEq

/-- A write to the socket of a session. -/
def write (i : ι) : Write → Code ι κ
  | .sent again => _socketWrite (.player i) again
  | .noMemory n => fprintf n

/-- Writes to the socket of a session. -/
def writes (i : ι) (ws : List Write) : Code ι κ := ws.flatMap (write i)

/-- `login_welcome`, with the banner unless there is none. -/
def loginWelcome (i : ι) (n : ℕ) (ws : List Write) : Code ι κ := dfileGet n ++ writes i ws

/-- The top of the loop of `socket_select`, and select(2) with the line of its failure. -/
def selectRound (i : ι) (ls : List ℕ) : Code ι κ :=
  [.acquire (.player i), .work, .work, .work, .release (.player i), .wait] ++ logged ls

/-- `process_input`: ioctl(2), and reads, each with its lines for the standard error stream and
with what is written to the socket after them. -/
def processInput (i : ι) (ls : List ℕ) (reads : List (List ℕ × List Write)) : Code ι κ :=
  .work :: (logged ls ++ reads.flatMap fun read => .wait :: (logged read.1 ++ writes i read.2))

/-- `login_get_name`, which sleeps before it asks again. -/
def loginGetName (i : ι) (ws : List (List Write)) : Code ι κ :=
  ws.flatMap fun ws => writes i ws ++ [.wait]

/-- `command_who`: the turns of its loop, each with a line unless the player has no name yet. -/
def commandWho (i : ι) (head : ℕ) (turns : List (ℕ × Option Write)) (n foot : ℕ) : Code ι κ :=
  _socketWrite (.player i) head ++
    ((turns.flatMap fun turn => listSection .playerList turn.1 ++ writes i turn.2.toList) ++
      (listSection .playerList n ++ _socketWrite (.player i) foot))

/-- `player_close`: shutdown(2) and close(2) with the lines of their failures, and the two
lists. -/
def playerClose (l : κ) (shut closed ns ms : List ℕ) : Code ι κ :=
  .work :: (logged shut ++
    .work :: (logged closed ++ (listDeleteData (.plist l) ns ++ listDeleteData .playerList ms)))

/-- `socket_close`, which takes the locks of the stream and of the lists under that of the
socket. -/
def socketClose (l : κ) (shut closed ns ms : List ℕ) : Code ι κ :=
  .acquire (.listener l) :: .work :: (logged shut ++
    .work :: (logged closed ++ (listDeleteData .socketList ns ++
      (listDeleteData .interfaceList ms ++ [.release (.listener l)]))))

/-- `socket_ip2host`: the search, and `list_delete_data` when there is no thread for a resolver,
after a line that says so. -/
def socketIp2host (ns ls undo : List ℕ) : Code ι κ :=
  listDeleteData .dnsList ns ++ (logged ls ++ listDeleteData .dnsList undo)

/-- `interface_tcp_create` in the thread of `main`: getaddrinfo(3) and the calls after it, with
the lines of their failures; the two lists, one of which it destroys when it gets no thread; and
the line of its success. -/
def interfaceTcpCreate (l : κ) (failed : List ℕ) (push : List ℕ) (destroy undo up : List ℕ) :
    Code ι κ :=
  .wait :: (logged failed ++ (push.flatMap (listSection .interfaceList) ++
    (destroy.flatMap (listSection (.plist l)) ++ (listDeleteData .interfaceList undo ++
      logged up))))

/-- A call that a thread makes. -/
inductive Call (ι κ ρ : Type u)
  /-- `command_init`, with the sections of each `hash_replace`, and its line. -/
  | commandInit (ns ls : List ℕ)
  | interfaceTcpCreate (l : κ) (failed push destroy undo up : List ℕ)
  /-- pthread_detach(3). -/
  | detach (i : ι) (ls : List ℕ)
  | loginWelcome (i : ι) (n : ℕ) (ws : List Write)
  | selectRound (i : ι) (ls : List ℕ)
  | processInput (i : ι) (ls : List ℕ) (reads : List (List ℕ × List Write))
  | loginGetName (i : ι) (ws : List (List Write))
  /-- `process_command`, up to the command handler, or with the answer that there is none. -/
  | processCommand (i : ι) (n : ℕ) (ws : List Write)
  | commandWho (i : ι) (head : ℕ) (turns : List (ℕ × Option Write)) (n foot : ℕ)
  /-- `command_twho` once `command_who` is over. -/
  | twhoRest (i : ι) (ws : List Write)
  /-- The prompt of `socket_select`, and the line after it. -/
  | prompt (i : ι) (again n : ℕ)
  | playerClose (i : ι) (shut closed ns ms : List ℕ)
  /-- `list_push` of the listener, when the thread begins. -/
  | pushSocket (l : κ) (n : ℕ)
  | playerNew (l : κ) (ls : List ℕ)
  /-- accept(2), with the line of its failure or of the address. -/
  | accept (l : κ) (ls : List ℕ)
  | socketIp2host (l : κ) (ns ls undo : List ℕ)
  /-- The line of the name, or that there is no thread for a session. -/
  | fprintf (l : κ) (n : ℕ)
  /-- `list_push` of a new player to the two lists. -/
  | pushPlayer (l : κ) (n m : ℕ)
  /-- `player_close` of a player that gets no session. -/
  | dropPlayer (l : κ) (shut closed ns ms : List ℕ)
  | socketClose (l : κ) (shut closed ns ms : List ℕ)
  /-- gethostbyaddr(3), and `list_push`. -/
  | _socketIp2host (r : ρ) (n : ℕ)
  deriving DecidableEq

namespace Call

def caller : Call ι κ ρ → Thread ι κ ρ
  | commandInit _ _ => .main
  | interfaceTcpCreate _ _ _ _ _ _ => .main
  | detach i _ => .session i
  | loginWelcome i _ _ => .session i
  | selectRound i _ => .session i
  | processInput i _ _ => .session i
  | loginGetName i _ => .session i
  | processCommand i _ _ => .session i
  | commandWho i _ _ _ _ => .session i
  | twhoRest i _ => .session i
  | prompt i _ _ => .session i
  | playerClose i _ _ _ _ => .session i
  | pushSocket l _ => .listener l
  | playerNew l _ => .listener l
  | accept l _ => .listener l
  | socketIp2host l _ _ _ => .listener l
  | fprintf l _ => .listener l
  | pushPlayer l _ _ => .listener l
  | dropPlayer l _ _ _ _ => .listener l
  | socketClose l _ _ _ _ => .listener l
  | _socketIp2host r _ => .resolver r

/-- The code of a call; `lis` is the listener that a session comes from, whose list is the
player's `plist`. -/
def code (lis : ι → κ) : Call ι κ ρ → Code ι κ
  | commandInit ns ls => ns.flatMap hashSection ++ logged ls
  | interfaceTcpCreate l failed push destroy undo up =>
      Locks.interfaceTcpCreate l failed push destroy undo up
  | detach _ ls => .work :: logged ls
  | loginWelcome i n ws => Locks.loginWelcome i n ws
  | selectRound i ls => Locks.selectRound i ls
  | processInput i ls reads => Locks.processInput i ls reads
  | loginGetName i ws => Locks.loginGetName i ws
  | processCommand i n ws => hashSection n ++ writes i ws
  | commandWho i head turns n foot => Locks.commandWho i head turns n foot
  | twhoRest i ws => writes i ws
  | prompt i again n => _socketWrite (.player i) again ++ Locks.fprintf n
  | playerClose i shut closed ns ms => Locks.playerClose (lis i) shut closed ns ms
  | pushSocket _ n => listSection .socketList n
  | playerNew _ ls => .work :: logged ls
  | accept _ ls => .wait :: logged ls
  | socketIp2host _ ns ls undo => Locks.socketIp2host ns ls undo
  | fprintf _ n => Locks.fprintf n
  | pushPlayer l n m => listSection (.plist l) n ++ listSection .playerList m
  | dropPlayer l shut closed ns ms => Locks.playerClose l shut closed ns ms
  | socketClose l shut closed ns ms => Locks.socketClose l shut closed ns ms
  | _socketIp2host _ n => .wait :: listSection .dnsList n

end Call

/-- The threads of the server. -/
def threads [DecidableEq ι] [DecidableEq κ] [DecidableEq ρ] (lis : ι → κ) :
    Machine (Threads (Thread ι κ ρ) (Lock ι κ)) (Threads.Act (Thread ι κ ρ) (Call ι κ ρ)) :=
  Threads.machine Call.caller (Call.code lis)

instance threadsDecidableEnabled [DecidableEq ι] [DecidableEq κ] [DecidableEq ρ] (lis : ι → κ)
    (s : Threads (Thread ι κ ρ) (Lock ι κ)) (act : Threads.Act (Thread ι κ ρ) (Call ι κ ρ)) :
    Decidable ((threads lis).enabled s act) :=
  inferInstanceAs (Decidable ((Threads.machine Call.caller (Call.code lis)).enabled s act))

end ThreeW3.Locks
