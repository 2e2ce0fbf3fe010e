/-
# No session holds up another

A session may wait in write(2) for as long as its client does not read, and it holds the lock of
its socket meanwhile. Nobody else takes this lock; and whoever holds a lock that another thread
wants, that of the standard error stream among them, is at work in a section of it, and gives it
back.
-/

import ThreeW3.Locks.Model

namespace ThreeW3.Locks

open ThreeW3.Lib

universe u
variable {ι κ ρ : Type u}

/-- The locks of the lists, of the hash table, of the record and of the stream are short: the
locks of the sockets are not. -/
def Short : Lock ι κ → Prop
  | .player _ => False
  | .listener _ => False
  | _ => True

/-- A session takes the lock of its own socket, and so does a listener. -/
def Own : Thread ι κ ρ → Lock ι κ → Prop
  | .session i, .player j => i = j
  | .listener l, .listener k => l = k
  | _, _ => False

theorem Own.unique {x : Lock ι κ} {t u : Thread ι κ ρ} (ht : Own t x) (hu : Own u x) : t = u := by
  cases x with
  | player i =>
      cases t <;> cases u <;> simp only [Own] at ht hu
      rw [ht, hu]
  | listener l =>
      cases t <;> cases u <;> simp only [Own] at ht hu
      rw [ht, hu]
  | plist | playerList | socketList | interfaceList | dnsList | commandHash | dfile | stderr =>
      cases t <;> simp only [Own] at ht

/-- The code keeps to the rules in a thread that holds no lock. -/
abbrev Fair (t : Thread ι κ ρ) (c : Code ι κ) : Prop := Instr.Proper Short (Own t) [] c

variable {i : ι} {t : Thread ι κ ρ} {x : Lock ι κ}

theorem fair_section (x : Lock ι κ) (hx : Short x) (n : ℕ) : Fair t (listSection x n) := by
  have h : Fair t (Instr.locked x n ++ []) := Instr.proper_locked hx n (by simp) rfl
  rwa [List.append_nil] at h

theorem fair_deleteData (x : Lock ι κ) (hx : Short x) (ns : List ℕ) :
    Fair t (listDeleteData x ns) :=
  Instr.Proper.flatMap fun n _ => fair_section x hx n

theorem fair_fprintf (n : ℕ) : Fair t (fprintf n : Code ι κ) := fair_section .stderr trivial n

theorem fair_logged (ls : List ℕ) : Fair t (logged ls : Code ι κ) :=
  Instr.Proper.flatMap fun n _ => fair_fprintf n

/-- Lines for the standard error stream, under locks that are not short. -/
theorem proper_logged (ls : List ℕ) {own : Lock ι κ → Prop} {held : List (Lock ι κ)}
    {c : Code ι κ} (hheld : ∀ y ∈ held, ¬ Short y) (hc : Instr.Proper Short own held c) :
    Instr.Proper Short own held (logged ls ++ c) :=
  Instr.proper_sections trivial ls hheld hc

/-- A write may wait under the lock of the own socket. -/
theorem fair_socketWrite (again : ℕ) :
    Fair (.session i : Thread ι κ ρ) (_socketWrite (.player i) again) := by
  have hheld : ∀ y ∈ [(Lock.player i : Lock ι κ)], ¬ Short y := by
    intro y hy
    rw [List.mem_singleton.mp hy]
    exact id
  exact ⟨List.not_mem_nil, by simp, .inr rfl,
    Instr.proper_wait _ hheld ⟨[], rfl, rfl⟩⟩

theorem fair_write (w : Write) : Fair (.session i : Thread ι κ ρ) (write i w) := by
  cases w with
  | sent again => exact fair_socketWrite again
  | noMemory n => exact fair_fprintf n

theorem fair_writes (ws : List Write) : Fair (.session i : Thread ι κ ρ) (writes i ws) :=
  Instr.Proper.flatMap fun w _ => fair_write w

theorem fair_processInput (ls : List ℕ) (reads : List (List ℕ × List Write)) :
    Fair (.session i : Thread ι κ ρ) (processInput i ls reads) := by
  have hread : ∀ read ∈ reads, Fair (.session i : Thread ι κ ρ)
      (.wait :: (logged read.1 ++ writes i read.2)) :=
    fun read _ => ⟨by simp, (fair_logged read.1).append (fair_writes read.2)⟩
  exact (fair_logged ls).append (Instr.Proper.flatMap hread)

theorem fair_playerClose (l : κ) (shut closed ns ms : List ℕ) :
    Fair t (playerClose l shut closed ns ms) := by
  have hlists : Fair t (listDeleteData (.plist l) ns ++ listDeleteData .playerList ms) :=
    (fair_deleteData (.plist l) trivial ns).append (fair_deleteData .playerList trivial ms)
  have hclosed : Fair t (.work :: (logged closed ++
      (listDeleteData (.plist l) ns ++ listDeleteData .playerList ms))) :=
    (fair_logged closed).append hlists
  exact (fair_logged shut).append hclosed

theorem fair_socketClose (l : κ) (shut closed ns ms : List ℕ) :
    Fair (.listener l : Thread ι κ ρ) (socketClose l shut closed ns ms) := by
  have hheld : ∀ y ∈ [(Lock.listener l : Lock ι κ)], ¬ Short y := by
    intro y hy
    rw [List.mem_singleton.mp hy]
    exact id
  have hlast : Instr.Proper Short (Own (.listener l : Thread ι κ ρ)) [.listener l]
      [.release (.listener l)] := ⟨[], rfl, rfl⟩
  have hlists : Instr.Proper Short (Own (.listener l : Thread ι κ ρ)) [.listener l]
      (listDeleteData .socketList ns ++
        (listDeleteData .interfaceList ms ++ [.release (.listener l)])) :=
    Instr.proper_sections trivial ns hheld (Instr.proper_sections trivial ms hheld hlast)
  exact ⟨List.not_mem_nil, by simp, .inr rfl,
    proper_logged shut hheld (proper_logged closed hheld hlists)⟩

theorem fair_interfaceTcpCreate (l : κ) (failed push destroy undo up : List ℕ) :
    Fair t (interfaceTcpCreate l failed push destroy undo up) := by
  have hdestroy : Fair t (destroy.flatMap (listSection (.plist l)) ++
      (listDeleteData .interfaceList undo ++ logged up)) :=
    (fair_deleteData (.plist l) trivial destroy).append
      ((fair_deleteData .interfaceList trivial undo).append (fair_logged up))
  exact ⟨by simp, (fair_logged failed).append
    ((fair_deleteData .interfaceList trivial push).append hdestroy)⟩

theorem fair_commandWho (head : ℕ) (turns : List (ℕ × Option Write)) (n foot : ℕ) :
    Fair (.session i : Thread ι κ ρ) (commandWho i head turns n foot) := by
  have hturns : Fair (.session i : Thread ι κ ρ)
      (turns.flatMap fun turn => listSection .playerList turn.1 ++ writes i turn.2.toList) :=
    Instr.Proper.flatMap fun turn _ =>
      (fair_section .playerList trivial turn.1).append (fair_writes turn.2.toList)
  have hlast : Fair (.session i : Thread ι κ ρ)
      (listSection .playerList n ++ _socketWrite (.player i) foot) :=
    (fair_section .playerList trivial n).append (fair_socketWrite foot)
  exact (fair_socketWrite head).append (hturns.append hlast)

/-- Every call keeps to the rules. -/
theorem fair_code (lis : ι → κ) (call : Call ι κ ρ) : Fair call.caller (call.code lis) := by
  cases call with
  | commandInit ns ls =>
      exact (Instr.Proper.flatMap fun n _ => fair_section .commandHash trivial n).append
        (fair_logged ls)
  | interfaceTcpCreate l failed push destroy undo up =>
      exact fair_interfaceTcpCreate l failed push destroy undo up
  | detach i ls => exact fair_logged ls
  | loginWelcome i n ws => exact (fair_section .dfile trivial n).append (fair_writes ws)
  | selectRound i ls =>
      exact ⟨List.not_mem_nil, by simp, .inr rfl, [], rfl, by simp, fair_logged ls⟩
  | processInput i ls reads => exact fair_processInput ls reads
  | loginGetName i ws =>
      exact Instr.Proper.flatMap fun ws _ => (fair_writes ws).append ⟨by simp, rfl⟩
  | processCommand i n ws => exact (fair_section .commandHash trivial n).append (fair_writes ws)
  | commandWho i head turns n foot => exact fair_commandWho head turns n foot
  | twhoRest i ws => exact fair_writes ws
  | prompt i again n => exact (fair_socketWrite again).append (fair_fprintf n)
  | playerClose i shut closed ns ms => exact fair_playerClose (lis i) shut closed ns ms
  | pushSocket l n => exact fair_section .socketList trivial n
  | playerNew l ls => exact fair_logged ls
  | accept l ls => exact ⟨by simp, fair_logged ls⟩
  | socketIp2host l ns ls undo =>
      exact (fair_deleteData .dnsList trivial ns).append
        ((fair_logged ls).append (fair_deleteData .dnsList trivial undo))
  | fprintf l n => exact fair_fprintf n
  | pushPlayer l n m =>
      exact (fair_section (.plist l) trivial n).append (fair_section .playerList trivial m)
  | dropPlayer l shut closed ns ms => exact fair_playerClose l shut closed ns ms
  | socketClose l shut closed ns ms => exact fair_socketClose l shut closed ns ms
  | _socketIp2host r n => exact ⟨by simp, fair_section .dnsList trivial n⟩

variable [DecidableEq ι] [DecidableEq κ] [DecidableEq ρ]

/-- Whatever the threads of the server do, and whatever their clients and resolvers keep them
waiting for: no thread gives back a lock that it does not hold, and a thread that has to wait for
a lock waits for one that does not wait in a system call, and that gives the lock back with its
next steps. -/
theorem nobody_holds_up (lis : ι → κ) {acts : List (Threads.Act (Thread ι κ ρ) (Call ι κ ρ))}
    (hvalid : (threads lis).Valid Threads.idle acts) :
    (∃ s, (threads lis).exec Threads.idle acts = some s) ∧
      (threads lis).AllStates (Threads.Brief Call.caller (Call.code lis)) Threads.idle acts :=
  have hown : ∀ (x : Lock ι κ) (t u : Thread ι κ ρ), Own t x → Own u x → t = u :=
    fun _ _ _ => Own.unique
  Threads.waiting_is_brief hown (fair_code lis) hvalid

/-- The first session waits in write(2). The second one is in a section of `player_list`, and the
listener, which has a new player, waits for this section to end; the third one writes a line to
the standard error stream, and `main` has a line for it too. -/
def crowd : List (Threads.Act (Thread ℕ Unit Unit) (Call ℕ Unit Unit)) :=
  [.begin (.commandWho 0 0 [] 0 0), .run (.session 0),
    .begin (.commandWho 1 0 [] 2 0), .run (.session 1), .run (.session 1), .run (.session 1),
    .run (.session 1), .begin (.pushPlayer () 1 1), .run (.listener ()), .run (.listener ()),
    .run (.listener ()),
    .begin (.processInput 2 [] [([1], [])]), .run (.session 2), .run (.session 2),
    .run (.session 2), .begin (.interfaceTcpCreate () [] [] [] [] [1]), .run .main]

theorem crowd_moves :
    (∃ s, (threads fun _ => ()).exec Threads.idle crowd = some s) ∧
      (threads fun _ => ()).AllStates (Threads.Brief Call.caller (Call.code fun _ => ()))
        Threads.idle crowd :=
  nobody_holds_up (fun _ => ()) (by decide)

example : ((threads fun _ => ()).exec Threads.idle crowd).map (fun s =>
      ((s.code (.listener ())).head?, s.owner .playerList, (s.code .main).head?,
        s.owner .stderr)) =
    some (some (.acquire .playerList), some (.session 1), some (.acquire .stderr),
      some (.session 2)) :=
  rfl

end ThreeW3.Locks
