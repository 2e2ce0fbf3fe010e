/-
# Walks over a shared list

The functions of the program that walk a list while other threads change it: `list_pop`,
`list_shift`, `list_delete_data`, the loop of `command_who` over `player_list` and that of
`socket_ip2host` over `dns_list`. Each locked section of the list and each read of a node's
data is one step, and the steps of all threads interleave in any order.
-/

import ThreeW3.LinkedList.Clients

namespace ThreeW3.Walks

open ThreeW3.Lib ThreeW3.LinkedList

universe u v w
variable {ι : Type w} {D : Type u} {K : Type v}

/-- A loop over the list outside `3w3_list.c`. The argument of `socket_ip2host` is `ip` after
its leading blanks. -/
inductive Body (K : Type v)
  | who
  | ip2host (ip : K)
  deriving DecidableEq

/-- Where a thread is. -/
inductive Loop (K : Type v)
  /-- Between calls, or in a call of `list_pop`, `list_shift` or `list_delete_data`. -/
  | off
  /-- At `list_next`. -/
  | next (b : Body K)
  /-- Back from `list_next`, at the test of the loop. -/
  | test (b : Body K)
  /-- In `socket_ip2host`, past its loop. -/
  | missed (ip : K)
  deriving DecidableEq

/-- The function goes on past its loop. -/
def Loop.isMissed : Loop K → Bool
  | missed _ => true
  | _ => false

namespace Body

/-- The body of the loop returns: `!strcmp(ip, scan->ip)`. -/
def found [DecidableEq K] (ip : D → K) : Body K → D → Bool
  | who, _ => false
  | ip2host k, p => k = ip p

/-- The loop has come to its end. -/
def exhausted : Body K → Loop K
  | who => .off
  | ip2host k => .missed k

end Body

/-- The list with the iterators and calls of the threads, and the loops they are in. -/
structure Walkers (ι : Type w) (D : Type u) (K : Type v) where
  list : Sys ι D Empty
  loop : ι → Loop K

/-- A step of a thread. -/
inductive Act (ι : Type w) (D : Type u) (K : Type v)
  /-- `list_push` or `list_unshift`. -/
  | insert (d : Dir) (p : D)
  /-- The call of `list_shift` or `list_pop`. -/
  | take (i : ι) (d : Dir)
  /-- The call of `list_delete_data`. In `socket_ip2host` it comes past the loop, when
  `pthread_create` has failed. -/
  | deleteData (i : ι) (p : D)
  /-- The call of `command_who`. -/
  | who (i : ι)
  /-- The call of `socket_ip2host`. -/
  | ip2host (i : ι) (ip : K)
  /-- The next step of a call. -/
  | resume (i : ι)
  deriving DecidableEq

namespace Walkers

/-- The thread is in no call. -/
def Idle (s : Walkers ι D K) (i : ι) : Prop := s.list.task i = .walking none ∧ s.loop i = .off

instance [DecidableEq D] [DecidableEq K] (s : Walkers ι D K) (i : ι) : Decidable (s.Idle i) :=
  inferInstanceAs (Decidable (_ ∧ _))

/-- A new list and idle threads. -/
def new : Walkers ι D K := ⟨.new, fun _ => .off⟩

variable [DecidableEq ι]

def enter (s : Walkers ι D K) (i : ι) (l : Loop K) : Walkers ι D K :=
  { s with loop := Function.update s.loop i l }

/-- `return(scan->dns)`: the iterator is a variable of the function, and nothing is done
with it. -/
def returnFound (s : Walkers ι D K) (i : ι) : Walkers ι D K :=
  enter { s with list := { s.list with task := Function.update s.list.task i (.walking none) } } i
    .off

variable [DecidableEq D] [DecidableEq K]

/-- A step on the list. -/
def onList (s : Walkers ι D K) (i : ι) (act : Action ι D Empty) (l : Loop K) :
    Option (Walkers ι D K) :=
  (s.list.step act).map fun t => enter { s with list := t } i l

/-- The next step of a call; `ip` gives the address that a `dns_t` holds. -/
def resume (ip : D → K) (s : Walkers ι D K) (i : ι) : Option (Walkers ι D K) :=
  match s.loop i with
  | .off => s.onList i (.resume i) .off
  | .next b => s.onList i (.call i (.walk .fwd)) (.test b)
  | .test b => match s.list.task i with
    | .walking none => some (s.enter i b.exhausted)
    | .walking (some x) => (nodeData x s.list.mem).map fun scan =>
        if b.found ip scan then s.returnFound i else s.enter i (.next b)
    | _ => none
  | .missed _ => some (s.enter i .off)

def step (ip : D → K) (s : Walkers ι D K) : Act ι D K → Option (Walkers ι D K)
  | .insert d p => (s.list.step (.insert d p)).map fun t => { s with list := t }
  | .take i d => s.onList i (.call i (.take d)) .off
  | .deleteData i p => s.onList i (.call i (.deleteData p)) .off
  | .who i => some (s.enter i (.next .who))
  | .ip2host i k => some (s.enter i (.next (.ip2host k)))
  | .resume i => s.resume ip i

end Walkers

/-- The thread that makes the step. Insertions have no iterator and are made by any. -/
def Act.thread : Act ι D K → Option ι
  | insert _ _ => none
  | take i _ => some i
  | deleteData i _ => some i
  | who i => some i
  | ip2host i _ => some i
  | resume i => some i

/-- Threads between calls start calls, and threads in a call go on with it. -/
def Act.enabled [DecidableEq D] [DecidableEq K] (s : Walkers ι D K) : Act ι D K → Bool
  | insert _ _ => true
  | take i _ => s.Idle i
  | deleteData i _ => s.Idle i || (s.loop i).isMissed
  | who i => s.Idle i
  | ip2host i _ => s.Idle i
  | resume i => ¬ s.Idle i

/-- The threads that walk a new list. -/
def walkers (ι : Type w) [DecidableEq ι] [DecidableEq D] [DecidableEq K] (ip : D → K) :
    Machine (Walkers ι D K) (Act ι D K) where
  init := .new
  enabled := fun s act => act.enabled s = true
  step := Walkers.step ip

instance walkersDecidableEnabled [DecidableEq ι] [DecidableEq D] [DecidableEq K] (ip : D → K)
    (s : Walkers ι D K) (act : Act ι D K) : Decidable ((walkers ι ip).enabled s act) :=
  inferInstanceAs (Decidable (_ = true))

end ThreeW3.Walks
