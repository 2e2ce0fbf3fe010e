/-
# Setting up a listener

`interface_tcp_create` and `afinet_tcp_listen`, over the outcomes of their calls: a
descriptor for each address that getaddrinfo(3) returns, `interface_list`, and the accept
thread. An assertion that fails ends the process, which gives `none`.
-/

import ThreeW3.LinkedList.Deque
import ThreeW3.LinkedList.Destroy

namespace ThreeW3.Listeners

open Lib LinkedList

/-- The release function that the lists of a listener are destroyed with, free(3). -/
inductive FreeFn
  | free
  deriving DecidableEq

/-- An address of the list that getaddrinfo(3) returns: `ai_addrlen`, the descriptor that
socket(2) returns for it, and whether setsockopt(2) and bind(2) succeed. -/
structure Address where
  addrlen : ℕ
  socket : Option ℕ
  setsockopt : Bool
  bind : Bool

/-- What getaddrinfo(3) returns: one address or more. -/
structure Addresses where
  first : Address
  rest : List Address

/-- What the system does: whether calloc returns a `socket_t`, the addresses or an error,
whether listen(2) succeeds, whether calloc returns a list, and whether the thread is
created. -/
structure Kernel where
  socketNew : Bool
  getaddrinfo : Option Addresses
  listen : Bool
  listNew : Bool
  thread : Bool

/-- The fields of `socket_t` that are set for a listener. -/
structure Socket where
  fd : ℤ
  len : ℕ
  list : Option (State ℕ FreeFn)

/-- `socket_new`. -/
def socketNew : Socket := ⟨0, 0, none⟩

/-- The open descriptors, how often freeaddrinfo(3) has been called, the sockets allocated
with the number of the next one, and `interface_list`. -/
structure Process where
  opened : List ℕ
  freeaddrinfo : ℕ
  sockets : Heap Socket
  fresh : ℕ
  interfaceList : State ℕ FreeFn

/-- The loop of `afinet_tcp_listen`: whether it comes to its end. -/
def bindLoop : Address → List Address → Socket → Process → Bool × Socket × Process
  | a, rest, tcp, s =>
    match a.socket with
    | none => (false, { tcp with fd := -1 }, s)
    | some fd =>
      let tcp := { tcp with fd := fd }
      let s := { s with opened := fd :: s.opened }
      if a.setsockopt = false then (false, tcp, s)
      else if a.bind = false then (false, tcp, s)
      else
        match rest with
        | [] => (true, tcp, s)
        | b :: rest => bindLoop b rest tcp s

/-- `afinet_tcp_listen`. -/
def afinetTcpListen (k : Kernel) (tcp : Socket) (s : Process) : ℤ × Socket × Process :=
  match k.getaddrinfo with
  | none => (-1, tcp, s)
  | some l =>
    let (bound, tcp, s) := bindLoop l.first l.rest tcp s
    if bound = false then (-1, tcp, s)
    else if k.listen = false then (-1, tcp, s)
    else
      let tcp := { tcp with len := l.first.addrlen }
      (tcp.fd, tcp, { s with freeaddrinfo := s.freeaddrinfo + 1 })

/-- What `interface_tcp_create` does once the socket listens. `list_new` asserts that calloc has
returned a list, so the test of its result finds one. -/
def startListener (k : Kernel) (new : ℕ) (tcp : Socket) (s : Process) : Option (ℤ × Process) :=
  if k.listNew = false then none
  else do
    let list : State ℕ FreeFn := LinkedList.listNew
    let s := { s with sockets := s.sockets.store new { tcp with list := some list } }
    let interfaces ← listPush new s.interfaceList
    let s := { s with interfaceList := interfaces }
    if k.thread = true then some (0, s)
    else do
      let _ ← listDestroy (some .free) list
      let (_, interfaces) ← listDeleteData new s.interfaceList
      some (-1, { s with interfaceList := interfaces, sockets := s.sockets.free new })

/-- `interface_tcp_create`. -/
def interfaceTcpCreate (k : Kernel) (s : Process) : Option (ℤ × Process) :=
  if k.socketNew = false then some (-1, s)
  else
    let new := s.fresh
    let s := { s with sockets := s.sockets.store new socketNew, fresh := new + 1 }
    let (n, tcp, s) := afinetTcpListen k socketNew s
    if n = -1 then some (-1, { s with sockets := s.sockets.free new })
    else startListener k new tcp s

end ThreeW3.Listeners
