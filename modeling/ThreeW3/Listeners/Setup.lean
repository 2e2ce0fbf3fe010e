/-
# All or nothing

What `interface_tcp_create` leaves behind. Nothing on its way back closes a descriptor,
and only the way to success frees the address list; and of several addresses all but the
last leave their descriptor open.
-/

import ThreeW3.Listeners.Model

namespace ThreeW3.Listeners

open Lib LinkedList

/-! ## The list of listeners -/

/-- The memory of a list in order, with iterators on it or not. -/
def InOrder (m : State ℕ FreeFn) : Prop := ∃ a, Refines m a ∧ a.Ok

theorem InOrder.new : InOrder (listNew : State ℕ FreeFn) := ⟨Pinned.new, .new, .new⟩

theorem InOrder.push {m : State ℕ FreeFn} (h : InOrder m) (p : ℕ) :
    ∃ m', listPush p m = some m' ∧ InOrder m' ∧ liveData m' = liveData m ++ [p] := by
  obtain ⟨a, hrefines, ok⟩ := h
  obtain ⟨m', hpush, hrefines'⟩ := hrefines.insert ok .fwd p
  have ok' := ok.insert .fwd p
  refine ⟨m', hpush, ⟨_, hrefines', ok'⟩, ?_⟩
  rw [hrefines'.liveData_eq ok', hrefines.liveData_eq ok, Pinned.data_insert ok]
  rfl

theorem InOrder.deleteData {m : State ℕ FreeFn} (h : InOrder m) (p : ℕ) :
    ∃ n m', listDeleteData p m = some (n, m') ∧ InOrder m' ∧
      liveData m' = (liveData m).filter (· ≠ p) := by
  obtain ⟨a, hrefines, ok⟩ := h
  obtain ⟨m', b, hdelete, hrefines', hpass, hdata⟩ := hrefines.deleteData ok p
  refine ⟨_, m', hdelete, ⟨b, hrefines', hpass.ok⟩, ?_⟩
  rw [hrefines'.liveData_eq hpass.ok, hrefines.liveData_eq ok, hdata]

/-! ## The condition -/

/-- All calls for an address succeed. -/
structure Address.Binds (a : Address) : Prop where
  socket : a.socket.isSome = true
  setsockopt : a.setsockopt = true
  bind : a.bind = true

namespace Kernel

/-- An address list is obtained. -/
def Obtains (k : Kernel) : Prop := k.socketNew = true ∧ k.getaddrinfo.isSome = true

instance (k : Kernel) : Decidable k.Obtains := inferInstanceAs (Decidable (_ ∧ _))

/-- The address list has one address, and all calls succeed. -/
structure Smooth (k : Kernel) : Prop where
  single : ∃ a, k.getaddrinfo = some ⟨a, []⟩ ∧ a.Binds
  listen : k.listen = true
  listNew : k.listNew = true
  thread : k.thread = true

end Kernel

/-! ## The property -/

/-- One descriptor more is open, that of the one entry that `interface_list` has got. -/
def Listening (s t : Process) : Prop :=
  ∃ new tcp fd, liveData t.interfaceList = liveData s.interfaceList ++ [new] ∧
    t.sockets.load new = some tcp ∧ tcp.fd = (fd : ℕ) ∧ t.opened.Perm (fd :: s.opened)

/-- No descriptor more is open, and `interface_list` is as it was. -/
structure Undone (s t : Process) : Prop where
  opened_perm : t.opened.Perm s.opened
  liveData_eq : liveData t.interfaceList = liveData s.interfaceList

/-- `interface_tcp_create` has set a listener up and returns 0, or has undone everything and
returns -1; and it has freed the address list once if it has got one. -/
def SetUp (k : Kernel) (s : Process) (r : Option (ℤ × Process)) : Prop :=
  ∃ n t, r = some (n, t) ∧ ((n = 0 ∧ Listening s t) ∨ (n = -1 ∧ Undone s t)) ∧
    t.freeaddrinfo = s.freeaddrinfo + if k.Obtains then 1 else 0

theorem not_setUp_none {k : Kernel} {s : Process} : ¬ SetUp k s none := by
  rintro ⟨n, t, hnone, -⟩
  cases hnone

theorem setUp_some_iff {k : Kernel} {s t : Process} {n : ℤ} :
    SetUp k s (some (n, t)) ↔ ((n = 0 ∧ Listening s t) ∨ (n = -1 ∧ Undone s t)) ∧
      t.freeaddrinfo = s.freeaddrinfo + if k.Obtains then 1 else 0 := by
  constructor
  · rintro ⟨n', t', heq, h⟩
    obtain ⟨rfl, rfl⟩ := Prod.mk.inj (Option.some.inj heq)
    exact h
  · exact fun h => ⟨n, t, rfl, h⟩

/-! ## Binding -/

variable {k : Kernel} {s : Process} {tcp : Socket} {a : Address} {rest : List Address}

/-- An address that fails ends the loop. -/
theorem bindLoop_of_not_binds (h : ¬ a.Binds) :
    ∃ tcp' fds, bindLoop a rest tcp s = (false, tcp', { s with opened := fds ++ s.opened }) := by
  rw [bindLoop.eq_def]
  dsimp only
  cases hsocket : a.socket with
  | none => exact ⟨_, [], rfl⟩
  | some fd =>
      dsimp only
      split_ifs with hsetsockopt hbind
      · exact ⟨_, [fd], rfl⟩
      · exact ⟨_, [fd], rfl⟩
      · exact absurd ⟨by rw [hsocket]; rfl, by simpa using hsetsockopt, by simpa using hbind⟩ h

/-- One that does not fail leaves its descriptor open. -/
theorem bindLoop_of_binds (rest : List Address) (tcp : Socket) (s : Process) (h : a.Binds) :
    ∃ fd : ℕ, bindLoop a rest tcp s =
      match rest with
      | [] => (true, { tcp with fd := fd }, { s with opened := fd :: s.opened })
      | b :: rest => bindLoop b rest { tcp with fd := fd } { s with opened := fd :: s.opened } := by
  obtain ⟨fd, hsocket⟩ := Option.isSome_iff_exists.mp h.socket
  refine ⟨fd, ?_⟩
  rw [bindLoop.eq_def]
  cases rest <;> simp only [hsocket, h.setsockopt, h.bind, Bool.true_eq_false, if_false]

theorem bindLoop_fails (tcp : Socket) (s : Process) (h : ¬ ∀ b ∈ a :: rest, b.Binds) :
    ∃ tcp' fds, bindLoop a rest tcp s = (false, tcp', { s with opened := fds ++ s.opened }) := by
  induction rest generalizing a tcp s with
  | nil => exact bindLoop_of_not_binds (by simpa using h)
  | cons b rest ih =>
      by_cases hbinds : a.Binds
      · obtain ⟨fd, hstep⟩ := bindLoop_of_binds (b :: rest) tcp s hbinds
        rw [List.forall_mem_cons] at h
        obtain ⟨tcp', fds, hrest⟩ := ih { tcp with fd := fd }
          { s with opened := fd :: s.opened } fun hall => h ⟨hbinds, hall⟩
        refine ⟨tcp', fds ++ [fd], hstep.trans (hrest.trans ?_)⟩
        rw [List.append_assoc, List.singleton_append]
      · exact bindLoop_of_not_binds hbinds

theorem bindLoop_binds (tcp : Socket) (s : Process) (h : ∀ b ∈ a :: rest, b.Binds) :
    ∃ (fd : ℕ) (fds : List ℕ), fds.length = rest.length ∧ bindLoop a rest tcp s =
      (true, { tcp with fd := fd }, { s with opened := fd :: (fds ++ s.opened) }) := by
  induction rest generalizing a tcp s with
  | nil =>
      obtain ⟨fd, hstep⟩ := bindLoop_of_binds [] tcp s
        (h a List.mem_cons_self)
      exact ⟨fd, [], rfl, hstep⟩
  | cons b rest ih =>
      obtain ⟨fd, hstep⟩ := bindLoop_of_binds (b :: rest) tcp s
        (h a List.mem_cons_self)
      obtain ⟨fd', fds, hlength, hrest⟩ := ih { tcp with fd := fd }
        { s with opened := fd :: s.opened } (List.forall_mem_cons.mp h).2
      refine ⟨fd', fds ++ [fd], by simp [hlength], hstep.trans (hrest.trans ?_)⟩
      rw [List.append_assoc, List.singleton_append]

/-! ## Listening -/

/-- The addresses can be bound, and the last one listens. -/
def Kernel.Listens (k : Kernel) (l : Addresses) : Prop :=
  (∀ a ∈ l.first :: l.rest, a.Binds) ∧ k.listen = true

variable {l : Addresses}

/-- A failure of `afinet_tcp_listen` frees and closes nothing. -/
theorem afinetTcpListen_fails (tcp : Socket) (s : Process) (hl : k.getaddrinfo = some l)
    (h : ¬ k.Listens l) :
    ∃ tcp' fds, afinetTcpListen k tcp s = (-1, tcp', { s with opened := fds ++ s.opened }) := by
  rw [afinetTcpListen.eq_def, hl]
  dsimp only
  by_cases hbinds : ∀ b ∈ l.first :: l.rest, b.Binds
  · obtain ⟨fd, fds, -, hloop⟩ := bindLoop_binds tcp s hbinds
    have hlisten : k.listen = false := by
      simpa using fun hlisten => h ⟨hbinds, hlisten⟩
    simp only [hloop, Bool.true_eq_false, if_false, hlisten, if_true]
    exact ⟨_, fd :: fds, rfl⟩
  · obtain ⟨tcp', fds, hloop⟩ := bindLoop_fails tcp s hbinds
    simp only [hloop, if_true]
    exact ⟨tcp', fds, rfl⟩

theorem afinetTcpListen_listens (tcp : Socket) (s : Process) (hl : k.getaddrinfo = some l)
    (h : k.Listens l) :
    ∃ (fd : ℕ) (fds : List ℕ), fds.length = l.rest.length ∧ afinetTcpListen k tcp s =
      ((fd : ℤ), { tcp with fd := fd, len := l.first.addrlen },
        { s with opened := fd :: (fds ++ s.opened), freeaddrinfo := s.freeaddrinfo + 1 }) := by
  obtain ⟨fd, fds, hlength, hloop⟩ := bindLoop_binds tcp s h.1
  refine ⟨fd, fds, hlength, ?_⟩
  rw [afinetTcpListen.eq_def, hl]
  simp only [hloop, h.2, Bool.true_eq_false, if_false]

/-! ## Starting -/

/-- The thread is created: the socket has its entry in `interface_list`. -/
theorem startListener_starts (h : InOrder s.interfaceList) (hlist : k.listNew = true)
    (hthread : k.thread = true) (new : ℕ) (tcp : Socket) :
    ∃ t tcp', startListener k new tcp s = some (0, t) ∧ t.opened = s.opened ∧
      t.freeaddrinfo = s.freeaddrinfo ∧ InOrder t.interfaceList ∧
      liveData t.interfaceList = liveData s.interfaceList ++ [new] ∧
      t.sockets.load new = some tcp' ∧ tcp'.fd = tcp.fd := by
  obtain ⟨m, hpush, hm, hdata⟩ := h.push new
  have hstart : startListener k new tcp s = _ := startListener.eq_def k new tcp s
  simp only [hlist, hthread, hpush, Bool.true_eq_false, if_false, if_true, Option.bind_eq_bind,
    Option.bind_some] at hstart
  exact ⟨_, _, hstart, rfl, rfl, hm, hdata, Heap.load_store_self, rfl⟩

/-- It is not: the entry is taken back, the descriptor stays open. -/
theorem startListener_fails (h : InOrder s.interfaceList) (hlist : k.listNew = true)
    (hthread : k.thread = false) (new : ℕ) (tcp : Socket) :
    ∃ t, startListener k new tcp s = some (-1, t) ∧ t.opened = s.opened ∧
      t.freeaddrinfo = s.freeaddrinfo ∧ InOrder t.interfaceList ∧
      (new ∉ liveData s.interfaceList → liveData t.interfaceList = liveData s.interfaceList) := by
  obtain ⟨m, hpush, hm, hdata⟩ := h.push new
  obtain ⟨m₀, hdestroy, -⟩ :=
    (Refines.new : Refines (listNew : State ℕ FreeFn) Pinned.new).destroy .new (some .free)
  obtain ⟨n, m', hdelete, hm', hdata'⟩ := hm.deleteData new
  have hstart : startListener k new tcp s = _ := startListener.eq_def k new tcp s
  simp only [hlist, hthread, hpush, hdestroy, hdelete, Bool.true_eq_false, Bool.false_eq_true,
    if_false, Option.bind_eq_bind, Option.bind_some] at hstart
  refine ⟨_, hstart, rfl, rfl, hm', fun hnew => ?_⟩
  have hkeep : (liveData s.interfaceList).filter (· ≠ new) = liveData s.interfaceList := by
    rw [List.filter_eq_self]
    intro p hp
    simpa using fun heq : p = new => hnew (heq ▸ hp)
  show liveData m' = liveData s.interfaceList
  rw [hdata', hdata, List.filter_append, hkeep, List.filter_cons_of_neg (by simp),
    List.filter_nil, List.append_nil]

/-! ## The whole call -/

theorem Kernel.smooth_iff (hl : k.getaddrinfo = some l) :
    k.Smooth ↔ l.rest = [] ∧ k.Listens l ∧ k.listNew = true ∧ k.thread = true := by
  constructor
  · rintro ⟨⟨a, hsingle, hbinds⟩, hlisten, hlist, hthread⟩
    obtain rfl : l = ⟨a, []⟩ := Option.some.inj (hl.symm.trans hsingle)
    exact ⟨rfl, ⟨by simpa using hbinds, hlisten⟩, hlist, hthread⟩
  · obtain ⟨a, rest⟩ := l
    rintro ⟨rfl, ⟨hbinds, hlisten⟩, hlist, hthread⟩
    exact ⟨⟨a, hl, hbinds a List.mem_cons_self⟩, hlisten, hlist, hthread⟩

/-- A call that has not come to listen returns -1 and has freed no address list. -/
theorem interfaceTcpCreate_fails (hsocket : k.socketNew = true) (hl : k.getaddrinfo = some l)
    (hlistens : ¬ k.Listens l) :
    ∃ t, interfaceTcpCreate k s = some (-1, t) ∧ t.freeaddrinfo = s.freeaddrinfo ∧
      t.interfaceList = s.interfaceList := by
  obtain ⟨tcp, fds, hlisten⟩ := afinetTcpListen_fails socketNew
    { s with sockets := s.sockets.store s.fresh socketNew, fresh := s.fresh + 1 }
    hl hlistens
  rw [interfaceTcpCreate.eq_def]
  simp only [hsocket, hlisten, Bool.true_eq_false, if_false, if_true]
  exact ⟨_, rfl, rfl, rfl⟩

/-- One that has come to listen goes on with a descriptor for each address. -/
theorem interfaceTcpCreate_listens (hsocket : k.socketNew = true) (hl : k.getaddrinfo = some l)
    (hlistens : k.Listens l) :
    ∃ (fd : ℕ) (fds : List ℕ) (u : Process) (tcp : Socket), fds.length = l.rest.length ∧
      interfaceTcpCreate k s = startListener k s.fresh tcp u ∧ tcp.fd = fd ∧
      u.opened = fd :: (fds ++ s.opened) ∧ u.freeaddrinfo = s.freeaddrinfo + 1 ∧
      u.interfaceList = s.interfaceList := by
  obtain ⟨fd, fds, hlength, hlisten⟩ := afinetTcpListen_listens socketNew
    { s with sockets := s.sockets.store s.fresh socketNew, fresh := s.fresh + 1 }
    hl hlistens
  have hfd : (fd : ℤ) ≠ -1 := by omega
  have hcreate : interfaceTcpCreate k s = _ := interfaceTcpCreate.eq_def k s
  simp only [hsocket, hlisten, Bool.true_eq_false, if_false, if_neg hfd] at hcreate
  exact ⟨fd, fds, _, _, hlength, hcreate, rfl, rfl, rfl, rfl⟩

/-- A descriptor that is left open tells the two outcomes apart. -/
theorem setUp_iff_of_opened {t : Process} {n : ℤ} {fd : ℕ} {fds : List ℕ}
    (hopened : t.opened = fd :: (fds ++ s.opened)) (hobtains : k.Obtains)
    (hfreed : t.freeaddrinfo = s.freeaddrinfo + 1) :
    SetUp k s (some (n, t)) ↔ n = 0 ∧ Listening s t := by
  rw [setUp_some_iff, if_pos hobtains]
  constructor
  · rintro ⟨hzero | ⟨-, hundone⟩, -⟩
    · exact hzero
    · have hlength := hundone.opened_perm.length_eq
      rw [hopened, List.length_cons, List.length_append] at hlength
      omega
  · exact fun hzero => ⟨.inl hzero, hfreed⟩

/-- Several addresses leave several descriptors. -/
theorem listening_iff {t : Process} {new : ℕ} {tcp : Socket} {fd : ℕ} {fds : List ℕ}
    (hopened : t.opened = fd :: (fds ++ s.opened))
    (hdata : liveData t.interfaceList = liveData s.interfaceList ++ [new])
    (hload : t.sockets.load new = some tcp) (hfd : tcp.fd = fd) : Listening s t ↔ fds = [] := by
  constructor
  · rintro ⟨_, _, fd', -, -, -, hperm⟩
    have hlength := hperm.length_eq
    rw [hopened, List.length_cons, List.length_append, List.length_cons] at hlength
    exact List.length_eq_zero_iff.mp (by omega)
  · rintro rfl
    exact ⟨new, tcp, fd, hdata, hload, hfd, by rw [hopened, List.nil_append]⟩

/-- With an address list the listener is set up exactly if the list has one address and
nothing fails. -/
theorem setUp_iff_smooth (h : InOrder s.interfaceList) (hsocket : k.socketNew = true)
    (hl : k.getaddrinfo = some l) : SetUp k s (interfaceTcpCreate k s) ↔ k.Smooth := by
  have hobtains : k.Obtains := ⟨hsocket, by rw [hl]; rfl⟩
  rw [Kernel.smooth_iff hl]
  by_cases hlistens : k.Listens l
  · obtain ⟨fd, fds, u, tcp, hlength, hcreate, hfd, hopened, hfreed, hu⟩ :=
      interfaceTcpCreate_listens (s := s) hsocket hl hlistens
    have hu' : InOrder u.interfaceList := hu ▸ h
    rw [hcreate]
    cases hlist : k.listNew with
    | false =>
        rw [startListener.eq_def, if_pos hlist]
        simp [not_setUp_none]
    | true =>
        cases hthread : k.thread with
        | false =>
            obtain ⟨t, hstart, hopened', hfreed', -⟩ :=
              startListener_fails hu' hlist hthread s.fresh tcp
            rw [hstart, setUp_iff_of_opened (hopened'.trans hopened) hobtains
              (hfreed'.trans hfreed)]
            simp
        | true =>
            obtain ⟨t, tcp', hstart, hopened', hfreed', -, hdata, hload, hfd'⟩ :=
              startListener_starts hu' hlist hthread s.fresh tcp
            rw [hstart, setUp_iff_of_opened (hopened'.trans hopened) hobtains
              (hfreed'.trans hfreed), listening_iff (hopened'.trans hopened) (hu ▸ hdata) hload
              (hfd'.trans hfd), ← List.length_eq_zero_iff, hlength, List.length_eq_zero_iff]
            simp [hlistens]
  · obtain ⟨t, hcreate, hfreed, -⟩ := interfaceTcpCreate_fails (s := s) hsocket hl hlistens
    rw [hcreate, setUp_some_iff, if_pos hobtains, hfreed]
    simp [hlistens]

/-- A call that gets no address list returns -1 and leaves nothing. -/
theorem interfaceTcpCreate_of_not_obtains (h : ¬ k.Obtains) :
    ∃ t, interfaceTcpCreate k s = some (-1, t) ∧ t.opened = s.opened ∧
      t.interfaceList = s.interfaceList ∧ t.freeaddrinfo = s.freeaddrinfo := by
  have hcreate : interfaceTcpCreate k s = _ := interfaceTcpCreate.eq_def k s
  cases hsocket : k.socketNew with
  | false =>
      rw [if_pos hsocket] at hcreate
      exact ⟨s, hcreate, rfl, rfl, rfl⟩
  | true =>
      cases hl : k.getaddrinfo with
      | none =>
          simp only [hsocket, afinetTcpListen.eq_def, hl, Bool.true_eq_false, if_false,
            if_true] at hcreate
          exact ⟨_, hcreate, rfl, rfl, rfl⟩
      | some l => exact absurd ⟨hsocket, by rw [hl]; rfl⟩ h

/-- `interface_list` stays in order, whatever fails, and the entry is there exactly if the
call returns 0. -/
theorem interfaceTcpCreate_list {n : ℤ} {t : Process} (h : InOrder s.interfaceList)
    (hnew : s.fresh ∉ liveData s.interfaceList) (hreturns : interfaceTcpCreate k s = some (n, t)) :
    InOrder t.interfaceList ∧ liveData t.interfaceList =
      liveData s.interfaceList ++ if n = 0 then [s.fresh] else [] := by
  have hsame : ∀ {u}, interfaceTcpCreate k s = some (-1, u) → u.interfaceList = s.interfaceList →
      InOrder t.interfaceList ∧ liveData t.interfaceList =
        liveData s.interfaceList ++ if n = 0 then [s.fresh] else [] := by
    intro u hu hlist
    obtain ⟨rfl, rfl⟩ := Prod.mk.inj (Option.some.inj (hu.symm.trans hreturns))
    rw [hlist, if_neg (by decide), List.append_nil]
    exact ⟨h, rfl⟩
  by_cases hobtains : k.Obtains
  · obtain ⟨hsocket, hsome⟩ := hobtains
    obtain ⟨l, hl⟩ := Option.isSome_iff_exists.mp hsome
    by_cases hlistens : k.Listens l
    · obtain ⟨fd, fds, u, tcp, -, hcreate, -, -, -, hu⟩ :=
        interfaceTcpCreate_listens (s := s) hsocket hl hlistens
      rw [hcreate] at hreturns
      cases hlist : k.listNew with
      | false =>
          rw [startListener.eq_def, if_pos hlist] at hreturns
          cases hreturns
      | true =>
          cases hthread : k.thread with
          | false =>
              obtain ⟨t', hstart, -, -, ht, hdata⟩ :=
                startListener_fails (hu ▸ h) hlist hthread s.fresh tcp
              obtain ⟨rfl, rfl⟩ := Prod.mk.inj (Option.some.inj (hstart.symm.trans hreturns))
              rw [if_neg (by decide), List.append_nil, ← hu]
              exact ⟨ht, hdata (hu ▸ hnew)⟩
          | true =>
              obtain ⟨t', tcp', hstart, -, -, ht, hdata, -⟩ :=
                startListener_starts (hu ▸ h) hlist hthread s.fresh tcp
              obtain ⟨rfl, rfl⟩ := Prod.mk.inj (Option.some.inj (hstart.symm.trans hreturns))
              rw [if_pos rfl, ← hu]
              exact ⟨ht, hdata⟩
    · obtain ⟨u, hcreate, -, hlist⟩ := interfaceTcpCreate_fails (s := s) hsocket hl hlistens
      exact hsame hcreate hlist
  · obtain ⟨u, hcreate, -, hlist, -⟩ := interfaceTcpCreate_of_not_obtains (s := s) hobtains
    exact hsame hcreate hlist

/-- A listener is set up completely or not at all exactly if no address list is obtained, or
the list has one address and nothing fails. -/
theorem setUp_iff (k : Kernel) (s : Process) (h : InOrder s.interfaceList) :
    SetUp k s (interfaceTcpCreate k s) ↔ (k.Obtains → k.Smooth) := by
  by_cases hobtains : k.Obtains
  · obtain ⟨hsocket, hsome⟩ := hobtains
    obtain ⟨l, hl⟩ := Option.isSome_iff_exists.mp hsome
    rw [setUp_iff_smooth h hsocket hl]
    exact ⟨fun hsmooth _ => hsmooth, fun hsmooth => hsmooth ⟨hsocket, hsome⟩⟩
  · obtain ⟨t, hcreate, hopened, hlist, hfreed⟩ := interfaceTcpCreate_of_not_obtains (s := s) hobtains
    simp only [hobtains, IsEmpty.forall_iff, iff_true]
    rw [hcreate, setUp_some_iff, if_neg hobtains, Nat.add_zero]
    exact ⟨.inr ⟨rfl, by rw [hopened], by rw [hlist]⟩, hfreed⟩

/-- No listener yet, the standard descriptors open. -/
def idle : Process := ⟨[0, 1, 2], 0, .empty, 0, listNew⟩

/-- One address, and nothing fails. -/
def oneAddress : Kernel := ⟨true, some ⟨⟨16, some 3, true, true⟩, []⟩, true, true, true⟩

theorem oneAddress_setUp : SetUp oneAddress idle (interfaceTcpCreate oneAddress idle) :=
  (setUp_iff oneAddress idle InOrder.new).mpr fun _ =>
    ⟨⟨_, rfl, ⟨rfl, rfl, rfl⟩⟩, rfl, rfl, rfl⟩

/-- Two addresses, and nothing fails. -/
def twoAddresses : Kernel :=
  ⟨true, some ⟨⟨16, some 3, true, true⟩, [⟨28, some 4, true, true⟩]⟩, true, true, true⟩

/-- One address, in use by another process. -/
def inUse : Kernel := ⟨true, some ⟨⟨16, some 3, true, false⟩, []⟩, true, true, true⟩

/-- The descriptor of the first address stays open, and so does one that is not bound, whose
address list is not freed either. -/
theorem twoAddresses_not_setUp :
    ¬ SetUp twoAddresses idle (interfaceTcpCreate twoAddresses idle) ∧
      ¬ SetUp inUse idle (interfaceTcpCreate inUse idle) := by
  constructor
  · rintro ⟨n, t, ht, hcases, -⟩
    obtain ⟨rfl, rfl⟩ := Prod.mk.inj (Option.some.inj ht)
    rcases hcases with ⟨-, _, _, fd, -, -, -, hperm⟩ | ⟨hminus, -⟩
    · have hlength : 5 = 4 := hperm.length_eq
      cases hlength
    · cases hminus
  · rintro ⟨n, t, ht, -, hfreed⟩
    obtain ⟨rfl, rfl⟩ := Prod.mk.inj (Option.some.inj ht)
    exact absurd hfreed (by decide)

end ThreeW3.Listeners
