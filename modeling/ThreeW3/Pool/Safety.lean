/-
# Runs of the pool

What holds along every run of `mempool_get`, `mempool_free` and client writes.
The pool keeps its promises exactly as long as the stale `prev` link of a head
page is never followed: then no access misses the mapped pages, no stored
pointer dangles, and no chunk is handed out twice. The runs at the end follow
the stale link and lose each of these.
-/

import Mathlib.Tactic.IntervalCases
import ThreeW3.Pool.Operations

namespace ThreeW3.Pool

open ThreeW3.Lib

variable {L : Layout} {G : Geometry L}

/-- 4096-byte pages with the 48-byte header of an LP64 platform. -/
def lp64 : Layout := { pageBits := 12, dataOffset := 48, header_fits := by decide }

/-- Two chunks of 2000 bytes a page. -/
def twoAPage : Geometry lp64 :=
  { size := 2000, cpp := 2, size_pos := by decide, cpp_pos := by decide,
    chunks_fit := by decide }

/-- Three chunks of 1344 bytes a page. -/
def threeAPage : Geometry lp64 :=
  { size := 1344, cpp := 3, size_pos := by decide, cpp_pos := by decide,
    chunks_fit := by decide }

example : mempoolNew lp64 2000 = some (some twoAPage) := rfl

example : mempoolNew lp64 1344 = some (some threeAPage) := rfl

/-- The call does not empty a head page that has a stale link and a successor. -/
def Call.Orderly (L : Layout) (c : Client) : Call → Prop
  | .free p => ¬ EmptiesStaleHead L c.mem p
  | _ => True

/-- The call does not fill a head page that has a successor. -/
def Call.KeepsHead (G : Geometry L) (c : Client) : Call → Prop
  | .get _ => ¬ FillsLinkedHead G c.mem
  | _ => True

instance (c : Client) (call : Call) : Decidable (call.Orderly L c) := by
  cases call <;> unfold Call.Orderly <;> infer_instance

instance (c : Client) (call : Call) : Decidable (call.KeepsHead G c) := by
  cases call <;> unfold Call.KeepsHead <;> infer_instance

/-! ## One step -/

/-- Every enabled call on a pool in order returns and leaves a pool in order,
unless it empties a stale head. Stale links come only from filling a head that
has a successor. -/
theorem Client.step_spec {c : Client} {call : Call} {l : List ℕ} {stale : Ptr}
    (hI : Inv G c.mem c.out l stale) (henabled : call.Enabled L c) (hguard : call.Orderly L c) :
    ∃ c' l' stale', c.step G call = some c' ∧ Inv G c'.mem c'.out l' stale' ∧
      (¬ call.KeepsHead G c → l' ≠ [] ∧ stale' ≠ none) ∧
      (stale = none → call.KeepsHead G c → stale' = none) := by
  cases call with
  | get fresh =>
      obtain ⟨m', p, l', stale', hget, _, hI', hfills, hs⟩ := mempoolGet_spec hI henabled
      exact ⟨⟨m', p :: c.out⟩, l', stale', by simp [Client.step, hget], hI',
        fun h => hfills (not_not.mp h), hs⟩
  | free p =>
      obtain ⟨m', l', stale', hfree, hI', hs⟩ := mempoolFree_spec hI henabled hguard
      exact ⟨⟨m', c.out.erase p⟩, l', stale', by simp [Client.step, hfree], hI',
        fun h => absurd trivial h, fun h _ => hs h⟩
  | write p v =>
      have hlist : PageList G { c.mem with word := Function.update c.mem.word p v } l stale :=
        ⟨hI.list.nodup, hI.list.head, hI.list.next, hI.list.prev, hI.list.mem_iff,
          hI.list.off_list, hI.list.stale_mapped⟩
      exact ⟨_, l, stale, rfl, ⟨hI.chunks.write henabled v, hI.inuse_pos, hlist⟩,
        fun h => absurd trivial h, fun h _ => h⟩

/-- A pool in order, with its clients. -/
def InOrder (G : Geometry L) (c : Client) : Prop := ∃ l stale, Inv G c.mem c.out l stale

theorem inOrder_init : InOrder G (machine G).init := ⟨[], none, Inv.init⟩

theorem inOrder_step (c : Client) (call : Call) (hI : InOrder G c)
    (henabled : (machine G).enabled c call) (hguard : call.Orderly L c) :
    ∃ c', (machine G).step c call = some c' ∧ InOrder G c' := by
  obtain ⟨l, stale, hI⟩ := hI
  obtain ⟨c', l', stale', hstep, hI', _⟩ := Client.step_spec hI henabled hguard
  exact ⟨c', hstep, l', stale', hI'⟩

/-- A head without a stale link cannot be emptied into harm. -/
theorem Inv.orderly {c : Client} {call : Call} {l : List ℕ} (hI : Inv G c.mem c.out l none) :
    call.Orderly L c := by
  cases call with
  | get fresh => trivial
  | write p v => trivial
  | free p =>
      rintro ⟨hhead, h, hh, _, hprev, _⟩
      cases l with
      | nil => simp [hI.list.head] at hhead
      | cons a l =>
          obtain rfl : a = L.pageOf p := by simpa [hI.list.head] using hhead
          exact hprev (hI.list.head_links hh).2

/-! ## Chunks are exclusive -/

/-- A chunk that the call returns lies in the data area of a mapped page, apart
from every chunk that is held. -/
def ReturnsExclusive (G : Geometry L) (c : Client) : Call → Prop
  | .get fresh => ∃ c' p, c.step G (.get fresh) = some c' ∧ c'.out = p :: c.out ∧
      InData G c'.mem.page.load p ∧ ∀ q ∈ c.out, Apart G p q
  | _ => True

theorem returnsExclusive_of_inOrder (c : Client) (call : Call) (hI : InOrder G c)
    (henabled : (machine G).enabled c call) (_ : call.Orderly L c) : ReturnsExclusive G c call := by
  cases call with
  | free p => trivial
  | write p v => trivial
  | get fresh =>
      obtain ⟨l, stale, hI⟩ := hI
      obtain ⟨m', p, l', stale', hget, hp, hI', _⟩ := mempoolGet_spec hI henabled
      have hin : ∀ q ∈ p :: c.out, InData G m'.page.load q := fun q hq => hI'.chunks.inData hq
      refine ⟨⟨m', p :: c.out⟩, p, by simp [Client.step, hget], rfl, hin p (by simp), ?_⟩
      intro q hq
      exact hI'.chunks.apart (hin p (by simp)) (hin q (by simp [hq])) fun heq => hp (heq ▸ hq)

/-- A run that never empties a stale head never faults, and each chunk that it
is given lies in a mapped page, apart from all chunks held at that time. -/
theorem get_exclusive (calls : List Call) (hvalid : (machine G).Valid (machine G).init calls)
    (hguard : (machine G).AllSteps (fun c call => call.Orderly L c) (machine G).init calls) :
    (∃ c, (machine G).exec (machine G).init calls = some c) ∧
      (machine G).AllSteps (ReturnsExclusive G) (machine G).init calls := by
  obtain ⟨⟨c, hexec, _⟩, _⟩ :=
    Machine.run_invariant inOrder_step inOrder_init hvalid hguard
  exact ⟨⟨c, hexec⟩,
    Machine.allSteps_of_invariant inOrder_step returnsExclusive_of_inOrder inOrder_init hvalid
      hguard⟩

/-- Fill a page while another follows it, and give the chunk back: the stale
link appears and is overwritten. -/
def refill : List Call :=
  let c := fun page i => chunk twoAPage (page * 4096) i
  [.get 4096, .get 0, .get 8192, .free (c 1 0), .get 0, .free (c 1 1), .free (c 2 0), .get 0]

theorem refill_exclusive :
    (∃ c, (machine twoAPage).exec (machine twoAPage).init refill = some c) ∧
      (machine twoAPage).AllSteps (ReturnsExclusive twoAPage) (machine twoAPage).init refill :=
  get_exclusive refill (by decide) (by decide)

/-- Empty a stale head (page 2, behind page 1), fill and reopen page 4, put page
3 before it, and empty page 1, which still links to page 4. Page 4 is on the
list with null links, enters it again, and closes a cycle that keeps it there
when it is full. -/
def cycle : List Call :=
  let c := fun page i => chunk threeAPage (page * 4096) i
  [.get 4096, .get 0, .get 0, .get 8192, .get 0, .get 0, .get 12288, .get 0, .get 0,
    .get 16384, .free (c 2 0), .free (c 1 0), .get 0, .free (c 2 1), .free (c 2 2),
    .get 0, .get 0, .free (c 4 0), .free (c 3 0), .free (c 1 0), .free (c 1 1), .free (c 1 2),
    .free (c 4 1), .get 0, .get 0, .get 0]

/-- After `cycle` the next chunk starts past the last chunk of page 4 and ends
past the page. -/
theorem get_not_exclusive :
    (machine threeAPage).Valid (machine threeAPage).init (cycle ++ [.get 0]) ∧
      ¬ (machine threeAPage).AllSteps (ReturnsExclusive threeAPage) (machine threeAPage).init
        (cycle ++ [.get 0]) := by
  refine ⟨by decide, fun hall => ?_⟩
  obtain ⟨c, hexec⟩ : ∃ c, (machine threeAPage).exec (machine threeAPage).init cycle = some c :=
    Option.isSome_iff_exists.mp (by decide)
  obtain ⟨c', p, hstep, hout, ⟨a, h, i, ha, hi, hp⟩, _⟩ := hall.last hexec
  have hfacts : ∀ c' ∈ (machine threeAPage).exec (machine threeAPage).init (cycle ++ [.get 0]),
      c'.out.head? = some 20464 ∧ c'.mem.page.load 20416 = none ∧
        c'.mem.page.load 19072 = none ∧ c'.mem.page.load 17728 = none := by decide
  obtain ⟨hhead, h₀, h₁, h₂⟩ := hfacts c' (by
    rw [Machine.exec_append, hexec]
    exact Machine.exec_cons_of_step hstep [])
  obtain rfl : p = 20464 := by simpa [hout] using hhead
  have ha' : a = 20464 - 48 - i * 1344 := by
    simp only [chunk, threeAPage, lp64] at hp
    omega
  subst ha'
  have hi3 : i < 3 := hi
  interval_cases i
  · exact absurd (h₀.symm.trans ha) (by simp)
  · exact absurd (h₁.symm.trans ha) (by simp)
  · exact absurd (h₂.symm.trans ha) (by simp)

/-! ## Nothing dangles -/

/-- Every pointer to a page that the pool stores leads to a mapped page. -/
def NoDangling (m : State) : Prop :=
  (∀ a ∈ m.pages, ∃ h, m.page.load a = some h) ∧
    ∀ a h, m.page.load a = some h →
      (∀ b ∈ h.next, ∃ k, m.page.load b = some k) ∧ ∀ b ∈ h.prev, ∃ k, m.page.load b = some k

theorem Inv.noDangling {m : State} {out l : List ℕ} {stale : Ptr} (hI : Inv G m out l stale) :
    NoDangling m := by
  refine ⟨fun a ha => ?_, fun a h hh => ?_⟩
  · rw [hI.list.head] at ha
    obtain ⟨h, hh, _⟩ := hI.list.exists_load (List.mem_of_head? ha)
    exact ⟨h, hh⟩
  · obtain ⟨hn, hv⟩ := hI.list.neighbours hh
    exact ⟨fun b hb => (hn b hb).2, fun b hb => (hv b hb).2⟩

/-- A run that never empties a stale head touches mapped pages only and stores
no pointer to an unmapped one. -/
theorem run_noDangling (calls : List Call) (hvalid : (machine G).Valid (machine G).init calls)
    (hguard : (machine G).AllSteps (fun c call => call.Orderly L c) (machine G).init calls) :
    (∃ c, (machine G).exec (machine G).init calls = some c) ∧
      (machine G).AllStates (fun c => NoDangling c.mem) (machine G).init calls := by
  obtain ⟨⟨c, hexec, _⟩, hall⟩ :=
    Machine.run_invariant inOrder_step inOrder_init hvalid hguard
  exact ⟨⟨c, hexec⟩, hall.mono fun c hI => by
    obtain ⟨l, stale, hI⟩ := hI
    exact hI.noDangling⟩

theorem refill_noDangling :
    (∃ c, (machine twoAPage).exec (machine twoAPage).init refill = some c) ∧
      (machine twoAPage).AllStates (fun c => NoDangling c.mem) (machine twoAPage).init refill :=
  run_noDangling refill (by decide) (by decide)

/-- Empty a stale head (page 2, behind page 1), fill page 3, which page 1 now
links to, and give back everything: page 3 is unmapped first. -/
def dangle : List Call :=
  let c := fun page i => chunk twoAPage (page * 4096) i
  [.get 4096, .get 0, .get 8192, .get 0, .get 12288, .free (c 2 0), .free (c 1 0), .get 0,
    .free (c 2 1), .get 0, .free (c 3 0), .free (c 3 1)]

/-- After `dangle` page 1 links to the unmapped page 3, and giving its two
chunks back writes there. -/
theorem dangle_faults :
    let M := machine twoAPage
    let c := fun i => chunk twoAPage 4096 i
    M.Valid M.init (dangle ++ [.free (c 0), .free (c 1)]) ∧
      ¬ M.AllStates (fun c => NoDangling c.mem) M.init dangle ∧
      M.exec M.init (dangle ++ [.free (c 0), .free (c 1)]) = none := by
  refine ⟨by decide, fun hall => ?_, by decide⟩
  obtain ⟨c, hexec⟩ : ∃ c, (machine twoAPage).exec (machine twoAPage).init dangle = some c :=
    Option.isSome_iff_exists.mp (by decide)
  have hfacts : ∀ c ∈ (machine twoAPage).exec (machine twoAPage).init dangle,
      c.mem.next 4096 = some 12288 ∧ c.mem.page.load 12288 = none := by decide
  obtain ⟨hnext, hnone⟩ := hfacts c hexec
  obtain ⟨h, hh, hlink⟩ := Option.bind_eq_some_iff.mp hnext
  obtain ⟨k, hk⟩ := ((hall.last hexec).2 4096 h hh).1 12288 hlink
  exact absurd (hnone.symm.trans hk) (by simp)

/-! ## The list holds the pages with room -/

/-- The chain from `pages` is finite, starts with a null `prev`, has `prev`
inverse to `next`, and holds exactly the mapped pages with room. -/
def RoomListOk (G : Geometry L) (m : State) : Prop :=
  ∃ l : List ℕ, l.Nodup ∧ m.pages = l.head? ∧ Chain m.next l none ∧
    Chain m.prev l.reverse none ∧ ∀ a, a ∈ l ↔ ∃ h, m.page.load a = some h ∧ h.inuse < G.cpp

/-- `mempool_get` maps a page only if every mapped page is full. -/
def MapsWhenFull (G : Geometry L) (m : State) : Prop :=
  m.pages = none → ∀ a h, m.page.load a = some h → h.inuse = G.cpp

theorem RoomListOk.head_prev {m : State} {a : ℕ} (hl : RoomListOk G m) (ha : m.pages = some a) :
    m.prev a = none := by
  obtain ⟨l, _, hhead, _, hprev, _⟩ := hl
  cases l with
  | nil => simp [hhead] at ha
  | cons b l =>
      obtain rfl : b = a := by simpa [hhead] using ha
      rw [List.reverse_cons] at hprev
      exact hprev.last_link

theorem Inv.roomListOk {m : State} {out l : List ℕ} (hI : Inv G m out l none) :
    RoomListOk G m ∧ MapsWhenFull G m := by
  refine ⟨⟨l, hI.list.nodup, hI.list.head, hI.list.next, hI.list.prev, hI.list.mem_iff⟩, ?_⟩
  intro hnone a h hh
  have hle := hI.chunks.inuse_le hh
  by_contra hne
  have hal : a ∈ l := (hI.list.mem_iff a).mpr ⟨h, hh, by omega⟩
  rw [hI.list.head, List.head?_eq_none_iff] at hnone
  simp [hnone] at hal

theorem Inv.not_roomListOk {m : State} {out l : List ℕ} {stale : Ptr}
    (hI : Inv G m out l stale) (hl : l ≠ []) (hstale : stale ≠ none) : ¬ RoomListOk G m := by
  intro hok
  obtain ⟨a, l, rfl⟩ := List.exists_cons_of_ne_nil hl
  have hprev := hI.list.prev
  rw [List.reverse_cons] at hprev
  exact hstale (hprev.last_link.symm.trans (hok.head_prev (a := a) hI.list.head))

/-- The list of pages with room is in order in every state of a run exactly
when no call fills a head page that has a successor. -/
theorem roomListOk_iff (calls : List Call) (hvalid : (machine G).Valid (machine G).init calls) :
    ((∃ c, (machine G).exec (machine G).init calls = some c) ∧
        (machine G).AllStates (fun c => RoomListOk G c.mem ∧ MapsWhenFull G c.mem)
          (machine G).init calls) ↔
      (machine G).AllSteps (fun c call => call.KeepsHead G c) (machine G).init calls := by
  refine Machine.run_iff_guard (I := fun c => ∃ l, Inv G c.mem c.out l none)
    (fun c ⟨l, hI⟩ => hI.roomListOk) ?_ ?_ ⟨[], Inv.init⟩ hvalid
  · rintro c call ⟨l, hI⟩ henabled hkeeps
    obtain ⟨c', l', stale', hstep, hI', _, hs⟩ := Client.step_spec hI henabled hI.orderly
    obtain rfl := hs rfl hkeeps
    exact ⟨c', hstep, l', hI'⟩
  · rintro c call ⟨l, hI⟩ henabled hfills c' hstep
    obtain ⟨c'', l', stale', hstep', hI', hbad, _⟩ := Client.step_spec hI henabled hI.orderly
    obtain rfl : c'' = c' := Option.some.inj (hstep'.symm.trans hstep)
    exact fun hok => hI'.not_roomListOk (hbad hfills).1 (hbad hfills).2 hok.1

/-- A page fills up, opens again and is given back while another has room. -/
def reopen : List Call :=
  let c := fun page i => chunk twoAPage (page * 4096) i
  [.get 4096, .get 0, .get 8192, .free (c 1 0), .free (c 1 1), .get 0]

theorem reopen_roomListOk :
    (∃ c, (machine twoAPage).exec (machine twoAPage).init reopen = some c) ∧
      (machine twoAPage).AllStates
        (fun c => RoomListOk twoAPage c.mem ∧ MapsWhenFull twoAPage c.mem)
        (machine twoAPage).init reopen :=
  (roomListOk_iff reopen (by decide)).mpr (by decide)

/-- The head fills up while another page follows it. -/
def fillHead : List Call :=
  [.get 4096, .get 0, .get 8192, .free (chunk twoAPage 4096 0), .get 0]

/-- After `fillHead` the head of the list has the full page as its `prev`. -/
theorem fillHead_not_roomListOk :
    (machine twoAPage).Valid (machine twoAPage).init fillHead ∧
      ¬ (machine twoAPage).AllStates (fun c => RoomListOk twoAPage c.mem)
        (machine twoAPage).init fillHead := by
  refine ⟨by decide, fun hall => ?_⟩
  obtain ⟨c, hexec⟩ : ∃ c, (machine twoAPage).exec (machine twoAPage).init fillHead = some c :=
    Option.isSome_iff_exists.mp (by decide)
  have hfacts : ∀ c ∈ (machine twoAPage).exec (machine twoAPage).init fillHead,
      c.mem.pages = some 8192 ∧ c.mem.prev 8192 = some 4096 := by decide
  obtain ⟨hpages, hprev⟩ := hfacts c hexec
  exact absurd (hprev.symm.trans ((hall.last hexec).head_prev hpages)) (by simp)

end ThreeW3.Pool
