/-
# Walks give back what they take

A walk has one reference to the node it is at. In any order of steps the counters of a node
are those of a fresh one, plus one for each walk that is at the node, less one in `rc` for
each removal; so a call that is over has left nothing behind. Only the return from the middle
of `socket_ip2host` keeps its reference.
-/

import ThreeW3.LinkedList.Taking
import ThreeW3.LinkedList.Traversal
import ThreeW3.Walks.Kept

/-! ## Calls and their iterators -/

namespace ThreeW3.LinkedList

open ThreeW3.Lib

universe u v w
variable {ι : Type w} {D : Type u} {F : Type v}

namespace Task

/-- A call with an iterator of its own, or none. -/
def ofCall : Task D → Bool
  | walking c => c.isNone
  | stepping _ _ => false
  | leaving _ => false
  | _ => true

/-- The node that the call may still remove. -/
def removable : Task D → Ptr
  | taking x => some x
  | holding x _ => some x
  | matching _ x _ => some x
  | removing _ x _ => some x
  | _ => none

variable {a : Pinned D F} {i : ι} {t t' : Task D} {es : List (Event ι D)} {op : Op D F}

theorem isSome_op (ht : t.ofCall = true) (hbusy : t ≠ .walking none) :
    (t.op (F := F)).isSome = true := by
  cases t with
  | walking c =>
      obtain rfl := Option.isNone_iff_eq_none.mp ht
      exact absurd rfl hbusy
  | stepping | leaving => cases ht
  | _ => rfl

variable [DecidableEq D]

theorem ofCall_reply {r : Reply D} (ht : t.ofCall = true) (hreply : t.reply i r = some (t', es)) :
    t'.ofCall = true := by
  cases t with
  | walking | stepping | leaving => simp [ofCall, reply] at ht hreply
  | finding | deleting =>
      simp only [reply] at hreply
      split at hreply <;> cases hreply <;> rfl
  | taking | matching =>
      obtain ⟨q, -, heq⟩ := Option.map_eq_some_iff.mp hreply
      cases heq
      first | rfl | split_ifs <;> rfl
  | holding | taken | removing =>
      cases hreply
      rfl

/-- A call that removes a node does so once, and one that comes to a node comes to one that
has not been removed. -/
theorem removals_reply_le (hop : t.op = some op)
    (hreply : t.reply i (op.answer a) = some (t', es)) (x : ℕ) :
    ((op.apply a).removals x + if t'.removable = some x then 1 else 0) ≤
        (a.removals x + if t.removable = some x then 1 else 0) ∨
      (op.apply a).removals x = 0 := by
  have hland : ∀ {d c y}, a.following d c = some y → ∀ z,
      (((a.walk d c).2.removals z + if some y = some z then 1 else 0) ≤ a.removals z ∨
        (a.walk d c).2.removals z = 0) := by
    intro d c y hy z
    have hremovals : (a.walk d c).2.removals z = a.removals z := by simp [Pinned.walk]
    by_cases hyz : y = z
    · subst hyz
      right
      rw [hremovals, Pinned.removals_eq_zero]
      exact (Pinned.mem_of_following hy).2
    · left
      simp [hremovals, hyz]
  cases t <;> cases hop
  case finding d =>
    cases hnode : a.following d none <;> simp only [reply, Op.answer, hnode] at hreply <;>
      cases hreply
    · simp [Op.apply, Pinned.walk, removable]
    · exact hland hnode x
  case deleting p c n =>
    cases hnode : a.following .fwd c <;> simp only [reply, Op.answer, hnode] at hreply <;>
      cases hreply
    · simp [Op.apply, Pinned.walk, removable]
    · exact hland hnode x
  case taking y =>
    obtain ⟨q, -, heq⟩ := Option.map_eq_some_iff.mp hreply
    cases heq
    exact .inl le_rfl
  case matching p y n =>
    obtain ⟨q, -, heq⟩ := Option.map_eq_some_iff.mp hreply
    cases heq
    left
    by_cases hpq : p = q <;> simp [hpq, Op.apply, removable]
  case holding y p | removing p y n =>
    cases hreply
    left
    simp [Op.apply, Pinned.removals_remove, removable]
  all_goals
    cases hreply
    left
    simp [Op.apply, Pinned.walk, removable]

end Task

namespace Sys

/-- The node that each client may still remove. -/
def removable (s : Sys ι D F) (i : ι) : Ptr := (s.task i).removable

variable [DecidableEq ι] [DecidableEq D] {s t : Sys ι D F} {i j : ι} {act : Action ι D F}

/-- A client steps alone. -/
theorem step_task (h : s.step act = some t) (hagent : act.agent = some i) (hj : j ≠ i) :
    t.task j = s.task j := by
  obtain ⟨task, hadvance⟩ : ∃ task, s.advance i task = some t := by
    cases act with
    | insert | remove => cases hagent
    | resume k =>
        cases hagent
        exact ⟨_, h⟩
    | call k c =>
        cases hagent
        obtain ⟨⟨k, task⟩, hruns, hstep⟩ := Option.bind_eq_some_iff.mp h
        obtain ⟨task, -, heq⟩ := Option.map_eq_some_iff.mp hruns
        cases heq
        exact ⟨task, hstep⟩
  obtain ⟨op, -, hrun⟩ := Option.bind_eq_some_iff.mp hadvance
  obtain ⟨⟨r, m⟩, -, hreply⟩ := Option.bind_eq_some_iff.mp hrun
  obtain ⟨⟨task', es⟩, -, rfl⟩ := Option.map_eq_some_iff.mp hreply
  exact Function.update_of_ne hj _ _

end Sys

end ThreeW3.LinkedList

namespace ThreeW3.Walks

open ThreeW3.Lib ThreeW3.LinkedList

universe u v w
variable {ι : Type w} {D : Type u} {K : Type v}

/-! ## The property and the condition -/

namespace Walkers

/-- The number of calls of `list_remove` for a node. -/
def removals (s : Walkers ι D K) (x : ℕ) : ℕ := (s.list.mem.removed.map Prod.fst).count x

/-- What a call has found of the nodes, it leaves, apart from those that it has removed. -/
def Restores (s t : Walkers ι D K) : Prop :=
  ∀ x n n', s.list.mem.node.load x = some n → t.list.mem.node.load x = some n' →
    t.removals x = s.removals x → n'.rc = n.rc ∧ n'.ic = n.ic

/-- `socket_ip2host` has come to a node with its address. -/
def found [DecidableEq K] (ip : D → K) (s : Walkers ι D K) (i : ι) : Bool :=
  match s.loop i, s.list.task i with
  | .test b, .walking (some x) => (nodeData x s.list.mem).any (b.found ip)
  | _, _ => false

variable [Fintype ι] [DecidableEq D] [DecidableEq K]

/-- The number of threads in a call. -/
def walking (s : Walkers ι D K) : ℕ := (Finset.univ.filter fun i => ¬ s.Idle i).card

/-- The counters of a node stand for the walks that are at it, and for its removals. They are
bounded by the walks in progress, and with fewer threads than an `int` can count they fit. -/
structure Counted (s : Walkers ι D K) (x : ℕ) (n : Node D Empty) : Prop where
  ic_eq : n.ic = countAt s.list.parked (some x)
  rc_eq : n.rc = 1 + countAt s.list.parked (some x) - s.removals x
  le_walking : n.ic ≤ s.walking ∧ n.rc ≤ 1 + s.walking
  fits : Fintype.card ι < 2 ^ 31 - 1 →
    (-2 ^ 31 ≤ n.ic ∧ n.ic < 2 ^ 31) ∧ (-2 ^ 31 ≤ n.rc ∧ n.rc < 2 ^ 31)

/-- The counters of all nodes do. -/
def Balanced (s : Walkers ι D K) : Prop :=
  ∀ x n, s.list.mem.node.load x = some n → s.Counted x n

end Walkers

/-- The step is not a return from the middle of `socket_ip2host`. -/
def Act.NotFound [DecidableEq K] (ip : D → K) (s : Walkers ι D K) : Act ι D K → Prop
  | resume i => s.found ip i = false
  | _ => True

instance Act.decidableNotFound [DecidableEq K] (ip : D → K) (s : Walkers ι D K) :
    ∀ act : Act ι D K, Decidable (act.NotFound ip s)
  | resume i => inferInstanceAs (Decidable (s.found ip i = false))
  | insert _ _ | take _ _ | deleteData _ _ | who _ | ip2host _ _ => isTrue trivial

/-- Over the run the counters stand for the walks in progress, and a call that runs alone
leaves the nodes as it has found them. -/
structure WalksBalanced [Fintype ι] [DecidableEq ι] [DecidableEq D] [DecidableEq K] (ip : D → K)
    (as : List (Act ι D K)) : Prop where
  counted : (walkers ι ip).AllStates Walkers.Balanced (walkers ι ip).init as
  restored : ∀ i as₁ as₂ as₃, as = as₁ ++ as₂ ++ as₃ → (∀ act ∈ as₂, act.thread = some i) →
    ∀ s t, (walkers ι ip).exec (walkers ι ip).init as₁ = some s →
      (walkers ι ip).exec s as₂ = some t → s.Idle i → t.Idle i → s.Restores t

/-! ## Walkers in order -/

/-- Where the iterator of a thread is. -/
def Loop.Fits (t : LinkedList.Task D) : Loop K → Prop
  | off => t.ofCall = true
  | next _ => ∃ c, t = .walking c
  | test _ => ∃ c, t = .walking c
  | missed _ => t = .walking none

namespace Walkers

/-- The list refines a pinned sequence whose pins are the iterators, and there are threads
for all removals of a node, made or still to come. -/
structure Inv [Fintype ι] (s : Walkers ι D K) (a : Pinned D Empty) : Prop where
  list : s.list.Inv a
  fits : ∀ i, (s.loop i).Fits (s.list.task i)
  removals_le : ∀ x, a.removals x + countAt s.list.removable (some x) ≤ Fintype.card ι

variable [Fintype ι] {s t : Walkers ι D K} {a : Pinned D Empty} {i j : ι} {ip : D → K}
  {act : Act ι D K}

theorem Inv.new : Inv (.new : Walkers ι D K) Pinned.new := by
  refine ⟨.new, fun i => rfl, fun x => ?_⟩
  have hnone : countAt (Walkers.new : Walkers ι D K).list.removable (some x) = 0 := by
    rw [countAt_eq_zero]
    rintro i ⟨⟩
  rw [hnone]
  exact Nat.zero_le _

variable [DecidableEq ι]

/-- A step off the list. -/
theorem Inv.enter (h : s.Inv a) {l : Loop K} (hl : l.Fits (s.list.task i)) : (s.enter i l).Inv a := by
  refine ⟨h.list, fun j => ?_, h.removals_le⟩
  by_cases hji : j = i
  · subst hji
    simpa [Walkers.enter] using hl
  · simpa [Walkers.enter, hji] using h.fits j

variable [DecidableEq D]

/-- A step of a call. -/
theorem Inv.onList (h : s.Inv a) {l : Loop K} {act : Action ι D Empty} {task : LinkedList.Task D}
    (hstart : task.pinned = s.list.parked i) (hremovable : task.removable = s.list.removable i)
    (hop : (task.op (F := Empty)).isSome = true) (hstep : s.list.step act = s.list.advance i task)
    (hfits : ∀ r task' es, task.reply i r = some (task', es) → l.Fits task') :
    ∃ t b, s.onList i act l = some t ∧ t.Inv b := by
  obtain ⟨op, hop⟩ := Option.isSome_iff_exists.mp hop
  obtain ⟨m, task', es, safe, hreply, hadvance, hlist⟩ := h.list.advance hstart hop
  refine ⟨_, op.apply a, by rw [Walkers.onList, hstep, hadvance, Option.map_some], hlist,
    fun j => ?_, fun x => ?_⟩
  · by_cases hji : j = i
    · subst hji
      simpa [Walkers.enter] using hfits _ _ _ hreply
    · simpa [Walkers.enter, hji] using h.fits j
  · have hupdate : Sys.removable ⟨m, Function.update s.list.task i task', s.list.trace ++ es⟩ =
        Function.update s.list.removable i task'.removable := by
      funext j
      exact Function.apply_update (fun _ t => LinkedList.Task.removable t) s.list.task i task' j
    have hcount := countAt_update s.list.removable i task'.removable (some x)
    have hold := h.removals_le x
    change _ + countAt (Sys.removable ⟨m, Function.update s.list.task i task',
      s.list.trace ++ es⟩) (some x) ≤ _
    rw [hupdate]
    rcases LinkedList.Task.removals_reply_le hop hreply x with hle | hzero
    · rw [hremovable] at hle
      omega
    · rw [hzero, Nat.zero_add]
      exact countAt_le_card _ _

/-- The call of a function that begins to walk. -/
theorem Inv.call (h : s.Inv a) {l : Loop K} {c : Ptr} {call : Call D} {task : LinkedList.Task D}
    (htask : s.list.task i = .walking c) (hstart : call.start (.walking c) = some task)
    (hop : (task.op (F := Empty)).isSome = true)
    (hfits : ∀ r task' es, task.reply i r = some (task', es) → l.Fits task') :
    ∃ t b, s.onList i (.call i call) l = some t ∧ t.Inv b := by
  have hsame : task.pinned = c ∧ task.removable = none := by
    cases call <;> cases c <;> cases hstart <;> exact ⟨rfl, rfl⟩
  refine h.onList ?_ ?_ hop ?_ hfits
  · rw [hsame.1, Sys.parked, htask]
    rfl
  · rw [hsame.2, Sys.removable, htask]
    rfl
  · simp [Sys.step, Action.runs, htask, hstart]

variable [DecidableEq K]

/-- The step lemma. -/
theorem Inv.step (h : s.Inv a) (henabled : act.enabled s = true) (hguard : act.NotFound ip s) :
    ∃ t b, s.step ip act = some t ∧ t.Inv b := by
  cases act with
  | insert d p =>
      obtain ⟨l, b, hl, hmove, hlist⟩ := h.list.step (a := a)
        (show (Action.insert d p).enabled s.list from trivial)
      obtain ⟨htask, hremovals⟩ : l.task = s.list.task ∧ b.removals = a.removals := by
        cases hmove with
        | insert => exact ⟨rfl, rfl⟩
        | advance _ hruns => cases hruns
      refine ⟨{ s with list := l }, b, by rw [Walkers.step, hl, Option.map_some], hlist, ?_, ?_⟩
      · exact htask ▸ h.fits
      · have hremovable : l.removable = s.list.removable := by
          funext j
          exact congrArg LinkedList.Task.removable (congrFun htask j)
        exact hremovals ▸ hremovable ▸ h.removals_le
  | take i d =>
      have hidle : s.Idle i := by simpa [Act.enabled] using henabled
      exact h.call hidle.1 rfl rfl fun r t' es hreply => LinkedList.Task.ofCall_reply rfl hreply
  | deleteData i p =>
      have htask : s.list.task i = .walking none := by
        have hfits := h.fits i
        cases hloop : s.loop i <;> simp_all [Act.enabled, Idle, Loop.Fits, Loop.isMissed]
      exact h.call htask rfl rfl fun r t' es hreply =>
        LinkedList.Task.ofCall_reply rfl hreply
  | who i =>
      have hidle : s.Idle i := by simpa [Act.enabled] using henabled
      exact ⟨_, a, rfl, h.enter ⟨none, hidle.1⟩⟩
  | ip2host i k =>
      have hidle : s.Idle i := by simpa [Act.enabled] using henabled
      exact ⟨_, a, rfl, h.enter ⟨none, hidle.1⟩⟩
  | resume i =>
      have hbusy : ¬ s.Idle i := by simpa [Act.enabled] using henabled
      have hfits := h.fits i
      simp only [Walkers.step, Walkers.resume]
      cases hloop : s.loop i with
      | off =>
          rw [hloop] at hfits
          exact h.onList rfl rfl (LinkedList.Task.isSome_op hfits fun htask => hbusy ⟨htask, hloop⟩) rfl
            fun r t' es hreply => LinkedList.Task.ofCall_reply hfits hreply
      | next b =>
          rw [hloop] at hfits
          obtain ⟨c, htask⟩ := hfits
          apply h.call htask rfl rfl
          rintro r _ _ ⟨⟩
          exact ⟨_, rfl⟩
      | test b =>
          rw [hloop] at hfits
          obtain ⟨c, htask⟩ := hfits
          simp only [htask]
          cases c with
          | none =>
              refine ⟨_, a, rfl, h.enter ?_⟩
              rw [htask]
              cases b <;> rfl
          | some x =>
              have hx : x ∈ a.order := h.list.ok.mem_of_pinned (h.list.pinned (i := i) (by
                rw [Sys.parked, htask]; rfl))
              obtain ⟨p, hp⟩ := h.list.ok.exists_data hx
              have hdata : nodeData x s.list.mem = some p := by
                rw [Refines.nodeData h.list.refines h.list.ok hx, hp]
              have hfound : b.found ip p = false := by
                simpa [Act.NotFound, Walkers.found, hloop, htask, hdata] using hguard
              simp only [hdata, hfound, Option.map_some, Bool.false_eq_true, if_false]
              exact ⟨_, a, rfl, h.enter ⟨some x, htask⟩⟩
      | missed k =>
          rw [hloop] at hfits
          exact ⟨_, a, rfl, h.enter (by rw [show s.list.task i = _ from hfits]; rfl)⟩

/-! ## The counters -/

omit [DecidableEq ι] [DecidableEq D] [DecidableEq K] in
/-- The counters of a node, from its pins and removals. -/
theorem Inv.node_eq (h : s.Inv a) {x : ℕ} {n : Node D Empty}
    (hn : s.list.mem.node.load x = some n) :
    n.ic = countAt s.list.parked (some x) ∧
      n.rc = 1 + countAt s.list.parked (some x) - s.removals x ∧ s.removals x = a.removals x := by
  have hx : x ∈ a.order := (h.list.mem_iff_allocated x).mpr (by rw [hn]; rfl)
  obtain ⟨p, hp⟩ := h.list.ok.exists_data hx
  obtain ⟨n', hn', hcore⟩ := Shape.load_of_core h.list.refines (Pinned.core_eq hx hp)
  obtain rfl : n = n' := Option.some.inj (hn.symm.trans hn')
  have hremovals : s.removals x = a.removals x := by
    rw [Walkers.removals, Pinned.removals, show s.list.mem.removed = a.removed from
      congrArg Ledger.removed h.list.refines.ledger_eq]
  refine ⟨?_, ?_, hremovals⟩
  · rw [hcore, ← h.list.pins_eq]
    rfl
  · rw [hcore, ← h.list.pins_eq, hremovals]
    rfl

omit [DecidableEq ι] in
/-- The walks at a node are in progress. -/
theorem countAt_parked_le (s : Walkers ι D K) (x : ℕ) :
    countAt s.list.parked (some x) ≤ s.walking := by
  apply Finset.card_le_card
  intro i hi
  simp only [Finset.mem_filter, Finset.mem_univ, true_and] at hi ⊢
  rintro ⟨htask, -⟩
  rw [Sys.parked, htask] at hi
  cases hi

omit [DecidableEq ι] in
theorem Inv.balanced (h : s.Inv a) : s.Balanced := by
  intro x n hn
  obtain ⟨hic, hrc, hremovals⟩ := h.node_eq hn
  have hwalking := countAt_parked_le s x
  have hcard := countAt_le_card s.list.parked (some x)
  have hle := h.removals_le x
  refine ⟨hic, hrc, ⟨by omega, by omega⟩, fun hthreads => ⟨⟨by omega, by omega⟩, by omega, by omega⟩⟩

omit [Fintype ι] [DecidableEq ι] [DecidableEq D] in
theorem of_found (hfound : s.found ip i = true) :
    ∃ b x p, s.loop i = .test b ∧ s.list.task i = .walking (some x) ∧
      nodeData x s.list.mem = some p ∧ b.found ip p = true := by
  unfold Walkers.found at hfound
  split at hfound
  · case h_1 b x hloop htask =>
      cases hdata : nodeData x s.list.mem with
      | none => simp [hdata] at hfound
      | some p => exact ⟨b, x, p, hloop, htask, hdata, by simpa [hdata] using hfound⟩
  · cases hfound

/-- After a return from the middle of `socket_ip2host` there is no walk for the last count of
its node. -/
theorem Inv.not_balanced (h : s.Inv a) (hfound : s.found ip i = true) :
    ∃ t, s.step ip (.resume i) = some t ∧ ¬ t.Balanced := by
  obtain ⟨b, x, p, hloop, htask, hdata, hp⟩ := of_found hfound
  refine ⟨s.returnFound i, by simp [Walkers.step, Walkers.resume, hloop, htask, hdata, hp], ?_⟩
  intro hbalanced
  have hparked : s.list.parked i = some x := by rw [Sys.parked, htask]; rfl
  have hx : x ∈ a.order := h.list.ok.mem_of_pinned (h.list.pinned hparked)
  obtain ⟨n, hn⟩ := Option.isSome_iff_exists.mp ((h.list.mem_iff_allocated x).mp hx)
  have hcount := countAt_update s.list.parked i none (some x)
  have hic := (h.node_eq hn).1
  have hic' := (hbalanced x n hn).ic_eq
  rw [parked_returnFound] at hic'
  rw [if_pos hparked, if_neg (by simp)] at hcount
  omega

/-! ## Calls that run alone -/

omit [Fintype ι] in
/-- A thread steps alone. -/
theorem step_task (hstep : s.step ip act = some t) (hthread : act.thread = some i) (hj : j ≠ i) :
    t.list.task j = s.list.task j := by
  have honList : ∀ {act : Action ι D Empty} {l : Loop K} {t : Walkers ι D K},
      act.agent = some i → s.onList i act l = some t → t.list.task j = s.list.task j := by
    intro act l t hagent hstep
    obtain ⟨u, hu, rfl⟩ := Option.map_eq_some_iff.mp hstep
    exact Sys.step_task hu hagent hj
  cases act with
  | insert => cases hthread
  | take | deleteData =>
      cases hthread
      exact honList rfl hstep
  | who | ip2host =>
      cases hthread
      cases hstep
      rfl
  | resume =>
      cases hthread
      simp only [Walkers.step, Walkers.resume] at hstep
      split at hstep
      · exact honList rfl hstep
      · exact honList rfl hstep
      · split at hstep
        · cases hstep
          rfl
        · obtain ⟨scan, -, rfl⟩ := Option.map_eq_some_iff.mp hstep
          split_ifs
          · exact Function.update_of_ne hj _ _
          · rfl
        · cases hstep
      · cases hstep
        rfl

omit [Fintype ι] in
theorem exec_task {as : List (Act ι D K)} (hthread : ∀ act ∈ as, act.thread = some i)
    (hexec : (walkers ι ip).exec s as = some t) (hj : j ≠ i) : t.list.task j = s.list.task j := by
  induction as generalizing s with
  | nil =>
      cases hexec
      rfl
  | cons act as ih =>
      obtain ⟨u, hstep, hrest⟩ := Option.bind_eq_some_iff.mp hexec
      rw [ih (fun b hb => hthread b (List.mem_cons_of_mem _ hb)) hrest]
      exact step_task hstep (hthread act List.mem_cons_self) hj

omit [DecidableEq ι] in
/-- Where the counters stand for the walks at the nodes, they are as before once the walks
are. -/
theorem Balanced.restores (hs : s.Balanced) (ht : t.Balanced)
    (hparked : t.list.parked = s.list.parked) : s.Restores t := by
  intro x n n' hn hn' hremovals
  have h := hs x n hn
  have h' := ht x n' hn'
  refine ⟨?_, ?_⟩
  · rw [h.rc_eq, h'.rc_eq, hparked, hremovals]
  · rw [h.ic_eq, h'.ic_eq, hparked]

theorem restores_of_alone {as : List (Act ι D K)} (hs : s.Balanced) (ht : t.Balanced)
    (hthread : ∀ act ∈ as, act.thread = some i) (hexec : (walkers ι ip).exec s as = some t)
    (hbefore : s.Idle i) (hafter : t.Idle i) : s.Restores t := by
  apply hs.restores ht
  funext j
  by_cases hji : j = i
  · rw [hji, Sys.parked, Sys.parked, hbefore.1, hafter.1]
  · rw [Sys.parked, Sys.parked, exec_task hthread hexec hji]

end Walkers

open Walkers

variable [Fintype ι] [DecidableEq ι] [DecidableEq D] [DecidableEq K]

/-- Over any list and any calls in any order of steps, walks are balanced exactly if no call
of `socket_ip2host` returns from the middle. -/
theorem walksBalanced_iff (ip : D → K) (as : List (Act ι D K))
    (hvalid : (walkers ι ip).Valid (walkers ι ip).init as) :
    WalksBalanced ip as ↔
      (walkers ι ip).AllSteps (fun s act => act.NotFound ip s) (walkers ι ip).init as := by
  have hcounted : (walkers ι ip).AllStates Balanced (walkers ι ip).init as ↔
      (walkers ι ip).AllSteps (fun s act => act.NotFound ip s) (walkers ι ip).init as := by
    apply Machine.allStates_iff_guard (I := fun s => ∃ a, s.Inv a) _ _ _ ⟨_, Inv.new⟩ hvalid
    · rintro s ⟨a, h⟩
      exact h.balanced
    · rintro s act ⟨a, h⟩ henabled hguard
      obtain ⟨t, b, hstep, ht⟩ := h.step henabled hguard
      exact ⟨t, hstep, b, ht⟩
    · rintro s act ⟨a, h⟩ - hguard
      cases act with
      | resume i => exact h.not_balanced (by simpa [Act.NotFound] using hguard)
      | insert | take | deleteData | who | ip2host => exact absurd trivial hguard
  refine ⟨fun h => hcounted.mp h.counted, fun h => ⟨hcounted.mpr h, ?_⟩⟩
  rintro i as₁ as₂ as₃ rfl hthread s t hs ht hbefore hafter
  have hall := hcounted.mpr h
  rw [List.append_assoc] at hall
  have hfrom := hall.of_append hs
  exact restores_of_alone hfrom.head (hfrom.of_append ht).head hthread ht hbefore hafter

/-- One thread deletes what another one is looking at, and a third finds nothing to take. -/
def deletedUnderWalk : List (Act (Fin 3) ℕ ℕ) :=
  [.insert .fwd 7, .ip2host 0 9, .resume 0, .who 1, .resume 1, .deleteData 2 7, .resume 2,
    .resume 2, .resume 2, .resume 0, .resume 0, .resume 0, .resume 0, .resume 1, .resume 1,
    .resume 1, .take 2 .bwd]

theorem deletedUnderWalk_balanced : WalksBalanced id deletedUnderWalk :=
  (walksBalanced_iff id deletedUnderWalk (by decide)).mpr (by decide)

/-- `socket_ip2host` finds its address. -/
def foundAddress : List (Act Bool ℕ ℕ) :=
  [.insert .fwd 7, .ip2host false 7, .resume false, .resume false]

/-- Its node has a count for a walk that is over. -/
theorem foundAddress_not_balanced :
    ¬ ∀ as : List (Act Bool ℕ ℕ), (walkers Bool id).Valid (walkers Bool id).init as →
      WalksBalanced id as := by
  intro h
  have h := h foundAddress (by decide)
  have hrestored := h.restored false [.insert .fwd 7]
    [.ip2host false 7, .resume false, .resume false] [] rfl (by decide) _ _ rfl rfl
    (by decide) (by decide) 0 _ _ rfl rfl rfl
  exact absurd hrestored.2 (by decide)

end ThreeW3.Walks
