/-
# Searches of the cache

The loop of `socket_ip2host` goes from record to record, with resolvers that list theirs in
between. Records are listed at the end, and none leaves the list, so a search is as good as
one that is made at once, and what it has found for an address is found ever after.
-/

import ThreeW3.HostCache.Uniqueness
import ThreeW3.Lib.Potential

namespace ThreeW3.HostCache

open ThreeW3.Lib ThreeW3.LinkedList ThreeW3.Walks

universe u v
variable {ι : Type u} {K : Type v}

/-! ## Searches -/

namespace Cache

variable [DecidableEq ι] [DecidableEq K]

omit [DecidableEq ι] in
/-- What a search that is made at once finds. -/
def lookup (s : Cache ι K) (ip : K) : Option (Dns K) :=
  (liveData s.walkers.list.mem).find? fun scan => ip = scan.ip

omit [DecidableEq ι] in
/-- The search that the step ends with a name: its address, and the record of the name. -/
def hit (s : Cache ι K) : Act ι K → Option (K × Dns K)
  | .walk i => match s.walkers.loop i, s.walkers.list.task i with
    | .test (.ip2host ip), .walking (some x) =>
        ((nodeData x s.walkers.list.mem).filter fun scan => ip = scan.ip).map fun scan => (ip, scan)
    | _, _ => none
  | _ => none

omit [DecidableEq ι] in
/-- How many searches the step ends with a name. -/
def hits (s : Cache ι K) (act : Act ι K) : ℕ := if (s.hit act).isSome then 1 else 0

/-- The address whose search comes to the end of the list with the step. -/
def misses (s : Cache ι K) : Act ι K → Option K
  | .walk i => match s.walkers.loop i with
    | .next (.ip2host ip) =>
        ((s.step (.walk i)).filter fun t => t.walkers.list.task i = .walking none).map fun _ => ip
    | _ => none
  | _ => none

/-- A search ends as one that is made at once at this time, and what is found is found in the
next state too. -/
structure Atomic (s : Cache ι K) (act : Act ι K) : Prop where
  hit : ∀ ip p, s.hit act = some (ip, p) → s.lookup ip = some p
  misses : ∀ ip, s.misses act = some ip → s.lookup ip = none
  stays : ∀ t ∈ s.step act, ∀ ip p, s.lookup ip = some p → t.lookup ip = some p

end Cache

/-- The record that the step puts on the list. -/
def Act.lists : Act ι K → Option (Dns K)
  | push dns => some dns
  | _ => none

/-! ## Sequences that only grow -/

/-- The number of nodes up to an iterator, its own included. -/
def reached : Ptr → ℕ
  | none => 0
  | some x => x + 1

/-- Nodes stand in the order of their numbers, and none was removed. -/
structure Grown {D : Type*} {F : Type*} (a : Pinned D F) : Prop where
  unremoved : a.removed = []
  order : a.order = List.range a.inserted.length

namespace Grown

variable {D : Type*} {F : Type*} {a : Pinned D F} {c : Ptr} {x : ℕ}

theorem new : Grown (Pinned.new : Pinned D F) := ⟨rfl, rfl⟩

theorem marked (h : Grown a) (x : ℕ) : a.marked x = false := by
  simp [Pinned.marked, h.unremoved]

theorem insert (h : Grown a) (p : D) : Grown (a.insert .fwd p) := by
  refine ⟨h.unremoved, ?_⟩
  rw [Pinned.insert, h.order, List.length_append, List.length_singleton, List.range_succ]
  rfl

theorem pin (h : Grown a) (c : Ptr) : Grown (a.pin c) := by
  cases c with
  | none => exact h
  | some x => exact ⟨h.unremoved, h.order⟩

theorem collect (h : Grown a) (x : ℕ) : a.collect x = a := by
  rw [Pinned.collect, h.marked]
  exact if_neg fun hleave => Bool.false_ne_true hleave.1

theorem unpin (h : Grown a) (c : Ptr) : Grown (a.unpin c) := by
  cases c with
  | none => exact h
  | some x =>
      have hpins : Grown { a with pins := Function.update a.pins x (a.pins x - 1) } :=
        ⟨h.unremoved, h.order⟩
      rw [Pinned.unpin, hpins.collect]
      exact hpins

theorem walk (h : Grown a) (d : Dir) (c : Ptr) : Grown (a.walk d c).2 := (h.pin _).unpin c

theorem data_eq (h : Grown a) : a.data = a.inserted := by
  have hdata : ∀ l : List D, (List.range l.length).filterMap (l[·]?) = l := by
    intro l
    induction l with
    | nil => rfl
    | cons p l ih =>
        rw [List.length_cons, List.range_succ_eq_map, List.filterMap_cons, List.filterMap_map]
        exact congrArg (p :: ·) ih
  have hlive : a.live = List.range a.inserted.length := by
    rw [Pinned.live, h.order, List.filter_eq_self]
    simp [h.marked]
  rw [Pinned.data, hlive, hdata]

/-- A walk goes to the next number. -/
theorem following_eq (h : Grown a) (hc : ∀ x ∈ c, x < a.inserted.length) :
    a.following .fwd c =
      if a.inserted.length ≤ reached c then none else some (reached c) := by
  have hafter : a.after .fwd c = List.range' (reached c) (a.inserted.length - reached c) := by
    cases c with
    | none => rw [Pinned.after, h.order, List.range_eq_range']; rfl
    | some x =>
        have hx := hc x rfl
        have hsplit : List.range' 0 x ++ List.range' (0 + x) (a.inserted.length - (x + 1) + 1) =
            List.range' 0 (x + (a.inserted.length - (x + 1) + 1)) := List.range'_append_1
        rw [Nat.zero_add, List.range'_succ] at hsplit
        have horder : Dir.along .fwd a.order =
            List.range' 0 x ++ x :: List.range' (x + 1) (a.inserted.length - (x + 1)) := by
          rw [hsplit, Dir.along, h.order, List.range_eq_range']
          exact congrArg (List.range' 0) (by omega)
        exact Pinned.after_eq (h.order ▸ List.nodup_range) horder
  have hpending : a.pending .fwd c = a.after .fwd c := by
    rw [Pinned.pending, List.filter_eq_self]
    simp [h.marked]
  rw [Pinned.following_eq, hpending, hafter, List.head?_range']
  exact if_congr Nat.sub_eq_zero_iff_le rfl rfl

end Grown

/-! ## Caches whose searches have met nothing -/

/-- The address that a thread looks for, and the number of records that it has compared. -/
def compared : Loop K → LinkedList.Task (Dns K) → Option (K × ℕ)
  | .next (.ip2host ip), .walking c => some (ip, reached c)
  | .test (.ip2host ip), .walking (some x) => some (ip, x)
  | _, _ => none

namespace Cache

/-- Nothing has left the list, and no search has met a record with its address. There are no
more pins than iterators and the `n` that were dropped. -/
structure Searched [Fintype ι] (s : Cache ι K) (a : Pinned (Dns K) Empty) (n : ℕ) : Prop where
  kept : s.walkers.Kept a
  grown : Grown a
  pins_le : ∀ x, a.pins x ≤ countAt s.walkers.list.parked (some x) + n
  apart : ∀ i ip n, compared (s.walkers.loop i) (s.walkers.list.task i) = some (ip, n) →
    ∀ p ∈ a.inserted.take n, ip ≠ p.ip

variable [Fintype ι] {s t : Cache ι K} {a a' b : Pinned (Dns K) Empty} {i : ι} {ip : K}
  {p : Dns K} {n : ℕ}

theorem Searched.entries_eq (h : s.Searched a n) : liveData s.walkers.list.mem = a.inserted := by
  rw [h.kept.refines.liveData_eq h.kept.ok, h.grown.data_eq]

theorem Searched.lookup_eq [DecidableEq K] (h : s.Searched a n) (ip : K) :
    s.lookup ip = a.inserted.find? fun scan => ip = scan.ip := by
  rw [lookup, h.entries_eq]

/-- The node of an iterator came. -/
theorem Searched.lt (h : s.Searched a n) {x : ℕ} (hx : s.walkers.list.parked i = some x) :
    x < a.inserted.length := h.kept.ok.pinned_lt x (h.kept.pinned hx)

theorem Searched.mono {n' : ℕ} (h : s.Searched a n) (hle : n ≤ n') : s.Searched a n' :=
  ⟨h.kept, h.grown, fun x => (h.pins_le x).trans (Nat.add_le_add_left hle _), h.apart⟩

variable [DecidableEq ι]

/-- An iterator that is dropped. -/
theorem Searched.pins_dropped (h : s.Searched a n) (i : ι) (x : ℕ) :
    a.pins x ≤ countAt (s.walkers.returnFound i).list.parked (some x) + (n + 1) := by
  have hcount := countAt_update s.walkers.list.parked i none (some x)
  have hle := h.pins_le x
  rw [if_neg (by simp : (none : Ptr) ≠ some x)] at hcount
  rw [Walkers.parked_returnFound]
  split_ifs at hcount <;> omega

/-- A thread makes a step that lists nothing. -/
theorem Searched.of_step {n' : ℕ} (h : s.Searched a n) {l : Loop K}
    {task : LinkedList.Task (Dns K)} (hkept : t.walkers.Kept b) (hgrown : Grown b)
    (hpins : ∀ x, b.pins x ≤ countAt t.walkers.list.parked (some x) + n')
    (hinserted : b.inserted = a.inserted)
    (hloop : t.walkers.loop = Function.update s.walkers.loop i l)
    (htask : t.walkers.list.task = Function.update s.walkers.list.task i task)
    (hself : ∀ ip n, compared l task = some (ip, n) → ∀ p ∈ a.inserted.take n, ip ≠ p.ip) :
    t.Searched b n' := by
  refine ⟨hkept, hgrown, hpins, fun j ip n hj => ?_⟩
  rw [hinserted]
  rw [hloop, htask] at hj
  by_cases hji : j = i
  · subst hji
    rw [Function.update_self, Function.update_self] at hj
    exact hself ip n hj
  · rw [Function.update_of_ne hji, Function.update_of_ne hji] at hj
    exact h.apart j ip n hj

/-- A step of a thread off the list. -/
theorem Searched.enter (h : s.Searched a n) {l : Loop K} {made : ι → Option (Dns K)} {fresh : ℕ}
    {resolving : List (Dns K)}
    (hself : ∀ ip n, compared l (s.walkers.list.task i) = some (ip, n) →
      ∀ p ∈ a.inserted.take n, ip ≠ p.ip) :
    Searched ⟨s.walkers.enter i l, fresh, made, resolving⟩ a n :=
  h.of_step (t := ⟨s.walkers.enter i l, fresh, made, resolving⟩) (h.kept.enter l) h.grown
    h.pins_le rfl rfl (Function.update_eq_self i s.walkers.list.task).symm hself

variable [DecidableEq K]

/-- A step of a walk over the list, or of a call that removes nothing. -/
theorem Searched.onList (h : s.Searched a n) {act : Action ι (Dns K) Empty} {l : Loop K}
    {task : LinkedList.Task (Dns K)} {op : Op (Dns K) Empty}
    (hstart : task.pinned = s.walkers.list.parked i) (hop : task.op = some op)
    (hstep : s.walkers.list.step act = s.walkers.list.advance i task)
    (hgrown : Grown (op.apply a)) (hinserted : (op.apply a).inserted = a.inserted)
    (hself : ∀ task' es, task.reply i (op.answer a) = some (task', es) → ∀ ip n,
      compared l task' = some (ip, n) → ∀ p ∈ a.inserted.take n, ip ≠ p.ip) :
    ∃ w, s.walkers.onList i act l = some w ∧
      (∀ fresh made resolving, Searched ⟨w, fresh, made, resolving⟩ (op.apply a) n) ∧
      ∃ task' es, task.reply i (op.answer a) = some (task', es) ∧ w.list.task i = task' := by
  obtain ⟨w, task', es, hreply, hw, hkept, htask, hloop, hpins⟩ :=
    h.kept.onList (l := l) hstart hop hstep
  refine ⟨w, hw, fun fresh made resolving => ?_, task', es, hreply,
    by rw [htask, Function.update_self]⟩
  refine h.of_step (t := ⟨w, fresh, made, resolving⟩) hkept hgrown (fun x => ?_) hinserted hloop
    htask (hself task' es hreply)
  have hle := h.pins_le x
  have hmoved := hpins x
  change (op.apply a).pins x ≤ countAt w.list.parked (some x) + n
  omega

/-- A resolver lists its record behind those that were compared. -/
theorem Searched.push (h : s.Searched a n) (p : Dns K) :
    ∃ w, s.walkers.step Dns.ip (.insert .fwd p) = some w ∧
      ∀ fresh made resolving, Searched ⟨w, fresh, made, resolving⟩ (a.insert .fwd p) n := by
  obtain ⟨w, hw, hkept, htask, hloop⟩ := h.kept.insert Dns.ip .fwd p
  have hpins : ∀ x, (a.insert .fwd p).pins x ≤ countAt w.list.parked (some x) + n := by
    have hparked : w.list.parked = s.walkers.list.parked := by
      funext i
      rw [Sys.parked, Sys.parked, htask]
    rw [hparked]
    exact h.pins_le
  refine ⟨w, hw, fun fresh made resolving => ⟨hkept, h.grown.insert p, hpins, fun i ip n hi => ?_⟩⟩
  dsimp only at hi
  rw [hloop, htask] at hi
  have hn : n ≤ a.inserted.length := by
    have hparked : ∀ c, s.walkers.list.task i = .walking c → ∀ x ∈ c, x < a.inserted.length :=
      fun c hc x hx => h.lt (i := i) (by rw [Sys.parked, hc]; exact hx)
    generalize s.walkers.loop i = l at hi
    generalize s.walkers.list.task i = task at hi hparked
    unfold compared at hi
    split at hi
    · rename_i ip' c
      obtain rfl : reached c = n := (Prod.mk.inj (Option.some.inj hi)).2
      cases c with
      | none => exact Nat.zero_le _
      | some x => exact hparked _ rfl x rfl
    · rename_i ip' x
      obtain rfl : x = n := (Prod.mk.inj (Option.some.inj hi)).2
      exact (hparked _ rfl x rfl).le
    · cases hi
  rw [Pinned.insert, List.take_append_of_le_length hn]
  exact h.apart i ip n hi

/-- A search goes on to the next record. -/
theorem Searched.next (h : s.Searched a n) {c : Ptr} (hloop : s.walkers.loop i = .next (.ip2host ip))
    (htask : s.walkers.list.task i = .walking c) :
    ∃ t, s.step (.walk i) = some t ∧ t.Searched (a.walk .fwd c).2 n ∧ t.walkers.list.task i =
      .walking (if a.inserted.length ≤ reached c then none else some (reached c)) := by
  have hparked : s.walkers.list.parked i = c := by rw [Sys.parked, htask]; rfl
  have hfollowing := h.grown.following_eq fun x hx => h.lt (hparked.trans hx)
  have hstart : (LinkedList.Task.stepping .fwd c : LinkedList.Task (Dns K)).pinned =
      s.walkers.list.parked i := hparked.symm
  obtain ⟨w, hw, ht, task', es, hreply, htask'⟩ := h.onList (l := .test (.ip2host ip)) hstart rfl
    (show s.walkers.list.step (.call i (.walk .fwd)) = _ by
      simp [Sys.step, Action.runs, Call.start, htask])
    (h.grown.walk .fwd c) (LinkedList.Task.inserted_apply (t := .stepping .fwd c) rfl) (by
      rintro _ _ ⟨⟩ ip' n hcompared
      rw [Op.answer, hfollowing] at hcompared
      split_ifs at hcompared
      · cases hcompared
      · refine h.apart i ip' n ?_
        rw [hloop, htask]
        exact hcompared)
  refine ⟨_, by rw [step, Cache.onList, Walkers.step, Walkers.resume, hloop]; simp only [hw]; rfl,
    ht _ _ _, ?_⟩
  cases hreply
  rw [htask', Op.answer, hfollowing]

omit [Fintype ι] [DecidableEq ι] in
theorem hits_of_found {x : ℕ} (hloop : s.walkers.loop i = .test (.ip2host ip))
    (htask : s.walkers.list.task i = .walking (some x))
    (hdata : nodeData x s.walkers.list.mem = some p) (hip : ip = p.ip) :
    s.hits (.walk i) = 1 := by
  simp [hits, hit, hloop, htask, hdata, hip, Option.filter_some]

/-- A step of a walk, which lists nothing. A search that has found its record drops its
iterator. -/
theorem Searched.walk (h : s.Searched a n) (hinv : s.Inv a') (hbusy : ¬ s.walkers.Idle i)
    (hloops : ∀ ip, s.walkers.loop i ≠ .missed ip) :
    ∃ t b, s.step (.walk i) = some t ∧ t.Searched b (n + s.hits (.walk i)) ∧
      b.inserted = a.inserted := by
  by_cases hnext : ∃ ip c, s.walkers.loop i = .next (.ip2host ip) ∧
      s.walkers.list.task i = .walking c
  · obtain ⟨ip, c, hloop, htask⟩ := hnext
    obtain ⟨t, hstep, ht, -⟩ := h.next hloop htask
    exact ⟨t, _, hstep, ht.mono (Nat.le_add_right _ _),
      LinkedList.Task.inserted_apply (t := .stepping .fwd c) rfl⟩
  suffices hresume : ∃ w b, s.walkers.resume Dns.ip i = some w ∧
      Searched { s with walkers := w } b (n + s.hits (.walk i)) ∧ b.inserted = a.inserted by
    obtain ⟨w, b, hw, ht, hb⟩ := hresume
    exact ⟨_, b, by rw [step, Cache.onList, Walkers.step, hw, Option.map_some], ht, hb⟩
  have hfits := hinv.fits i
  have hapart := h.apart i
  have hmore : n ≤ n + s.hits (.walk i) := Nat.le_add_right _ _
  unfold Walkers.resume
  generalize hloop : s.walkers.loop i = l at hfits hloops hapart hnext ⊢
  generalize hmade : s.made i = r at hfits
  generalize htask : s.walkers.list.task i = task at hfits hapart hnext ⊢
  have hparked : s.walkers.list.parked i = task.pinned := by rw [Sys.parked, htask]
  cases hfits with
  | idle => exact absurd ⟨htask, hloop⟩ hbusy
  | missed ip | made ip p => exact absurd rfl (hloops ip)
  | next ip c => exact absurd ⟨ip, c, rfl, rfl⟩ hnext
  | test ip c =>
      cases c with
      | none =>
          refine ⟨_, a, rfl, (h.enter ?_).mono hmore, rfl⟩
          rintro ip n ⟨⟩
      | some x =>
          obtain ⟨p, hdata, hp⟩ := h.kept.nodeData hparked
          simp only [hdata, Option.map_some]
          split_ifs with hfound
          · refine ⟨_, a, rfl, ?_, rfl⟩
            rw [hits_of_found hloop htask hdata (by simpa [Body.found] using hfound)]
            refine h.of_step (t := { s with walkers := s.walkers.returnFound i })
              h.kept.returnFound h.grown (h.pins_dropped i) rfl rfl rfl ?_
            rintro ip n ⟨⟩
          · refine ⟨_, a, rfl, (h.enter ?_).mono hmore, rfl⟩
            rw [htask]
            intro ip' n hcompared q hq
            obtain ⟨rfl, rfl⟩ := Prod.mk.inj (Option.some.inj hcompared)
            rw [reached, List.take_add_one, hp] at hq
            rcases List.mem_append.mp hq with hq | hq
            · exact hapart ip x rfl q hq
            · obtain rfl : q = p := by simpa using hq
              simpa [Body.found] using hfound
  | deleting p c n =>
      have hstart : (LinkedList.Task.deleting p c n).pinned = s.walkers.list.parked i :=
        hparked.symm
      obtain ⟨w, hw, ht, -⟩ := h.onList (l := .off) hstart rfl
        (show s.walkers.list.step (.resume i) = _ by simp [Sys.step, Action.runs, htask])
        (h.grown.walk .fwd c) (LinkedList.Task.inserted_apply (t := .deleting p c n) rfl)
        fun _ _ _ ip n hcompared => by simp [compared] at hcompared
      exact ⟨w, _, hw, (ht _ _ _).mono hmore,
        LinkedList.Task.inserted_apply (t := .deleting p c n) rfl⟩
  | matching p x n =>
      have hstart : (LinkedList.Task.matching p x n).pinned = s.walkers.list.parked i :=
        hparked.symm
      obtain ⟨w, hw, ht, -⟩ := h.onList (l := .off) hstart rfl
        (show s.walkers.list.step (.resume i) = _ by simp [Sys.step, Action.runs, htask])
        h.grown rfl fun _ _ _ ip n hcompared => by simp [compared] at hcompared
      exact ⟨w, _, hw, (ht _ _ _).mono hmore, rfl⟩

omit [DecidableEq K] in
/-- A step off the list that ends a call. -/
theorem Searched.leave (h : s.Searched a n) (i : ι) (fresh : ℕ) (made : ι → Option (Dns K))
    (resolving : List (Dns K)) : Searched ⟨s.walkers.enter i .off, fresh, made, resolving⟩ a n :=
  h.enter fun _ _ hcompared => by simp [compared] at hcompared

/-- The step lemma. Only resolvers add to the list. -/
theorem Searched.step (h : s.Searched a n) (hinv : s.Inv a') {act : Act ι K}
    (henabled : act.enabled s = true) :
    ∃ t b, s.step act = some t ∧ t.Searched b (n + s.hits act) ∧
      b.inserted = a.inserted ++ act.lists.toList := by
  cases act with
  | ip2host i ip =>
      obtain ⟨htask, -⟩ : s.walkers.Idle i := by simpa [Act.enabled] using henabled
      refine ⟨_, a, rfl, h.enter ?_, (List.append_nil _).symm⟩
      rw [htask]
      intro ip' n hcompared
      obtain ⟨rfl, rfl⟩ := Prod.mk.inj (Option.some.inj hcompared)
      exact fun p hp => by simp [reached] at hp
  | walk i =>
      obtain ⟨hbusy, hloop⟩ : ¬ s.walkers.Idle i ∧ (s.walkers.loop i).isMissed = false := by
        simpa [Act.enabled] using henabled
      obtain ⟨t, b, hstep, ht, hb⟩ := h.walk hinv hbusy fun ip hmissed => by
        simp [hmissed, Loop.isMissed] at hloop
      exact ⟨t, b, hstep, ht, hb.trans (List.append_nil _).symm⟩
  | malloc i ok =>
      obtain ⟨hloop, -⟩ : (s.walkers.loop i).isMissed = true ∧ s.made i = none := by
        simpa [Act.enabled] using henabled
      obtain ⟨ip, hloop⟩ : ∃ ip, s.walkers.loop i = .missed ip := by
        cases hl : s.walkers.loop i <;> simp_all [Loop.isMissed]
      cases ok with
      | true =>
          refine ⟨_, a, by simp only [Cache.step, hloop]; rfl, ?_, (List.append_nil _).symm⟩
          exact ⟨h.kept, h.grown, h.pins_le, h.apart⟩
      | false =>
          refine ⟨_, a, ?_, h.leave i s.fresh s.made s.resolving, (List.append_nil _).symm⟩
          simp only [Cache.step, Cache.onList, Walkers.step, Walkers.resume, hloop, Option.map_some]
  | create i ok =>
      obtain ⟨p, hmade⟩ := Option.isSome_iff_exists.mp henabled
      obtain ⟨⟨ip, hloop⟩, htask⟩ := hinv.fits_made hmade
      cases ok with
      | true =>
          refine ⟨_, a, ?_, h.leave i s.fresh (Function.update s.made i none) (p :: s.resolving),
            (List.append_nil _).symm⟩
          simp only [Cache.step, hmade, Option.bind_some, Cache.onList, Walkers.step,
            Walkers.resume, hloop, Option.map_some]
      | false =>
          have hstart : (LinkedList.Task.deleting p none 0).pinned = s.walkers.list.parked i := by
            rw [Sys.parked, htask]
            rfl
          obtain ⟨w, hw, ht, -⟩ := h.onList (l := .off) hstart rfl
            (show s.walkers.list.step (.call i (.deleteData p)) = _ by
              simp [Sys.step, Action.runs, Call.start, htask])
            (h.grown.walk .fwd none) (LinkedList.Task.inserted_apply (t := .deleting p none 0) rfl)
            fun _ _ _ ip n hcompared => by simp [compared] at hcompared
          refine ⟨_, _, ?_, ht s.fresh (Function.update s.made i none) s.resolving, ?_⟩
          · simp only [Cache.step, hmade, Option.bind_some, Cache.onList, Walkers.step, hw,
              Option.map_some]
          · rw [LinkedList.Task.inserted_apply (t := .deleting p none 0) rfl]
            exact (List.append_nil _).symm
  | push p =>
      obtain ⟨w, hw, ht⟩ := h.push p
      exact ⟨_, _, by rw [Cache.step, Cache.onList]; simp only [hw]; rfl, ht _ _ _, rfl⟩

omit [DecidableEq ι] in
/-- What a search finds is the first record for its address. -/
theorem Searched.hit (h : s.Searched a n) {act : Act ι K} (hhit : s.hit act = some (ip, p)) :
    s.lookup ip = some p := by
  cases act with
  | walk i =>
      unfold Cache.hit at hhit
      dsimp only at hhit
      split at hhit
      · rename_i ip' x hloop htask
        obtain ⟨q, hq, heq⟩ := Option.map_eq_some_iff.mp hhit
        obtain ⟨rfl, rfl⟩ := Prod.mk.inj heq
        obtain ⟨hdata, hip⟩ := Option.filter_eq_some_iff.mp hq
        have hparked : s.walkers.list.parked i = some x := by rw [Sys.parked, htask]; rfl
        obtain ⟨q', hdata', hq'⟩ := h.kept.nodeData hparked
        obtain rfl := Option.some.inj (hdata.symm.trans hdata')
        have hbefore : (a.inserted.take x).find? (fun scan => ip' = scan.ip) = none := by
          rw [List.find?_eq_none]
          intro r hr
          simpa using h.apart i ip' x (by rw [hloop, htask]; rfl) r hr
        obtain ⟨hx, hget⟩ := List.getElem?_eq_some_iff.mp hq'
        rw [h.lookup_eq, ← List.take_append_drop x a.inserted, List.find?_append, hbefore,
          Option.none_or, List.drop_eq_getElem_cons hx, hget]
        exact List.find?_cons_of_pos hip
      · cases hhit
  | _ => cases hhit

/-- A search that ends without a name has gone by all records. -/
theorem Searched.misses (h : s.Searched a n) (hinv : s.Inv a') {act : Act ι K}
    (hmisses : s.misses act = some ip) : s.lookup ip = none := by
  cases act with
  | walk i =>
      unfold Cache.misses at hmisses
      dsimp only at hmisses
      split at hmisses
      · rename_i ip' hloop
        obtain ⟨t, hfilter, rfl⟩ := Option.map_eq_some_iff.mp hmisses
        obtain ⟨hstep, hend⟩ := Option.filter_eq_some_iff.mp hfilter
        obtain ⟨c, htask⟩ : ∃ c, s.walkers.list.task i = .walking c := by
          have hfits := hinv.fits i
          rw [hloop] at hfits
          generalize s.walkers.list.task i = task at hfits ⊢
          generalize s.made i = r at hfits
          cases hfits
          exact ⟨_, rfl⟩
        obtain ⟨t', hstep', -, htask'⟩ := h.next hloop htask
        obtain rfl := Option.some.inj (hstep.symm.trans hstep')
        rw [htask'] at hend
        have hlen : a.inserted.length ≤ reached c := by
          by_contra hlt
          simp [hlt] at hend
        rw [h.lookup_eq, List.find?_eq_none]
        intro r hr
        rw [← List.take_of_length_le hlen] at hr
        simpa using h.apart i ip' (reached c) (by rw [hloop, htask]; rfl) r hr
      · cases hmisses
  | _ => cases hmisses

theorem Searched.atomic (h : s.Searched a n) (hinv : s.Inv a') {act : Act ι K}
    (henabled : act.enabled s = true) : s.Atomic act := by
  refine ⟨fun ip p => h.hit, fun ip => h.misses hinv, fun t hstep ip p hlookup => ?_⟩
  obtain ⟨t', b, hstep', ht, hl⟩ := h.step hinv henabled
  obtain rfl := Option.some.inj (hstep.symm.trans hstep')
  rw [h.lookup_eq] at hlookup
  rw [ht.lookup_eq, hl, List.find?_append, hlookup, Option.some_or]

/-- The cache is in order, and so are the searches, `n` of which have found a record. -/
def Ready (s : Cache ι K) (n : ℕ) : Prop := (∃ a, s.Inv a) ∧ ∃ a, s.Searched a n

theorem Ready.init : ((caches ι K).init).Ready 0 :=
  ⟨⟨_, Inv.init⟩, _, .new, .new, fun _ => Nat.zero_le _, fun _ _ _ hcompared => by cases hcompared⟩

theorem Ready.step (h : s.Ready n) {act : Act ι K} (henabled : act.enabled s = true) :
    ∃ t, s.step act = some t ∧ t.Ready (n + s.hits act) ∧ s.Atomic act := by
  obtain ⟨⟨a', hinv⟩, a, hsearched⟩ := h
  obtain ⟨t, b, hstep, ht, -⟩ := hsearched.step hinv henabled
  obtain ⟨t', b', hstep', ht', -⟩ := hinv.step henabled
  obtain rfl := Option.some.inj (hstep.symm.trans hstep')
  exact ⟨t, hstep, ⟨⟨b', ht'⟩, b, ht⟩, hsearched.atomic hinv henabled⟩

end Cache

open Cache

/-- The counters of each node are in the range of an `int`, also with the reference that a step
takes first. -/
def Cache.Counted (s : Cache ι K) : Prop :=
  ∀ x node, s.walkers.list.mem.node.load x = some node →
    0 ≤ node.ic ∧ node.ic < node.rc ∧ node.rc + 1 < 2 ^ 31

variable [Fintype ι]

/-- A node has its own reference, and one for each pin. -/
theorem Cache.Searched.counted {s : Cache ι K} {a : Pinned (Dns K) Empty} {n : ℕ}
    (h : s.Searched a n) (hfew : n + Fintype.card ι + 2 < 2 ^ 31) : s.Counted := by
  intro x node hnode
  have hcore : a.core x = some node.toCore := by
    rw [← Shape.core_eq h.kept.refines, State.core, hnode, Option.map_some]
  have hx : x ∈ a.order := by
    by_contra hnot
    rw [Pinned.core_of_notMem hnot] at hcore
    cases hcore
  obtain ⟨p, hp⟩ := h.kept.ok.exists_data hx
  have hfields : node.toCore = a.fields x p := by
    rw [Pinned.core_eq hx hp] at hcore
    exact (Option.some.inj hcore).symm
  have hrc : node.rc = 1 + a.pins x := by
    have hremovals : a.removals x = 0 := by simp [Pinned.removals, h.grown.unremoved]
    rw [show node.rc = 1 + a.pins x - a.removals x from congrArg Core.rc hfields, hremovals]
    simp
  have hic : node.ic = a.pins x := congrArg Core.ic hfields
  have hpins := h.pins_le x
  have hparked := countAt_le_card s.walkers.list.parked (some x)
  rw [hrc, hic]
  omega

variable [DecidableEq ι] [DecidableEq K]

/-- In a run of any number of threads every search for an address ends as one that is made at
once, and from the time when it is in `dns_list` every search for it, by whatever thread,
returns the name of one and the same record. Each search with a name leaves a reference, so
the run may have as many as the counters can hold. -/
theorem answers_agree (as bs : List (Act ι K)) {s : Cache ι K}
    (hvalid : (caches ι K).Valid (caches ι K).init (as ++ bs))
    (hfew : (caches ι K).total hits (caches ι K).init (as ++ bs) + Fintype.card ι + 2 < 2 ^ 31)
    (hexec : (caches ι K).exec (caches ι K).init as = some s) :
    (caches ι K).AllStates Counted (caches ι K).init (as ++ bs) ∧
      (caches ι K).AllSteps Atomic s bs ∧ ∀ ip p, s.lookup ip = some p →
        (caches ι K).AllSteps (fun t act => (∀ q, t.hit act = some (ip, q) → q = p) ∧
          t.misses act ≠ some ip) s bs := by
  have hkeep : ∀ (t : Cache ι K) act n, t.Ready n → (caches ι K).enabled t act →
      ∃ u, (caches ι K).step t act = some u ∧ u.Ready (n + t.hits act) := by
    intro t act n ht henabled
    obtain ⟨u, hstep, hu, -⟩ := ht.step henabled
    exact ⟨u, hstep, hu⟩
  have hall : (caches ι K).AllStates
      (fun t => ∃ n ≤ (caches ι K).total hits (caches ι K).init (as ++ bs), t.Ready n)
      (caches ι K).init (as ++ bs) := by
    have hcount := Machine.allStates_of_total hkeep Ready.init hvalid
    rwa [Nat.zero_add] at hcount
  have hready : ∃ n, s.Ready n := by
    obtain ⟨n, -, hs⟩ := (hall.of_append hexec).head
    exact ⟨n, hs⟩
  obtain ⟨-, hvalidBs⟩ := (Machine.allSteps_append _ _ _ _).mp hvalid
  have hany : ∀ (t : Cache ι K) (cs : List (Act ι K)),
      (caches ι K).AllSteps (fun _ _ => True) t cs := fun t cs =>
    Machine.allSteps_of_forall (fun _ _ _ => trivial) t
  refine ⟨hall.mono fun t ⟨n, hn, _, a, hsearched⟩ => hsearched.counted (by omega), ?_, ?_⟩
  · refine Machine.allSteps_of_invariant (M := caches ι K) (I := fun t => ∃ n, t.Ready n)
      (fun t act ⟨n, ht⟩ henabled _ => ?_) (fun t act ⟨n, ht⟩ henabled _ => ?_) hready
      (hvalidBs s hexec) (hany _ _)
    · obtain ⟨u, hstep, hu, -⟩ := ht.step henabled
      exact ⟨u, hstep, _, hu⟩
    · obtain ⟨-, -, -, hatomic⟩ := ht.step henabled
      exact hatomic
  · intro ip p hlookup
    -- what is found stays found, so no search for it misses or finds another
    refine Machine.allSteps_of_invariant (M := caches ι K)
      (I := fun t => (∃ n, t.Ready n) ∧ t.lookup ip = some p)
      (fun t act ⟨⟨n, ht⟩, hfound⟩ henabled _ => ?_) (fun t act ⟨⟨n, ht⟩, hfound⟩ henabled _ => ?_)
      ⟨hready, hlookup⟩ (hvalidBs s hexec) (hany _ _)
    · obtain ⟨u, hstep, hu, hatomic⟩ := ht.step henabled
      exact ⟨u, hstep, ⟨_, hu⟩, hatomic.stays u hstep ip p hfound⟩
    · obtain ⟨-, -, -, hatomic⟩ := ht.step henabled
      refine ⟨fun q hq => ?_, fun hmisses => ?_⟩
      · exact Option.some.inj ((hatomic.hit ip q hq).symm.trans hfound)
      · have hnone := hatomic.misses ip hmisses
        rw [hfound] at hnone
        cases hnone

/-- Two connections from one address at once; one resolver is done. -/
def twoConnect : List (Act Bool ℕ) :=
  [.ip2host false 7, .walk false, .walk false, .malloc false true, .ip2host true 7, .walk true,
    .walk true, .malloc true true, .create false true, .create true true, .push ⟨1, 7⟩]

def ofTwoConnect : Cache Bool ℕ := ((caches Bool ℕ).exec (caches Bool ℕ).init twoConnect).get rfl

/-- Two more, while the other resolver brings its record. -/
def twoMore : List (Act Bool ℕ) :=
  [.ip2host true 7, .push ⟨0, 7⟩, .walk true, .ip2host false 7, .walk false, .walk true,
    .walk false]

example : (ofTwoConnect.hit (.walk false), ofTwoConnect.lookup 7) = (none, some ⟨1, 7⟩) := by decide

theorem twoMore_agree :
    (caches Bool ℕ).AllStates Counted (caches Bool ℕ).init (twoConnect ++ twoMore) ∧
      (caches Bool ℕ).AllSteps Atomic ofTwoConnect twoMore ∧
      (caches Bool ℕ).AllSteps (fun t act => (∀ q, t.hit act = some (7, q) → q = ⟨1, 7⟩) ∧
        t.misses act ≠ some 7) ofTwoConnect twoMore := by
  obtain ⟨hcounted, hatomic, hagree⟩ := answers_agree twoConnect twoMore (by decide) (by decide) rfl
  exact ⟨hcounted, hatomic, hagree 7 ⟨1, 7⟩ (by decide)⟩

end ThreeW3.HostCache
