/-
# One record for each address

No record leaves `dns_list`, and each resolver brings one. So an address has one record as
long as a resolver is started only for an address that has none and is not being resolved.
-/

import ThreeW3.HostCache.Model
import ThreeW3.Walks.Kept

namespace ThreeW3.HostCache

open ThreeW3.Lib ThreeW3.LinkedList ThreeW3.Walks

universe u v
variable {ι : Type u} {K : Type v}

/-! ## The property and the condition -/

namespace Cache

/-- The addresses in `dns_list`. -/
def entries (s : Cache ι K) : List K := (liveData s.walkers.list.mem).map Dns.ip

/-- With those that are being resolved. -/
def known (s : Cache ι K) : List K := s.entries ++ s.resolving.map Dns.ip

/-- `dns_list` has no address twice, and no two resolvers work on one address. -/
structure Unique (s : Cache ι K) : Prop where
  entries : s.entries.Nodup
  resolving : (s.resolving.map Dns.ip).Nodup

end Cache

/-- The address for which the step starts a resolver. -/
def Act.starts (s : Cache ι K) : Act ι K → Option K
  | create i true => (s.made i).map Dns.ip
  | _ => none

/-- A resolver is started for an address that is not in `dns_list` and not being resolved. -/
def Act.Fresh (s : Cache ι K) (act : Act ι K) : Prop := ∀ ip ∈ act.starts s, ip ∉ s.known

instance [DecidableEq K] (s : Cache ι K) (act : Act ι K) : Decidable (act.Fresh s) :=
  inferInstanceAs (Decidable (∀ ip ∈ act.starts s, ip ∉ s.known))

/-! ## Caches in order -/

/-- The record that a call of `list_delete_data` is given. -/
def deletes : LinkedList.Task (Dns K) → Option (Dns K)
  | .deleting p _ _ => some p
  | .matching p _ _ => some p
  | .removing p _ _ => some p
  | _ => none

/-- Where a thread in `socket_ip2host` is. In `list_delete_data` it comes to no removal. -/
inductive Fits : Loop K → Option (Dns K) → LinkedList.Task (Dns K) → Prop
  | idle : Fits .off none (.walking none)
  | next (ip : K) (c : Ptr) : Fits (.next (.ip2host ip)) none (.walking c)
  | test (ip : K) (c : Ptr) : Fits (.test (.ip2host ip)) none (.walking c)
  | missed (ip : K) : Fits (.missed ip) none (.walking none)
  | made (ip : K) (p : Dns K) : Fits (.missed ip) (some p) (.walking none)
  | deleting (p : Dns K) (c : Ptr) (n : ℕ) : Fits .off none (.deleting p c n)
  | matching (p : Dns K) (x n : ℕ) : Fits .off none (.matching p x n)

namespace Cache

/-- The record that a thread has made and not given to a resolver. -/
def record (s : Cache ι K) (i : ι) : Option (Dns K) :=
  (s.made i).or (deletes (s.walkers.list.task i))

/-- The list refines a pinned sequence, and the record of a thread is its own. -/
structure Inv [Fintype ι] (s : Cache ι K) (a : Pinned (Dns K) Empty) : Prop where
  kept : s.walkers.Kept a
  fits : ∀ i, Fits (s.walkers.loop i) (s.made i) (s.walkers.list.task i)
  lt_fresh : ∀ p, p ∈ a.inserted ∨ p ∈ s.resolving → p.addr < s.fresh
  own : ∀ i p, s.record i = some p → p.addr < s.fresh ∧ ¬ (p ∈ a.inserted ∨ p ∈ s.resolving)
  apart : ∀ i j p, s.record i = some p → s.record j = some p → i = j

variable [Fintype ι] {s t : Cache ι K} {a b : Pinned (Dns K) Empty} {i j : ι} {p : Dns K}

theorem Inv.entries_eq (h : s.Inv a) : s.entries = a.data.map Dns.ip := by
  rw [entries, Refines.liveData_eq h.kept.refines h.kept.ok]

/-- A thread makes a step. Other threads keep what they have, and what goes to the list or a
resolver is the thread's record. -/
theorem Inv.of_step (h : s.Inv a) (hkept : t.walkers.Kept b)
    (hothers : ∀ j, j ≠ i → t.walkers.loop j = s.walkers.loop j ∧ t.made j = s.made j ∧
      t.walkers.list.task j = s.walkers.list.task j)
    (hfits : Fits (t.walkers.loop i) (t.made i) (t.walkers.list.task i))
    (hfresh : s.fresh ≤ t.fresh)
    (hlisted : ∀ p, p ∈ b.inserted ∨ p ∈ t.resolving →
      (p ∈ a.inserted ∨ p ∈ s.resolving) ∨ s.record i = some p)
    (hrecord : ∀ p, t.record i = some p → p.addr < t.fresh ∧
      ¬ (p ∈ b.inserted ∨ p ∈ t.resolving) ∧ (s.record i = some p ∨ s.fresh ≤ p.addr)) :
    t.Inv b := by
  have hrecords : ∀ j, j ≠ i → t.record j = s.record j := fun j hj => by
    rw [record, record, (hothers j hj).2.1, (hothers j hj).2.2]
  -- the record of another thread is not the one of this thread
  have hother : ∀ j, j ≠ i → ∀ p, t.record j = some p → t.record i ≠ some p := by
    intro j hj p hp hi
    rw [hrecords j hj] at hp
    rcases (hrecord p hi).2.2 with hsame | hnew
    · exact hj (h.apart j i p hp hsame)
    · exact absurd (h.own j p hp).1 (Nat.not_lt.mpr hnew)
  refine ⟨hkept, fun j => ?_, fun p hp => ?_, fun j p hp => ?_, fun j k p hj hk => ?_⟩
  · by_cases hji : j = i
    · exact hji ▸ hfits
    · obtain ⟨hloop, hmade, htask⟩ := hothers j hji
      rw [hloop, hmade, htask]
      exact h.fits j
  · apply Nat.lt_of_lt_of_le _ hfresh
    rcases hlisted p hp with hold | hown
    · exact h.lt_fresh p hold
    · exact (h.own i p hown).1
  · by_cases hji : j = i
    · subst hji
      exact ⟨(hrecord p hp).1, (hrecord p hp).2.1⟩
    · rw [hrecords j hji] at hp
      refine ⟨Nat.lt_of_lt_of_le (h.own j p hp).1 hfresh, fun hlist => ?_⟩
      rcases hlisted p hlist with hold | hown
      · exact (h.own j p hp).2 hold
      · exact hji (h.apart j i p hp hown)
  · by_cases hji : j = i <;> by_cases hki : k = i
    · rw [hji, hki]
    · exact absurd (hji ▸ hj) (hother k hki p hk)
    · exact absurd (hki ▸ hk) (hother j hji p hj)
    · rw [hrecords j hji] at hj
      rw [hrecords k hki] at hk
      exact h.apart j k p hj hk

/-- A step that neither brings a record to the list nor starts a resolver. -/
theorem Inv.quiet [DecidableEq ι] (h : s.Inv a) {l : Loop K} {r : Option (Dns K)}
    {task : LinkedList.Task (Dns K)} (hkept : t.walkers.Kept b)
    (hinserted : b.inserted = a.inserted) (hlive : b.live = a.live)
    (hresolving : t.resolving = s.resolving) (hfresh : t.fresh = s.fresh)
    (hloop : t.walkers.loop = Function.update s.walkers.loop i l)
    (hmade : t.made = Function.update s.made i r)
    (htask : t.walkers.list.task = Function.update s.walkers.list.task i task)
    (hfits : Fits l r task) (hrecord : ∀ p, r.or (deletes task) = some p → s.record i = some p) :
    t.Inv b ∧ t.known = s.known := by
  have hself : t.record i = r.or (deletes task) := by
    rw [record, hmade, htask, Function.update_self, Function.update_self]
  have hinv : t.Inv b := by
    apply h.of_step (i := i) hkept
    · intro j hj
      rw [hloop, hmade, htask]
      exact ⟨Function.update_of_ne hj _ _, Function.update_of_ne hj _ _,
        Function.update_of_ne hj _ _⟩
    · rw [hloop, hmade, htask, Function.update_self, Function.update_self, Function.update_self]
      exact hfits
    · exact hfresh.ge
    · rw [hinserted, hresolving]
      exact fun p hp => .inl hp
    · rw [hself, hinserted, hresolving, hfresh]
      intro p hp
      exact ⟨(h.own i p (hrecord p hp)).1, (h.own i p (hrecord p hp)).2, .inl (hrecord p hp)⟩
  refine ⟨hinv, ?_⟩
  rw [known, known, hinv.entries_eq, h.entries_eq, hresolving, Pinned.data_congr hlive hinserted]

variable [DecidableEq ι] [DecidableEq K]

/-- A step of a walk over the list. -/
theorem Inv.onList (h : s.Inv a) {act : Action ι (Dns K) Empty} {l : Loop K}
    {r : Option (Dns K)} {made : ι → Option (Dns K)} {task : LinkedList.Task (Dns K)}
    {op : Op (Dns K) Empty} (hmade : made = Function.update s.made i r)
    (hstart : task.pinned = s.walkers.list.parked i) (hop : task.op = some op)
    (hstep : s.walkers.list.step act = s.walkers.list.advance i task)
    (hlive : (op.apply a).live = a.live)
    (hreply : ∀ task' es, task.reply i (op.answer a) = some (task', es) →
      Fits l r task' ∧ ∀ p, r.or (deletes task') = some p → s.record i = some p) :
    ∃ w b, s.walkers.onList i act l = some w ∧
      Inv { s with walkers := w, made } b ∧ known { s with walkers := w, made } = s.known := by
  obtain ⟨w, task', es, hr, hw, hkept, htask, hloop, -⟩ := h.kept.onList (l := l) hstart hop hstep
  obtain ⟨hfits, hrecord⟩ := hreply task' es hr
  refine ⟨w, op.apply a, hw, ?_⟩
  exact h.quiet hkept (LinkedList.Task.inserted_apply hop) hlive rfl rfl hloop hmade htask hfits
    hrecord

omit [DecidableEq K] in
/-- A step of a thread off the list. -/
theorem Inv.enter (h : s.Inv a) {l : Loop K} (hfits : Fits l (s.made i) (s.walkers.list.task i)) :
    Inv { s with walkers := s.walkers.enter i l } a ∧
      known { s with walkers := s.walkers.enter i l } = s.known := by
  exact h.quiet (t := { s with walkers := s.walkers.enter i l }) (h.kept.enter l) rfl rfl rfl rfl rfl
    (Function.update_eq_self i s.made).symm (Function.update_eq_self i s.walkers.list.task).symm
    hfits fun _ hp => hp

/-- A step of a walk. -/
theorem Inv.walk (h : s.Inv a) (hbusy : ¬ s.walkers.Idle i)
    (hloops : ∀ ip, s.walkers.loop i ≠ .missed ip) :
    ∃ t b, s.step (.walk i) = some t ∧ t.Inv b ∧ t.known = s.known := by
  suffices hresume : ∃ w b, s.walkers.resume Dns.ip i = some w ∧ Inv { s with walkers := w } b ∧
      known { s with walkers := w } = s.known by
    obtain ⟨w, b, hw, hinv, hknown⟩ := hresume
    exact ⟨_, b, by rw [step, Cache.onList, Walkers.step, hw, Option.map_some], hinv, hknown⟩
  have hfits := h.fits i
  unfold Walkers.resume
  generalize hloop : s.walkers.loop i = l at hfits hloops ⊢
  generalize hmade : s.made i = r at hfits
  generalize htask : s.walkers.list.task i = task at hfits ⊢
  have hsame : s.made = Function.update s.made i r := by rw [← hmade, Function.update_eq_self]
  have hparked : s.walkers.list.parked i = task.pinned := by rw [Sys.parked, htask]
  cases hfits with
  | idle => exact absurd ⟨htask, hloop⟩ hbusy
  | missed ip | made ip p => exact absurd rfl (hloops ip)
  | next ip c =>
      have hstart : (LinkedList.Task.stepping .fwd c : LinkedList.Task (Dns K)).pinned =
          s.walkers.list.parked i := hparked.symm
      apply h.onList hsame hstart rfl (by simp [Sys.step, Action.runs, Call.start, htask])
        Pinned.live_walk
      rintro _ _ ⟨⟩
      exact ⟨.test ip _, by rintro p ⟨⟩⟩
  | test ip c =>
      cases c with
      | none => exact ⟨_, a, rfl, h.enter (by rw [hmade, htask]; exact .missed ip)⟩
      | some x =>
          obtain ⟨p, hdata, -⟩ := h.kept.nodeData hparked
          simp only [hdata, Option.map_some]
          split_ifs
          · refine ⟨_, a, rfl, ?_⟩
            exact h.quiet (t := { s with walkers := s.walkers.returnFound i }) h.kept.returnFound
              rfl rfl rfl rfl rfl hsame rfl .idle (by rintro p ⟨⟩)
          · exact ⟨_, a, rfl, h.enter (by rw [hmade, htask]; exact .next ip _)⟩
  | deleting p c n =>
      have hrecord : s.record i = some p := by rw [record, hmade, htask]; rfl
      have hstart : (LinkedList.Task.deleting p c n).pinned = s.walkers.list.parked i :=
        hparked.symm
      apply h.onList hsame hstart rfl (by simp [Sys.step, Action.runs, htask]) Pinned.live_walk
      intro task' es hreply
      cases hnode : a.following .fwd c <;>
        simp only [LinkedList.Task.reply, Op.answer, hnode] at hreply <;> cases hreply
      · exact ⟨.idle, by rintro p ⟨⟩⟩
      · exact ⟨.matching p _ n, fun _ hp => hp ▸ hrecord⟩
  | matching p x n =>
      have hrecord : s.record i = some p := by rw [record, hmade, htask]; rfl
      have hstart : (LinkedList.Task.matching p x n).pinned = s.walkers.list.parked i :=
        hparked.symm
      apply h.onList hsame hstart rfl (by simp [Sys.step, Action.runs, htask]) rfl
      intro task' es hreply
      obtain ⟨q, hq, heq⟩ := Option.map_eq_some_iff.mp hreply
      -- a record that is not on the list is not met there
      have hpq : p ≠ q := by
        rintro rfl
        exact (h.own i p hrecord).2 (.inl (List.mem_of_getElem? hq))
      rw [if_neg hpq] at heq
      cases heq
      exact ⟨.deleting p _ n, fun _ hp => hp ▸ hrecord⟩

omit [DecidableEq K] in
/-- A record is made: its allocation is a new one. -/
theorem Inv.malloc (h : s.Inv a) {ip : K} (hloop : s.walkers.loop i = .missed ip)
    (hmade : s.made i = none) :
    Inv { s with
      made := Function.update s.made i (some ⟨s.fresh, ip⟩)
      fresh := s.fresh + 1 } a := by
  have hfits := h.fits i
  apply h.of_step (i := i) (t := { s with
    made := Function.update s.made i (some ⟨s.fresh, ip⟩)
    fresh := s.fresh + 1 }) h.kept
  · exact fun j hj => ⟨rfl, Function.update_of_ne hj _ _, rfl⟩
  · rw [hloop, hmade] at hfits
    simp only [hloop, Function.update_self]
    generalize s.walkers.list.task i = task at hfits ⊢
    cases hfits
    exact .made ip _
  · exact Nat.le_succ _
  · exact fun p hp => .inl hp
  · intro p hp
    obtain rfl : (⟨s.fresh, ip⟩ : Dns K) = p := by simpa [record] using hp
    refine ⟨Nat.lt_succ_self _, fun hlist => ?_, .inr le_rfl⟩
    exact absurd (h.lt_fresh _ hlist) (Nat.lt_irrefl _)

omit [DecidableEq ι] [DecidableEq K] in
theorem Inv.fits_made (h : s.Inv a) (hmade : s.made i = some p) :
    (∃ ip, s.walkers.loop i = .missed ip) ∧ s.walkers.list.task i = .walking none := by
  have hfits := h.fits i
  rw [hmade] at hfits
  generalize s.walkers.loop i = l at hfits ⊢
  generalize s.walkers.list.task i = task at hfits ⊢
  cases hfits
  exact ⟨⟨_, rfl⟩, rfl⟩

/-- The record of a thread goes to a resolver. -/
theorem Inv.start (h : s.Inv a) (hmade : s.made i = some p) :
    ∃ t, s.step (.create i true) = some t ∧ t.Inv a ∧ t.known.Perm (p.ip :: s.known) := by
  obtain ⟨⟨ip, hloop⟩, htask⟩ := h.fits_made hmade
  have hrecord : s.record i = some p := by rw [record, hmade]; rfl
  refine ⟨{ s with
    walkers := s.walkers.enter i .off
    made := Function.update s.made i none
    resolving := p :: s.resolving }, ?_, ?_, List.perm_middle⟩
  · simp [step, hmade, Cache.onList, Walkers.step, Walkers.resume, hloop]
  · apply h.of_step (i := i) (h.kept.enter .off)
    · exact fun j hj => ⟨Function.update_of_ne hj _ _, Function.update_of_ne hj _ _, rfl⟩
    · simp only [Walkers.enter, Function.update_self, htask]
      exact .idle
    · exact le_rfl
    · rintro q (hq | hq)
      · exact .inl (.inl hq)
      · rcases List.mem_cons.mp hq with rfl | hq
        · exact .inr hrecord
        · exact .inl (.inr hq)
    · intro q hq
      simp [record, htask, deletes, Walkers.enter] at hq

/-- No resolver: `list_delete_data` is called with the record, which is not on the list. -/
theorem Inv.undo (h : s.Inv a) (hmade : s.made i = some p) :
    ∃ t b, s.step (.create i false) = some t ∧ t.Inv b ∧ t.known = s.known := by
  obtain ⟨-, htask⟩ := h.fits_made hmade
  have hrecord : s.record i = some p := by rw [record, hmade]; rfl
  have hstart : (LinkedList.Task.deleting p none 0).pinned = s.walkers.list.parked i := by
    rw [Sys.parked, htask]
    rfl
  obtain ⟨w, b, hw, hinv, hknown⟩ := h.onList (l := .off) (r := none) rfl hstart rfl
    (show s.walkers.list.step (.call i (.deleteData p)) = _ by
      simp [Sys.step, Action.runs, Call.start, htask]) Pinned.live_walk fun task' es hreply => by
      cases hnode : a.following .fwd none <;>
        simp only [LinkedList.Task.reply, Op.answer, hnode] at hreply <;> cases hreply
      · exact ⟨.idle, by rintro p ⟨⟩⟩
      · exact ⟨.matching p _ 0, fun _ hp => hp ▸ hrecord⟩
  exact ⟨_, b, by simp only [step, hmade, Option.bind_some, Cache.onList, Walkers.step, hw,
    Option.map_some], hinv, hknown⟩

/-- A resolver brings its record to the list. -/
theorem Inv.push (h : s.Inv a) (hp : p ∈ s.resolving) :
    ∃ t b, s.step (.push p) = some t ∧ t.Inv b ∧ t.known.Perm s.known := by
  obtain ⟨w, hw, hkept, htask, hloop⟩ := h.kept.insert Dns.ip .fwd p
  have hsub : ∀ q, q ∈ (a.insert .fwd p).inserted ∨ q ∈ s.resolving.erase p →
      q ∈ a.inserted ∨ q ∈ s.resolving := by
    rintro q (hq | hq)
    · rcases List.mem_append.mp hq with hq | hq
      · exact .inl hq
      · exact .inr (List.mem_singleton.mp hq ▸ hp)
    · exact .inr (List.mem_of_mem_erase hq)
  have hinv : Inv { s with walkers := w, resolving := s.resolving.erase p } (a.insert .fwd p) := by
    refine ⟨hkept, fun j => ?_, fun q hq => h.lt_fresh q (hsub q hq), fun j q hq => ?_,
      fun j k q hj hk => ?_⟩
    · rw [hloop, htask]
      exact h.fits j
    · simp only [record, htask] at hq
      exact ⟨(h.own j q hq).1, fun hlist => (h.own j q hq).2 (hsub q hlist)⟩
    · simp only [record, htask] at hj hk
      exact h.apart j k q hj hk
  refine ⟨_, _, by rw [step, Cache.onList]; simp only [hw, Option.map_some], hinv, ?_⟩
  have hresolving : (s.resolving.map Dns.ip).Perm (p.ip :: (s.resolving.erase p).map Dns.ip) :=
    (List.perm_cons_erase hp).map Dns.ip
  rw [known, known, hinv.entries_eq, h.entries_eq, Pinned.data_insert h.kept.ok]
  simpa [Dir.append] using (hresolving.append_left (a.data.map Dns.ip)).symm

/-- The step lemma. What is known grows by the address for which a resolver is started. -/
theorem Inv.step (h : s.Inv a) {act : Act ι K} (henabled : act.enabled s = true) :
    ∃ t b, s.step act = some t ∧ t.Inv b ∧ t.known.Perm ((act.starts s).toList ++ s.known) := by
  cases act with
  | ip2host i ip =>
      obtain ⟨htask, hloop⟩ : s.walkers.Idle i := by simpa [Act.enabled] using henabled
      have hmade : s.made i = none := by
        by_contra hmade
        obtain ⟨p, hp⟩ := Option.ne_none_iff_exists'.mp hmade
        obtain ⟨⟨ip', hmissed⟩, -⟩ := h.fits_made hp
        rw [hloop] at hmissed
        cases hmissed
      obtain ⟨hinv, hknown⟩ := h.enter (i := i) (l := .next (.ip2host ip)) (by
        rw [hmade, htask]
        exact .next ip none)
      exact ⟨_, a, rfl, hinv, .of_eq hknown⟩
  | walk i =>
      obtain ⟨hbusy, hloop⟩ : ¬ s.walkers.Idle i ∧ (s.walkers.loop i).isMissed = false := by
        simpa [Act.enabled] using henabled
      obtain ⟨t, b, hstep, hinv, hknown⟩ := h.walk hbusy fun ip hmissed => by
        simp [hmissed, Loop.isMissed] at hloop
      exact ⟨t, b, hstep, hinv, .of_eq hknown⟩
  | malloc i ok =>
      obtain ⟨hloop, hmade⟩ : (s.walkers.loop i).isMissed = true ∧ s.made i = none := by
        simpa [Act.enabled] using henabled
      obtain ⟨ip, hloop⟩ : ∃ ip, s.walkers.loop i = .missed ip := by
        cases hl : s.walkers.loop i <;> simp_all [Loop.isMissed]
      cases ok with
      | true => exact ⟨_, a, by simp only [Cache.step, hloop], h.malloc hloop hmade, .refl _⟩
      | false =>
          have hfits := h.fits i
          rw [hloop, hmade] at hfits
          obtain ⟨hinv, hknown⟩ := h.enter (i := i) (l := .off) (by
            rw [hmade]
            generalize s.walkers.list.task i = task at hfits ⊢
            cases hfits
            exact .idle)
          refine ⟨_, a, ?_, hinv, .of_eq hknown⟩
          simp only [Cache.step, Cache.onList, Walkers.step, Walkers.resume, hloop, Option.map_some]
  | create i ok =>
      obtain ⟨p, hmade⟩ := Option.isSome_iff_exists.mp henabled
      cases ok with
      | true =>
          obtain ⟨t, hstep, hinv, hknown⟩ := h.start hmade
          exact ⟨t, a, hstep, hinv, by simpa [Act.starts, hmade] using hknown⟩
      | false =>
          obtain ⟨t, b, hstep, hinv, hknown⟩ := h.undo hmade
          exact ⟨t, b, hstep, hinv, .of_eq hknown⟩
  | push p => exact h.push (by simpa [Act.enabled] using henabled)

omit [Fintype ι] [DecidableEq ι] [DecidableEq K] in
/-- A resolver for an address that is known makes it known twice, and so it stays. -/
theorem nodup_iff_fresh {act : Act ι K}
    (hknown : t.known.Perm ((act.starts s).toList ++ s.known)) :
    t.known.Nodup ↔ act.Fresh s ∧ s.known.Nodup := by
  rw [hknown.nodup_iff, Act.Fresh]
  cases act.starts s <;> simp

omit [Fintype ι] [DecidableEq ι] [DecidableEq K] in
theorem unique_of_nodup (h : s.known.Nodup) : s.Unique :=
  ⟨(List.nodup_append.mp h).1, (List.nodup_append.mp h).2.1⟩

theorem Inv.init : ((caches ι K).init).Inv Pinned.new where
  kept := .new
  fits _ := .idle
  lt_fresh _ hp := by simp [caches, Pinned.new] at hp
  own _ _ hp := by cases hp
  apart _ _ _ hi := by cases hi

end Cache

open Cache

variable [Fintype ι] [DecidableEq ι] [DecidableEq K]

/-- In a run of any number of threads no address is listed or resolved twice, provided that
resolvers are started only for addresses that are neither listed nor being resolved; and
where all resolvers have come to their end, only then. -/
theorem unique_of_fresh (as : List (Act ι K))
    (hvalid : (caches ι K).Valid (caches ι K).init as) :
    ∃ t, (caches ι K).exec (caches ι K).init as = some t ∧
      ((caches ι K).AllSteps (fun s act => act.Fresh s) (caches ι K).init as →
        (caches ι K).AllStates Unique (caches ι K).init as) ∧
      (t.resolving = [] → (caches ι K).AllStates Unique (caches ι K).init as →
        (caches ι K).AllSteps (fun s act => act.Fresh s) (caches ι K).init as) := by
  have hguard : (caches ι K).AllStates (fun s => s.known.Nodup) (caches ι K).init as ↔
      (caches ι K).AllSteps (fun s act => act.Fresh s) (caches ι K).init as := by
    apply Machine.allStates_iff_guard (I := fun s => (∃ a, s.Inv a) ∧ s.known.Nodup)
      (P := fun s => s.known.Nodup) (G := fun s act => act.Fresh s) (fun _ h => h.2) _ _
      ⟨⟨_, Inv.init⟩, List.nodup_nil⟩ hvalid
    · rintro s act ⟨⟨a, h⟩, hnodup⟩ henabled hfresh
      obtain ⟨t, b, hstep, ht, hknown⟩ := h.step henabled
      exact ⟨t, hstep, ⟨b, ht⟩, (nodup_iff_fresh hknown).mpr ⟨hfresh, hnodup⟩⟩
    · rintro s act ⟨⟨a, h⟩, -⟩ henabled hfresh
      obtain ⟨t, b, hstep, ht, hknown⟩ := h.step henabled
      exact ⟨t, hstep, fun hnodup => hfresh ((nodup_iff_fresh hknown).mp hnodup).1⟩
  obtain ⟨t, hexec, hback⟩ := Machine.allStates_of_last (I := fun s => ∃ a, s.Inv a)
    (P := fun s => s.known.Nodup) (fun s act ⟨a, h⟩ henabled => by
      obtain ⟨t, b, hstep, ht, hknown⟩ := h.step henabled
      exact ⟨t, hstep, ⟨b, ht⟩, fun hnodup => ((nodup_iff_fresh hknown).mp hnodup).2⟩)
    ⟨_, Inv.init⟩ hvalid
  refine ⟨t, hexec, fun hfresh => (hguard.mpr hfresh).mono fun s => unique_of_nodup,
    fun hended hunique => hguard.mp (hback ?_)⟩
  rw [known, hended, List.map_nil, List.append_nil]
  exact (hunique.last hexec).entries

end ThreeW3.HostCache
