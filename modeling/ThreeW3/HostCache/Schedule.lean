/-
# When one record for each address is enough

A search that comes to the end of the list has seen all records, and from then on only
resolvers add some. What they have added since says as much of the list as another search
would, so the order of the steps alone decides whether an address gets a second record.
-/

import ThreeW3.HostCache.Searches

namespace ThreeW3.HostCache

open ThreeW3.Lib ThreeW3.LinkedList ThreeW3.Walks

universe u v
variable {ι : Type u} {K : Type v}

/-! ## The condition -/

/-- The addresses that resolvers have brought since a thread's search came to the end of the
list. -/
abbrev Brought (ι : Type u) (K : Type v) := ι → List K

/-- What a step changes of that. -/
def Cache.note [DecidableEq ι] [DecidableEq K] (s : Cache ι K) (act : Act ι K)
    (brought : Brought ι K) : Brought ι K :=
  match act with
  | .walk i =>
      if (s.misses (.walk i)).isSome then Function.update brought i [] else brought
  | .push dns => fun j => dns.ip :: brought j
  | _ => brought

/-- The cache, and what resolvers have brought. -/
def watched (ι : Type u) (K : Type v) [DecidableEq ι] [DecidableEq K] :
    Machine (Cache ι K × Brought ι K) (Act ι K) :=
  (caches ι K).recorded Cache.note fun _ => []

/-- When a thread starts a resolver, no resolver works on the address, and none has brought it
since the search of the thread came to the end. -/
def Act.Timely (s : Cache ι K × Brought ι K) : Act ι K → Prop
  | create i true =>
      ∀ dns ∈ s.1.made i, dns.ip ∉ s.1.resolving.map Dns.ip ∧ dns.ip ∉ s.2 i
  | _ => True

instance [DecidableEq K] (s : Cache ι K × Brought ι K) (act : Act ι K) :
    Decidable (act.Timely s) := by
  cases act with
  | create i ok => cases ok <;> unfold Act.Timely <;> infer_instance
  | _ => exact isTrue trivial

/-! ## Threads keep to themselves -/

/-- The thread that makes the step. -/
def Act.thread : Act ι K → Option ι
  | ip2host i _ | walk i | malloc i _ | create i _ => some i
  | push _ => none

/-- The address of a search that has come to the end of the list. -/
def pastEnd : Loop K → LinkedList.Task (Dns K) → Option K
  | .test (.ip2host ip), .walking none => some ip
  | .missed ip, _ => some ip
  | _, _ => none

namespace Cache

variable [DecidableEq ι] [DecidableEq K] {s t : Cache ι K} {i j : ι} {act : Act ι K}

theorem onList_cases {w : Walks.Act ι (Dns K) K} (hstep : s.onList w = some t) :
    ∃ v, s.walkers.step Dns.ip w = some v ∧ t = { s with walkers := v } := by
  obtain ⟨v, hv, rfl⟩ := Option.map_eq_some_iff.mp hstep
  exact ⟨v, hv, rfl⟩

/-- Nothing of another thread changes. -/
theorem step_others (hstep : s.step act = some t) (hj : act.thread ≠ some j) :
    t.walkers.loop j = s.walkers.loop j ∧ t.made j = s.made j ∧
      t.walkers.list.task j = s.walkers.list.task j := by
  cases act with
  | ip2host i ip =>
      have hji : j ≠ i := fun h => hj (congrArg some h.symm)
      obtain rfl := Option.some.inj hstep
      exact ⟨Function.update_of_ne hji _ _, rfl, rfl⟩
  | walk i =>
      have hji : j ≠ i := fun h => hj (congrArg some h.symm)
      obtain ⟨v, hv, rfl⟩ := onList_cases hstep
      obtain ⟨hloop, htask⟩ := Walkers.resume_others hv hji
      exact ⟨hloop, rfl, htask⟩
  | malloc i ok =>
      have hji : j ≠ i := fun h => hj (congrArg some h.symm)
      cases ok with
      | true =>
          rw [Cache.step] at hstep
          split at hstep
          · obtain rfl := Option.some.inj hstep
            exact ⟨rfl, Function.update_of_ne hji _ _, rfl⟩
          · cases hstep
      | false =>
          obtain ⟨v, hv, rfl⟩ := onList_cases hstep
          obtain ⟨hloop, htask⟩ := Walkers.resume_others hv hji
          exact ⟨hloop, rfl, htask⟩
  | create i ok =>
      have hji : j ≠ i := fun h => hj (congrArg some h.symm)
      cases ok with
      | true =>
          obtain ⟨dns, -, hlist⟩ := Option.bind_eq_some_iff.mp hstep
          obtain ⟨v, hv, rfl⟩ := onList_cases hlist
          obtain ⟨hloop, htask⟩ := Walkers.resume_others hv hji
          exact ⟨hloop, Function.update_of_ne hji _ _, htask⟩
      | false =>
          obtain ⟨dns, -, hlist⟩ := Option.bind_eq_some_iff.mp hstep
          obtain ⟨v, hv, rfl⟩ := onList_cases hlist
          obtain ⟨hloop, htask⟩ := Walkers.onList_others hv (.inr ⟨_, rfl⟩) hji
          exact ⟨hloop, Function.update_of_ne hji _ _, htask⟩
  | push dns =>
      obtain ⟨v, hv, rfl⟩ := onList_cases hstep
      obtain ⟨list, hlist, rfl⟩ := Option.map_eq_some_iff.mp hv
      obtain ⟨q, -, rfl⟩ := Option.map_eq_some_iff.mp hlist
      exact ⟨rfl, rfl, rfl⟩

/-! ## What is known of an ended search -/

/-- What was brought is on the list; and of what is on the list, the address of an ended search
only if it was brought. -/
structure Noted (s : Cache ι K) (brought : Brought ι K) : Prop where
  listed : ∀ i, ∀ ip ∈ brought i, ip ∈ s.entries
  ended : ∀ i ip, pastEnd (s.walkers.loop i) (s.walkers.list.task i) = some ip → ip ∈ s.entries →
    ip ∈ brought i
  made : ∀ i dns, s.made i = some dns → s.walkers.loop i = .missed dns.ip

theorem loop_onList {w v : Walkers ι (Dns K) K} {act : Action ι (Dns K) Empty} {l : Loop K}
    (hstep : w.onList i act l = some v) : v.loop i = l := by
  obtain ⟨list, -, rfl⟩ := Option.map_eq_some_iff.mp hstep
  exact Function.update_self _ _ _

/-- A thread past its loop leaves `socket_ip2host`. -/
theorem loop_resume_missed {w v : Walkers ι (Dns K) K} {ip : K} (hloop : w.loop i = .missed ip)
    (hstep : w.resume Dns.ip i = some v) : v.loop i = .off := by
  rw [Walkers.resume, hloop] at hstep
  obtain rfl := Option.some.inj hstep
  exact Function.update_self _ _ _

/-- A search is past the end of the list when it has come there with this step, or before. -/
theorem pastEnd_walk {ip : K} (hstep : s.step (.walk i) = some t)
    (hmissed : (s.walkers.loop i).isMissed = false)
    (hpast : pastEnd (t.walkers.loop i) (t.walkers.list.task i) = some ip) :
    pastEnd (s.walkers.loop i) (s.walkers.list.task i) = some ip ∨
      s.misses (.walk i) = some ip := by
  obtain ⟨v, hv, ht⟩ := onList_cases hstep
  change s.walkers.resume Dns.ip i = some v at hv
  unfold Walkers.resume at hv
  split at hv
  · rw [ht, loop_onList hv] at hpast
    cases hpast
  · rename_i b hloop
    have hnext : t.walkers.loop i = .test b := by rw [ht, loop_onList hv]
    rw [hnext] at hpast
    cases b with
    | who => cases hpast
    | ip2host ip' =>
        right
        unfold pastEnd at hpast
        split at hpast
        · rename_i ip'' hbody htask
          obtain rfl : ip' = ip'' := by simpa using hbody
          obtain rfl := Option.some.inj hpast
          simp [misses, hloop, hstep, htask]
        · rename_i hbody
          cases hbody
        · cases hpast
  · rename_i b hloop
    left
    split at hv
    · rename_i htask
      obtain rfl := Option.some.inj hv
      rw [ht] at hpast
      simp only [Walkers.enter, Function.update_self] at hpast
      cases b with
      | who => cases hpast
      | ip2host ip' =>
          rw [hloop, htask]
          exact hpast
    · obtain ⟨p, -, rfl⟩ := Option.map_eq_some_iff.mp hv
      rw [ht] at hpast
      split_ifs at hpast
      · simp [Walkers.returnFound, Walkers.enter, pastEnd] at hpast
      · simp [Walkers.enter, pastEnd] at hpast
    · cases hv
  · rename_i ip' hloop
    rw [hloop] at hmissed
    cases hmissed

/-- A step of a thread that lists nothing. -/
theorem Noted.of_thread {brought brought' : Brought ι K} (h : s.Noted brought)
    (hstep : s.step act = some t) (hi : act.thread = some i) (hentries : t.entries = s.entries)
    (hothers : ∀ j, j ≠ i → brought' j = brought j)
    (hlisted : ∀ ip ∈ brought' i, ip ∈ brought i)
    (hended : ∀ ip, pastEnd (t.walkers.loop i) (t.walkers.list.task i) = some ip →
      ip ∈ s.entries → ip ∈ brought' i)
    (hmade : ∀ dns, t.made i = some dns → t.walkers.loop i = .missed dns.ip) :
    t.Noted brought' := by
  have hsame : ∀ j, j ≠ i → act.thread ≠ some j := fun j hj hthread =>
    hj (Option.some.inj (hthread.symm.trans hi))
  refine ⟨fun j ip hip => ?_, fun j ip hpast hip => ?_, fun j dns hdns => ?_⟩
  all_goals by_cases hji : j = i
  · subst hji
    rw [hentries]
    exact h.listed j ip (hlisted ip hip)
  · rw [hothers j hji] at hip
    rw [hentries]
    exact h.listed j ip hip
  · subst hji
    exact hended ip hpast (hentries ▸ hip)
  · obtain ⟨hloop, -, htask⟩ := step_others hstep (hsame j hji)
    rw [hloop, htask] at hpast
    rw [hothers j hji]
    exact h.ended j ip hpast (hentries ▸ hip)
  · subst hji
    exact hmade dns hdns
  · obtain ⟨hloop, hmadej, -⟩ := step_others hstep (hsame j hji)
    rw [hloop]
    exact h.made j dns (hmadej ▸ hdns)

omit [DecidableEq ι] in
theorem not_mem_entries {ip : K} (hlookup : s.lookup ip = none) : ip ∉ s.entries := by
  rw [lookup, List.find?_eq_none] at hlookup
  intro hmem
  obtain ⟨p, hp, rfl⟩ := List.mem_map.mp hmem
  exact hlookup p hp (by simp)

/-- A step of a thread that ends the call, or begins one. -/
theorem Noted.quiet {brought : Brought ι K} (h : s.Noted brought) (hstep : s.step act = some t)
    (hi : act.thread = some i) (hentries : t.entries = s.entries)
    (hpast : pastEnd (t.walkers.loop i) (t.walkers.list.task i) = none)
    (hmade : t.made i = none) : t.Noted brought :=
  h.of_thread hstep hi hentries (fun _ _ => rfl) (fun _ hip => hip)
    (fun ip hip => by rw [hpast] at hip; cases hip) fun dns hdns => by rw [hmade] at hdns; cases hdns

/-- A step of a walk. At the end of the list it has seen all of it. -/
theorem Noted.walk {brought : Brought ι K} (h : s.Noted brought)
    (hstep : s.step (.walk i) = some t) (hmissed : (s.walkers.loop i).isMissed = false)
    (hentries : t.entries = s.entries)
    (hseen : ∀ ip, s.misses (.walk i) = some ip → s.lookup ip = none) :
    t.Noted (s.note (.walk i) brought) := by
  have hmade : ∀ dns, t.made i = some dns → t.walkers.loop i = .missed dns.ip := by
    obtain ⟨v, -, rfl⟩ := onList_cases hstep
    intro dns hdns
    rw [h.made i dns hdns] at hmissed
    cases hmissed
  have hnote : s.note (.walk i) brought =
      if (s.misses (.walk i)).isSome then Function.update brought i [] else brought := rfl
  cases hm : s.misses (.walk i) with
  | none =>
      rw [hnote, hm]
      refine h.of_thread hstep rfl hentries (fun _ _ => rfl) (fun _ hip => hip) ?_ hmade
      intro ip hpast hip
      rcases pastEnd_walk hstep hmissed hpast with hbefore | hnow
      · exact h.ended i ip hbefore hip
      · rw [hm] at hnow
        cases hnow
  | some ip' =>
      rw [hnote, hm, Option.isSome_some, if_pos rfl]
      refine h.of_thread hstep rfl hentries (fun j hj => Function.update_of_ne hj _ _) ?_ ?_ hmade
      · intro ip hip
        simp at hip
      · intro ip hpast hip
        rcases pastEnd_walk hstep hmissed hpast with hbefore | hnow
        · -- at `list_next` the search has not come to the end before
          have hloop : ∀ b, s.walkers.loop i ≠ .next b := by
            intro b hnext
            rw [hnext] at hbefore
            cases hbefore
          unfold misses at hm
          dsimp only at hm
          split at hm
          · rename_i ip'' hnext
            exact absurd hnext (hloop _)
          · cases hm
        · exact absurd hip (not_mem_entries (hseen ip hnow))

/-- A resolver brings its record to the list. -/
theorem Noted.push {brought : Brought ι K} {dns : Dns K} (h : s.Noted brought)
    (hstep : s.step (.push dns) = some t) (hentries : t.entries = s.entries ++ [dns.ip]) :
    t.Noted (s.note (.push dns) brought) := by
  refine ⟨fun j ip hip => ?_, fun j ip hpast hip => ?_, fun j p hp => ?_⟩
  all_goals obtain ⟨hloop, hmade, htask⟩ := step_others (j := j) hstep (by rintro ⟨⟩)
  · rw [hentries]
    rcases List.mem_cons.mp hip with rfl | hold
    · exact List.mem_append_right _ (List.mem_singleton_self _)
    · exact List.mem_append_left _ (h.listed j ip hold)
  · rw [hloop, htask] at hpast
    rw [hentries] at hip
    rcases List.mem_append.mp hip with hold | hnew
    · exact List.mem_cons_of_mem _ (h.ended j ip hpast hold)
    · exact List.mem_singleton.mp hnew ▸ List.mem_cons_self
  · rw [hloop]
    exact h.made j p (hmade ▸ hp)

variable [Fintype ι] {a a' : Pinned (Dns K) Empty}

/-- The step lemma. -/
theorem Noted.step {brought : Brought ι K} (h : s.Noted brought) (hinv : s.Inv a')
    {n : ℕ} (hs : s.Searched a n) (henabled : act.enabled s = true) :
    ∃ t, s.step act = some t ∧ t.Noted (s.note act brought) := by
  obtain ⟨t, b, hstep, ht, hinserted⟩ := hs.step hinv henabled
  refine ⟨t, hstep, ?_⟩
  have hentries : t.entries = s.entries ++ act.lists.toList.map Dns.ip := by
    rw [entries, entries, ht.entries_eq, hs.entries_eq, hinserted, List.map_append]
  have hnothing : act.lists = none → t.entries = s.entries := fun hlists => by
    rw [hentries, hlists]
    exact List.append_nil _
  cases act with
  | ip2host i ip =>
      obtain ⟨-, hoff⟩ : s.walkers.Idle i := by simpa [Act.enabled] using henabled
      have hmade : s.made i = none := by
        by_contra hsome
        obtain ⟨p, hp⟩ := Option.ne_none_iff_exists'.mp hsome
        rw [h.made i p hp] at hoff
        cases hoff
      obtain rfl := Option.some.inj hstep
      refine h.quiet hstep rfl (hnothing rfl) ?_ hmade
      simp [Walkers.enter, pastEnd]
  | walk i =>
      obtain ⟨-, hmissed⟩ : ¬ s.walkers.Idle i ∧ (s.walkers.loop i).isMissed = false := by
        simpa [Act.enabled] using henabled
      exact h.walk hstep hmissed (hnothing rfl) fun ip => hs.misses hinv
  | malloc i ok =>
      obtain ⟨hmissed, hmade⟩ : (s.walkers.loop i).isMissed = true ∧ s.made i = none := by
        simpa [Act.enabled] using henabled
      obtain ⟨ip, hloop⟩ : ∃ ip, s.walkers.loop i = .missed ip := by
        cases hl : s.walkers.loop i <;> simp_all [Loop.isMissed]
      cases ok with
      | true =>
          have hresult := hstep
          rw [Cache.step, hloop] at hresult
          obtain rfl := Option.some.inj hresult
          refine h.of_thread hstep rfl (hnothing rfl) (fun _ _ => rfl) (fun _ hip => hip) ?_ ?_
          · exact fun ip' => h.ended i ip'
          · intro dns hdns
            obtain rfl : (⟨s.fresh, ip⟩ : Dns K) = dns := by simpa using hdns
            exact hloop
      | false =>
          obtain ⟨v, hv, rfl⟩ := onList_cases hstep
          refine h.quiet hstep rfl (hnothing rfl) ?_ hmade
          change pastEnd (v.loop i) _ = none
          rw [loop_resume_missed hloop hv]
          rfl
  | create i ok =>
      obtain ⟨p, hp⟩ := Option.isSome_iff_exists.mp henabled
      have hstep' := hstep
      cases ok with
      | true =>
          rw [Cache.step, hp, Option.bind_some] at hstep'
          obtain ⟨v, hv, rfl⟩ := onList_cases hstep'
          refine h.quiet hstep rfl (hnothing rfl) ?_ (Function.update_self _ _ _)
          change pastEnd (v.loop i) _ = none
          rw [loop_resume_missed (h.made i p hp) hv]
          rfl
      | false =>
          rw [Cache.step, hp, Option.bind_some] at hstep'
          obtain ⟨v, hv, rfl⟩ := onList_cases hstep'
          refine h.quiet hstep rfl (hnothing rfl) ?_ (Function.update_self _ _ _)
          change pastEnd (v.loop i) _ = none
          rw [loop_onList hv]
          rfl
  | push dns => exact h.push hstep hentries

omit [Fintype ι] [DecidableEq ι] [DecidableEq K] in
/-- What the thread could find on the list by another search, it knows from what was brought. -/
theorem Noted.timely_iff {brought : Brought ι K} (h : s.Noted brought) (act : Act ι K) :
    act.Timely (s, brought) ↔ act.Fresh s := by
  cases act with
  | create i ok =>
      cases ok with
      | true =>
          have hknown : ∀ dns ∈ s.made i, dns.ip ∈ s.entries ↔ dns.ip ∈ brought i := by
            intro dns hdns
            refine ⟨h.ended i dns.ip ?_, h.listed i dns.ip⟩
            rw [h.made i dns hdns]
            rfl
          simp only [Act.Timely, Act.Fresh, Act.starts, known, Option.mem_def,
            Option.map_eq_some_iff, List.mem_append, not_or]
          constructor
          · rintro htimely ip ⟨dns, hdns, rfl⟩
            exact ⟨fun hlisted => (htimely dns hdns).2 ((hknown dns hdns).mp hlisted),
              (htimely dns hdns).1⟩
          · intro hfresh dns hdns
            obtain ⟨hlisted, hresolving⟩ := hfresh dns.ip ⟨dns, hdns, rfl⟩
            exact ⟨hresolving, fun hbrought => hlisted ((hknown dns hdns).mpr hbrought)⟩
      | false => exact iff_of_true trivial (by rintro _ ⟨⟩)
  | _ => exact iff_of_true trivial (by rintro _ ⟨⟩)

end Cache

open Cache

variable [Fintype ι] [DecidableEq ι] [DecidableEq K]

/-- In a run of any number of threads no address is listed or resolved twice, provided that
each resolver is started when no other works on its address and none has brought it since the
search that missed it; and where all resolvers have come to their end, only then. -/
theorem unique_of_timely (as : List (Act ι K))
    (hvalid : (caches ι K).Valid (caches ι K).init as) :
    ∃ t, (caches ι K).exec (caches ι K).init as = some t ∧
      ((watched ι K).AllSteps (fun s act => act.Timely s) (watched ι K).init as →
        (caches ι K).AllStates Unique (caches ι K).init as) ∧
      (t.resolving = [] → (caches ι K).AllStates Unique (caches ι K).init as →
        (watched ι K).AllSteps (fun s act => act.Timely s) (watched ι K).init as) := by
  have hiff : (caches ι K).AllSteps (fun s act => act.Fresh s) (caches ι K).init as ↔
      (watched ι K).AllSteps (fun s act => act.Timely s) (watched ι K).init as := by
    have hrecorded : (watched ι K).AllSteps (fun s act => act.Fresh s.1) (watched ι K).init as ↔
        (caches ι K).AllSteps (fun s act => act.Fresh s) (caches ι K).init as :=
      Machine.recorded_allSteps
    have hwatched : (watched ι K).Valid (watched ι K).init as :=
      (Machine.recorded_allSteps (C := (caches ι K).enabled)).mpr hvalid
    rw [← hrecorded]
    refine Machine.allSteps_iff_guard (M := watched ι K)
      (I := fun s => (∃ n, s.1.Ready n) ∧ s.1.Noted s.2) (fun s act h henabled _ => ?_) (fun s act h _ => (h.2.timely_iff act).symm)
      ⟨⟨_, Ready.init⟩, ?_⟩ hwatched
    · obtain ⟨⟨n, ⟨a', hinv⟩, a, hs⟩, hnoted⟩ := h
      obtain ⟨t, hstep, ht⟩ := hnoted.step hinv hs henabled
      obtain ⟨t', hstep', hready, -⟩ := Ready.step ⟨⟨a', hinv⟩, a, hs⟩ henabled
      obtain rfl := Option.some.inj (hstep.symm.trans hstep')
      exact ⟨_, Option.map_eq_some_iff.mpr ⟨t, hstep, rfl⟩, ⟨_, hready⟩, ht⟩
    · exact ⟨by rintro i ip ⟨⟩, by rintro i ip ⟨⟩, by rintro i dns ⟨⟩⟩
  obtain ⟨t, hexec, hunique, hback⟩ := unique_of_fresh as hvalid
  exact ⟨t, hexec, fun htimely => hunique (hiff.mpr htimely),
    fun hended h => hiff.mp (hback hended h)⟩

/-- Two connections from one address, and one from another, each after the resolver before. -/
def oneByOne : List (Act Bool ℕ) :=
  [.ip2host false 7, .walk false, .walk false, .malloc false true, .create false true,
    .ip2host true 8, .walk true, .push ⟨0, 7⟩, .ip2host false 7, .walk false, .walk false,
    .walk true, .malloc true true, .create true true, .push ⟨1, 8⟩, .ip2host true 8, .walk true,
    .walk true, .walk true, .walk true]

theorem oneByOne_unique :
    (caches Bool ℕ).AllStates Unique (caches Bool ℕ).init oneByOne := by
  obtain ⟨t, -, hunique, -⟩ := unique_of_timely oneByOne (by decide)
  exact hunique (by decide)

/-- The second connection comes before the first resolver is done. -/
def atOnce : List (Act Unit ℕ) :=
  [.ip2host () 7, .walk (), .walk (), .malloc () true, .create () true, .ip2host () 7, .walk (),
    .walk (), .malloc () true, .create () true, .push ⟨0, 7⟩, .push ⟨1, 7⟩]

theorem atOnce_not_unique :
    ¬ ∀ as : List (Act Unit ℕ), (caches Unit ℕ).Valid (caches Unit ℕ).init as →
      (caches Unit ℕ).AllStates Unique (caches Unit ℕ).init as := by
  intro h
  exact absurd ((h atOnce (by decide)).last rfl).entries (by decide)

end ThreeW3.HostCache
