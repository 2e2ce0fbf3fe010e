/-
# Calls that overlap

The table under calls of any number of threads. A call is a few accesses, and an access is
one step: a part under the lock, the load test after it, the test of `entries` in
`hash_keys` and `hash_sethashfunction`, and the assignment of `hash_func`. Calls have
numbers, and two calls may overlap in any way; those of one thread do not, which is a
special case.
-/

import ThreeW3.Lib.Linearize
import ThreeW3.Hash.Failures

namespace ThreeW3.Hash

open ThreeW3.Lib ThreeW3.Lib.History ThreeW3.Pool HashTable

variable {R D : Type} {L : Layout} {G : Geometry L} {ht ht' : HashTable R D} {key : Key} {data : D}
  {a : Alloc} {arg : KeyArg}

/-! ## Accesses -/

/-- Where a call is. -/
inductive Pc (R D : Type)
  /-- Before its first access. -/
  | ready (op : Op R D)
  /-- `hash_keys` after its test of `entries`. -/
  | list (fast : Bool)
  /-- `hash_sethashfunction` after its test of `entries`. -/
  | assign (hf : Option (List UInt8 → BitVec 32))
  /-- Before the load test, of an insertion or of a deletion that has found nothing. -/
  | test (inserted : Bool) (reply : Reply D)
  /-- Before the resizing that the load test has asked for. -/
  | rehash (reply : Reply D)
  /-- After its last access. -/
  | leave (reply : Reply D)
  | left

/-- What an access does: the table, the call and its answer if it takes effect there, and
where the call is then. -/
abbrev Access (R D : Type) := HashTable R D × Option (Op R D × Reply D) × Pc R D

/-- The next access of a call. -/
def Pc.access [FloatOps R] (G : Geometry L) (ht : HashTable R D) (a : Alloc) :
    Pc R D → Option (Access R D)
  | .ready (.search arg data) => do
      let key ← arg.resolve
      let (ht, hf, written) ← searchSection G ht key data a
      let reply := .value hf.toInt (some written)
      some (ht, some (.search arg data, reply), if hf then .test true reply else .leave reply)
  | .ready (.find arg) => do
      let key ← arg.resolve
      let (ht, found) ← findSection ht key
      let reply := .value found.isNone.toInt found
      some (ht, some (.find arg, reply), .leave reply)
  | .ready (.replace arg data) => do
      let key ← arg.resolve
      let (ht, old) ← replaceSection G ht key data a
      let reply := .value old.isNone.toInt old
      some (ht, some (.replace arg data, reply), if old.isNone then .test true reply else .leave reply)
  | .ready (.delete arg) => do
      let key ← arg.resolve
      let (ht, old) ← deleteSection L ht key
      let reply := .value old.isNone.toInt old
      some (ht, some (.delete arg, reply), if old.isNone then .test false reply else .leave reply)
  | .ready .rehash => do
      let ht ← hashRehash ht a
      some (ht, some (.rehash, .value 0 none), .leave (.value 0 none))
  | .ready (.keys fast) =>
      if ht.entries = 0 then
        let reply := .keys ⟨none, some 0⟩
        some (ht, some (.keys fast, reply), .leave reply)
      else some (ht, none, .list fast)
  | .ready (.sethashfunction hf) =>
      if ht.entries ≠ 0 then
        some (ht, some (.sethashfunction hf, .value (-1) none), .leave (.value (-1) none))
      else some (ht, some (.sethashfunction hf, .value 0 none), .assign hf)
  | .list fast => do
      let (ht, result) ← keysSection ht fast a
      some (ht, some (.keys fast, .keys result), .leave (.keys result))
  | .assign hf => some ({ ht with hashFunc := hf.getD hashFunc }, none, .leave (.value 0 none))
  | .test inserted reply =>
      let resize := if inserted then crowded ht else sparse ht
      some (ht, none, if resize then .rehash reply else .leave reply)
  | .rehash reply => do
      let ht ← hashRehash ht a
      some (ht, none, .leave reply)
  | .ready _ | .leave _ | .left => none

/-- The accesses of a call that nothing interrupts, at most three. -/
def Pc.finish [FloatOps R] (G : Geometry L) (a : Alloc) :
    ℕ → HashTable R D → Pc R D → Option (HashTable R D × Reply D)
  | _, ht, .leave reply => some (ht, reply)
  | 0, _, _ => none
  | n + 1, ht, pc => do
      let (ht, _, pc) ← pc.access G ht a
      finish G a n ht pc

/-- The calls that threads make. -/
def Op.Shared : Op R D → Prop
  | .setthresholds _ _ | .setflags _ | .setflag _ | .clearflag _ => False
  | _ => True

@[simp]
theorem finish_leave [FloatOps R] (n : ℕ) (reply : Reply D) :
    (Pc.leave reply).finish G a n ht = some (ht, reply) := by
  cases n <;> rfl

/-- What follows the load test. -/
theorem finish_test [FloatOps R] (n : ℕ) (inserted : Bool) (reply : Reply D) :
    (Pc.test inserted reply).finish G a (n + 2) ht =
      (rehashIf (if inserted then crowded ht else sparse ht) ht a).map fun ht => (ht, reply) := by
  change ((Pc.test inserted reply).access G ht a).bind
    (fun r => Pc.finish G a (n + 1) r.1 r.2.2) = _
  rw [Pc.access]
  cases hresize : (if inserted then crowded ht else sparse ht) with
  | false => simp [rehashIf]
  | true => cases hrehash : hashRehash ht a <;> simp [Pc.finish, Pc.access, rehashIf, hrehash]

/-- Uninterrupted, the accesses of a call are the call. -/
theorem finish_eq_perform [FloatOps R] {op : Op R D} (hop : op.Shared) :
    (Pc.ready op).finish G a 3 ht = perform G ht a op := by
  change ((Pc.ready op).access G ht a).bind (fun r => Pc.finish G a 2 r.1 r.2.2) = _
  cases op with
  | search arg data =>
      simp only [Pc.access, perform, hashSearch, Option.bind_eq_bind, Option.bind_assoc,
        Option.bind_some]
      refine Option.bind_congr fun key _ => Option.bind_congr fun r _ => ?_
      obtain ⟨ht, hf, written⟩ := r
      cases hf with
      | false => simp [rehashIf]
      | true => simp [finish_test, Option.map_eq_bind]
  | find arg =>
      simp only [Pc.access, perform, hashFind, Option.bind_eq_bind, Option.bind_assoc,
        Option.bind_some, finish_leave]
  | replace arg data =>
      simp only [Pc.access, perform, hashReplace, Option.bind_eq_bind, Option.bind_assoc,
        Option.bind_some]
      refine Option.bind_congr fun key _ => Option.bind_congr fun r _ => ?_
      obtain ⟨ht, old⟩ := r
      cases old with
      | some d => simp [rehashIf]
      | none => simp [finish_test, Option.map_eq_bind]
  | delete arg =>
      simp only [Pc.access, perform, hashDelete, Option.bind_eq_bind, Option.bind_assoc,
        Option.bind_some]
      refine Option.bind_congr fun key _ => Option.bind_congr fun r _ => ?_
      obtain ⟨ht, old⟩ := r
      cases old with
      | some d => simp [rehashIf]
      | none => simp [finish_test, Option.map_eq_bind]
  | rehash =>
      simp only [Pc.access, perform, Option.bind_eq_bind, Option.bind_assoc, Option.bind_some,
        finish_leave]
  | keys fast =>
      rw [Pc.access, perform, hashKeys]
      split_ifs with hentries
      · simp
      · cases hsection : keysSection ht fast a <;> simp [Pc.finish, Pc.access, hsection]
  | sethashfunction hf =>
      rw [Pc.access, perform, hashSethashfunction]
      split_ifs <;> simp [Pc.finish, Pc.access]
  | setthresholds _ _ | setflags _ | setflag _ | clearflag _ => exact absurd hop id

/-! ## Interleavings -/

/-- The table and its calls, and a log of what they have done. -/
structure Threads (R D : Type) where
  table : HashTable R D
  pc : ℕ → Option (Pc R D)
  log : List (Mark (Op R D) (Reply D))

/-- A step: a call begins, makes its next access, or returns. -/
inductive Action (R D : Type)
  | invoke (i : ℕ) (op : Op R D)
  | advance (i : ℕ) (a : Alloc)
  | ret (i : ℕ)

/-- The log after an access. -/
def record (log : List (Mark (Op R D) (Reply D))) (i : ℕ) :
    Option (Op R D × Reply D) → List (Mark (Op R D) (Reply D))
  | some (op, reply) => log ++ [.lin i op reply]
  | none => log

def Threads.step [FloatOps R] (G : Geometry L) (s : Threads R D) :
    Action R D → Option (Threads R D)
  | .invoke i op =>
      match s.pc i with
      | none => some ⟨s.table, Function.update s.pc i (some (.ready op)), s.log ++ [.inv i op]⟩
      | some _ => none
  | .advance i a => do
      let pc ← s.pc i
      let (ht, settled, pc) ← pc.access G s.table a
      some ⟨ht, Function.update s.pc i (some pc), record s.log i settled⟩
  | .ret i =>
      match s.pc i with
      | some (.leave reply) =>
          some ⟨s.table, Function.update s.pc i (some .left), s.log ++ [.res i reply]⟩
      | _ => none

/-- A call can read its key when it looks for it. -/
def Pc.Reads (ht : HashTable R D) : Pc R D → Prop
  | .ready op => ∀ arg ∈ op.arg, ht.Reads arg
  | _ => True

/-- What the threads and the system promise. -/
def Action.Enabled (L : Layout) (s : Threads R D) : Action R D → Prop
  | .invoke _ op => op.Shared
  | .advance i a => a.Maps L s.table ∧ ∀ pc ∈ s.pc i, pc.Reads s.table
  | .ret _ => True

/-- Every entry is in the bucket that the function selects. -/
def HashTable.Accepts (ht : HashTable R D) (hf : List UInt8 → BitVec 32) : Prop :=
  ∀ i < ht.chains.length, ∀ he ∈ ht.chains.getD i [], (hf he.bytes).toNat &&& sizePred ht.size = i

/-- Where an access does not go wrong: a hash function is assigned only if the entries are in
its buckets, the pool takes chunks back, the allocations succeed, and an `int` can count the
keys. -/
def Pc.Sound [FloatOps R] (L : Layout) (ht : HashTable R D) (a : Alloc) : Pc R D → Prop
  | .ready (.search arg _) => ∀ key ∈ arg.resolve, ht.Lacks key.bytes → ht.nocopy = false →
      a.key = true
  | .ready (.replace arg _) => ∀ key ∈ arg.resolve, ht.Lacks key.bytes → ht.nocopy = false →
      a.key = true
  | .ready (.delete arg) => ∀ key ∈ arg.resolve, ht.Orderly L key.bytes
  | .ready .rehash => resizes ht = true → a.buckets = true
  | .rehash _ => resizes ht = true → a.buckets = true
  | .list _ => a.keys = true ∧ (∀ b ∈ a.keyCopies, b = true) ∧ ht.entries < 0x80000000
  | .assign hf => ht.Accepts (hf.getD hashFunc)
  | _ => True

def Action.Sound [FloatOps R] (L : Layout) (s : Threads R D) : Action R D → Prop
  | .advance i a => ∀ pc ∈ s.pc i, pc.Sound L s.table a
  | _ => True

instance decidablePcReads (ht : HashTable R D) (pc : Pc R D) : Decidable (pc.Reads ht) := by
  cases pc <;> unfold Pc.Reads <;> infer_instance

instance decidableShared : (op : Op R D) → Decidable op.Shared
  | .setthresholds _ _ | .setflags _ | .setflag _ | .clearflag _ => isFalse not_false
  | .search _ _ | .find _ | .replace _ _ | .delete _ | .rehash | .keys _ | .sethashfunction _ =>
      isTrue trivial

instance decidableActionEnabled (s : Threads R D) (action : Action R D) :
    Decidable (action.Enabled L s) := by
  cases action <;> unfold Action.Enabled <;> infer_instance

instance decidableAccepts (ht : HashTable R D) (hf : List UInt8 → BitVec 32) :
    Decidable (ht.Accepts hf) :=
  inferInstanceAs (Decidable (∀ i < ht.chains.length, ∀ he ∈ ht.chains.getD i [],
    (hf he.bytes).toNat &&& sizePred ht.size = i))

instance decidablePcSound [FloatOps R] (ht : HashTable R D) (a : Alloc) (pc : Pc R D) :
    Decidable (pc.Sound L ht a) := by
  unfold Pc.Sound
  split <;> infer_instance

instance decidableActionSound [FloatOps R] (s : Threads R D) (action : Action R D) :
    Decidable (action.Sound L s) := by
  cases action <;> unfold Action.Sound <;> infer_instance

/-- The calls of any threads on one table. -/
def threads [FloatOps R] (G : Geometry L) (ht : HashTable R D) :
    Machine (Threads R D) (Action R D) where
  init := ⟨ht, fun _ => none, []⟩
  enabled s action := action.Enabled L s
  step s action := s.step G action

/-! ## One access -/

/-- How far a call is, as its callers see it. -/
def Pc.phase : Option (Pc R D) → Phase (Op R D) (Reply D)
  | none => .fresh
  | some (.ready op) => .called op
  | some (.list fast) => .called (.keys fast)
  | some (.assign _) => .settled (.value 0 none)
  | some (.test _ reply) => .settled reply
  | some (.rehash reply) => .settled reply
  | some (.leave reply) => .settled reply
  | some .left => .ended

theorem phase_update (pcs : ℕ → Option (Pc R D)) (i : ℕ) (pc : Option (Pc R D)) :
    (fun j => Pc.phase (Function.update pcs i pc j)) =
      Function.update (fun j => Pc.phase (pcs j)) i (Pc.phase pc) := by
  funext j
  by_cases hji : j = i
  · subst hji
    simp
  · simp [hji]

/-- An access that takes effect does what its call does on the map, and any other leaves the
map as it is. -/
def Pc.Takes (ht : HashTable R D) (pc : Pc R D) (r : Access R D) : Prop :=
  match r.2.1 with
  | some (op, reply) => Pc.phase (some pc) = .called op ∧ MapSpec ht.contents op reply r.1.contents ∧
      Pc.phase (some r.2.2) = .settled reply
  | none => r.1.contents = ht.contents ∧ Pc.phase (some r.2.2) = Pc.phase (some pc)

theorem HashTable.Shape.accepts (h : ht.Shape) {hf : List UInt8 → BitVec 32} (hf' : ht.Accepts hf) :
    ({ ht with hashFunc := hf } : HashTable R D).Shape := by
  refine ⟨h.buckets, h.length, h.pow, ?_, h.keyed, h.nodup, h.entries⟩
  intro i c hc he hhe
  have hc' : ht.chains[i]? = some c := hc
  obtain ⟨hi, -⟩ := List.getElem?_eq_some_iff.mp hc'
  refine hf' i hi he ?_
  rw [List.getD_eq_getElem?_getD, hc']
  exact hhe

theorem searchSection_maps (data : D) (h : ht.Ok G) (hfree : ht.locked = false)
    (hkey : key ∈ arg.resolve) (hunmutated : ht.Unmutated key) (hpage : a.Maps L ht)
    (hcopy : ht.Lacks key.bytes → ht.nocopy = false → a.key = true) :
    ∃ ht' hf written, searchSection G ht key data a = some (ht', hf, written) ∧
      MapSpec ht.contents (.search arg data : Op R D) (.value hf.toInt (some written))
        ht'.contents ∧
      ht'.Ok G ∧ ht'.locked = false := by
  by_cases hmem : key.bytes ∈ ht.contents
  · obtain ⟨he, hhe, hbytes⟩ := exists_entry hmem
    have hlookup := h.lookup hhe
    rw [hbytes] at hlookup
    refine ⟨ht, false, he.data, searchSection_found data h.toShape hfree hunmutated hhe hbytes,
      ⟨key, hkey, ?_⟩, h, hfree⟩
    rw [hlookup]
    exact ⟨rfl, rfl⟩
  · obtain ⟨ht', hsection, hbecame⟩ := h.search_missing data hfree hunmutated hmem hpage
      (hcopy (lacks_iff.mpr hmem))
    refine ⟨ht', true, data, hsection, ⟨key, hkey, ?_⟩, hbecame.ok,
      hbecame.same.locked.trans hfree⟩
    rw [Finmap.lookup_eq_none.mpr hmem]
    exact ⟨rfl, hbecame.contents⟩

section Access

variable [FloatOps R]

/-- An access keeps the table in order, and does what it does on the map. -/
structure Pc.Keeps (G : Geometry L) (ht : HashTable R D) (pc : Pc R D) (r : Access R D) :
    Prop where
  ok : r.1.Ok G
  free : r.1.locked = false
  takes : pc.Takes ht r

theorem access_search {r : Access R D} (h : ht.Ok G) (hfree : ht.locked = false)
    (hpage : a.Maps L ht) (hreads : ht.Reads arg)
    (hcopy : ∀ key ∈ arg.resolve, ht.Lacks key.bytes → ht.nocopy = false → a.key = true)
    (haccess : (Pc.ready (.search arg data)).access G ht a = some r) :
    (Pc.ready (.search arg data)).Keeps G ht r := by
  obtain ⟨key, hkey, hunmutated⟩ := hreads
  obtain ⟨ht', hf, written, hsection, hspec, hok, hfree'⟩ :=
    searchSection_maps data h hfree hkey hunmutated hpage (hcopy key hkey)
  rw [Option.mem_def] at hkey
  simp only [Pc.access, hkey, hsection, Option.bind_eq_bind, Option.bind_some] at haccess
  obtain rfl := Option.some.inj haccess
  refine ⟨hok, hfree', rfl, hspec, ?_⟩
  cases hf <;> rfl

theorem access_find {r : Access R D} (h : ht.Ok G) (hfree : ht.locked = false)
    (hreads : ht.Reads arg) (haccess : (Pc.ready (.find arg)).access G ht a = some r) :
    (Pc.ready (.find arg)).Keeps G ht r := by
  obtain ⟨key, hkey, hunmutated⟩ := hreads
  have hsection := findSection_spec h.toShape hfree hunmutated
  have hkey' := Option.mem_def.mp hkey
  simp only [Pc.access, hkey', hsection, Option.bind_eq_bind, Option.bind_some] at haccess
  obtain rfl := Option.some.inj haccess
  refine ⟨h, hfree, rfl, ⟨key, hkey, rfl, ?_⟩, rfl⟩
  cases ht.contents.lookup key.bytes <;> rfl

theorem access_replace {r : Access R D} (h : ht.Ok G) (hfree : ht.locked = false)
    (hpage : a.Maps L ht) (hreads : ht.Reads arg)
    (hcopy : ∀ key ∈ arg.resolve, ht.Lacks key.bytes → ht.nocopy = false → a.key = true)
    (haccess : (Pc.ready (.replace arg data)).access G ht a = some r) :
    (Pc.ready (.replace arg data)).Keeps G ht r := by
  obtain ⟨key, hkey, hunmutated⟩ := hreads
  obtain ⟨ht', hsection, hbecame⟩ := h.replace data hfree hunmutated hpage
    fun hmiss => hcopy key hkey (lacks_iff.mpr hmiss)
  have hkey' := Option.mem_def.mp hkey
  simp only [Pc.access, hkey', hsection, Option.bind_eq_bind, Option.bind_some] at haccess
  obtain rfl := Option.some.inj haccess
  refine ⟨hbecame.ok, hbecame.same.locked.trans hfree, rfl,
    ⟨key, hkey, hbecame.contents, ?_⟩, ?_⟩
  · cases ht.contents.lookup key.bytes <;> rfl
  · cases ht.contents.lookup key.bytes <;> rfl

theorem access_delete {r : Access R D} (h : ht.Ok G) (hfree : ht.locked = false)
    (hreads : ht.Reads arg) (horderly : ∀ key ∈ arg.resolve, ht.Orderly L key.bytes)
    (haccess : (Pc.ready (.delete arg)).access G ht a = some r) :
    (Pc.ready (.delete arg)).Keeps G ht r := by
  obtain ⟨key, hkey, hunmutated⟩ := hreads
  obtain ⟨ht', hsection, hbecame⟩ := h.delete hfree hunmutated (horderly key hkey)
  have hkey' := Option.mem_def.mp hkey
  simp only [Pc.access, hkey', hsection, Option.bind_eq_bind, Option.bind_some] at haccess
  obtain rfl := Option.some.inj haccess
  refine ⟨hbecame.ok, hbecame.same.locked.trans hfree, rfl,
    ⟨key, hkey, hbecame.contents, ?_⟩, ?_⟩
  · cases ht.contents.lookup key.bytes <;> rfl
  · cases ht.contents.lookup key.bytes <;> rfl

/-- The test of `entries` tells whether the map is empty, and the answer is that of then. -/
theorem access_sethashfunction {hf : Option (List UInt8 → BitVec 32)} {r : Access R D}
    (h : ht.Ok G) (hfree : ht.locked = false)
    (haccess : (Pc.ready (.sethashfunction hf)).access G ht a = some r) :
    (Pc.ready (.sethashfunction hf)).Keeps G ht r := by
  rw [Pc.access] at haccess
  split_ifs at haccess with hentries
  · obtain rfl := Option.some.inj haccess
    exact ⟨h, hfree, rfl,
      ⟨rfl, fun hm => absurd (h.contents_eq_empty_iff.mp hm) hentries, fun _ => rfl⟩, rfl⟩
  · obtain rfl := Option.some.inj haccess
    rw [not_not] at hentries
    exact ⟨h, hfree, rfl,
      ⟨rfl, fun _ => rfl, fun hm => absurd (h.contents_eq_empty_iff.mpr hentries) hm⟩, rfl⟩

/-- A resizing that ends keeps the map. -/
theorem hashRehash_became (h : ht.Ok G) (hfree : ht.locked = false)
    (hbuckets : resizes ht = true → a.buckets = true) (hrehash : hashRehash ht a = some ht') :
    Became G ht ht.contents ht' := by
  have htarget : RehashOk ht := by
    by_contra htarget
    rw [hashRehash_diverges hfree htarget] at hrehash
    cases hrehash
  obtain ⟨ht'', hrehash', hbecame⟩ := h.rehash hfree ⟨htarget, hbuckets⟩
  obtain rfl := Option.some.inj (hrehash'.symm.trans hrehash)
  exact hbecame

/-- Every access that goes on keeps the table in order. -/
theorem access_spec {pc : Pc R D} {r : Access R D} (h : ht.Ok G) (hfree : ht.locked = false)
    (hpage : a.Maps L ht) (hreads : pc.Reads ht) (hsound : pc.Sound L ht a)
    (haccess : pc.access G ht a = some r) : pc.Keeps G ht r := by
  cases pc with
  | ready op =>
      cases op with
      | search arg data => exact access_search h hfree hpage (hreads arg rfl) hsound haccess
      | find arg => exact access_find h hfree (hreads arg rfl) haccess
      | replace arg data => exact access_replace h hfree hpage (hreads arg rfl) hsound haccess
      | delete arg => exact access_delete h hfree (hreads arg rfl) hsound haccess
      | rehash =>
          obtain ⟨ht', hresized, hresult⟩ := Option.bind_eq_some_iff.mp haccess
          obtain rfl := Option.some.inj hresult
          have hbecame := hashRehash_became h hfree hsound hresized
          exact ⟨hbecame.ok, hbecame.same.locked.trans hfree, rfl, ⟨hbecame.contents, rfl⟩, rfl⟩
      | keys fast =>
          rw [Pc.access] at haccess
          split_ifs at haccess with hentries
          · obtain rfl := Option.some.inj haccess
            exact ⟨h, hfree, rfl, ⟨rfl, _, rfl, listsKeys_empty h.toShape hentries⟩, rfl⟩
          · obtain rfl := Option.some.inj haccess
            exact ⟨h, hfree, rfl, rfl⟩
      | sethashfunction hf => exact access_sethashfunction h hfree haccess
      | setthresholds _ _ | setflags _ | setflag _ | clearflag _ => cases haccess
  | list fast =>
      obtain ⟨ht', result, hsection, hlists, hbecame⟩ :=
        keysSection_lists h hfree fast hsound.1 hsound.2.1 hsound.2.2
      simp only [Pc.access, hsection, Option.bind_eq_bind, Option.bind_some] at haccess
      obtain rfl := Option.some.inj haccess
      exact ⟨hbecame.ok, hbecame.same.locked.trans hfree, rfl,
        ⟨hbecame.contents, result, rfl, hlists⟩, rfl⟩
  | assign hf =>
      obtain rfl := Option.some.inj haccess
      exact ⟨⟨h.toShape.accepts hsound, h.pool⟩, hfree, rfl, rfl⟩
  | test inserted reply =>
      obtain rfl := Option.some.inj haccess
      refine ⟨h, hfree, rfl, ?_⟩
      dsimp only
      split_ifs <;> rfl
  | rehash reply =>
      obtain ⟨ht', hresized, hresult⟩ := Option.bind_eq_some_iff.mp haccess
      obtain rfl := Option.some.inj hresult
      have hbecame := hashRehash_became h hfree hsound hresized
      exact ⟨hbecame.ok, hbecame.same.locked.trans hfree, hbecame.contents, rfl⟩
  | leave reply => cases haccess
  | left => cases haccess

/-! ## Runs -/

/-- The log tells where the calls are, and the calls that have taken effect lead to the stored
map. -/
structure Threads.Ok (G : Geometry L) (s : Threads R D) : Prop where
  table : s.table.Ok G
  free : s.table.locked = false
  follows : Follows s.log fun i => Pc.phase (s.pc i)
  legal : Legal MapSpec ∅ (settledCalls s.log) s.table.contents

theorem step_keeps (s : Threads R D) (action : Action R D) (s' : Threads R D) (h : s.Ok G)
    (henabled : action.Enabled L s) (hsound : action.Sound L s)
    (hstep : s.step G action = some s') : s'.Ok G := by
  cases action with
  | invoke i op =>
      rw [Threads.step] at hstep
      split at hstep
      next hpc =>
        obtain rfl := Option.some.inj hstep
        refine ⟨h.table, h.free, ?_, ?_⟩
        · dsimp only
          rw [phase_update]
          exact h.follows.inv i op (by rw [hpc, Pc.phase])
        · rw [settledCalls_inv]
          exact h.legal
      next => cases hstep
  | advance i a =>
      obtain ⟨pc, hpc, hrest⟩ := Option.bind_eq_some_iff.mp hstep
      obtain ⟨⟨ht, settled, pc'⟩, haccess, hresult⟩ := Option.bind_eq_some_iff.mp hrest
      obtain rfl := Option.some.inj hresult
      obtain ⟨hok, hfree, htakes⟩ := access_spec h.table h.free henabled.1 (henabled.2 pc hpc)
        (hsound pc hpc) haccess
      cases settled with
      | none =>
          obtain ⟨hcontents, hphase⟩ := htakes
          refine ⟨hok, hfree, ?_, ?_⟩
          · dsimp only [record]
            rw [phase_update, hphase, ← hpc, Function.update_eq_self]
            exact h.follows
          · dsimp only [record]
            rw [hcontents]
            exact h.legal
      | some effect =>
          obtain ⟨op, reply⟩ := effect
          obtain ⟨hcalled, hspec, hphase⟩ := htakes
          refine ⟨hok, hfree, ?_, ?_⟩
          · dsimp only [record]
            rw [phase_update, hphase]
            exact h.follows.lin i op reply (by rw [hpc, hcalled])
          · dsimp only [record]
            rw [settledCalls_lin]
            exact h.legal.concat hspec
  | ret i =>
      rw [Threads.step] at hstep
      split at hstep
      next reply hpc =>
        obtain rfl := Option.some.inj hstep
        refine ⟨h.table, h.free, ?_, ?_⟩
        · dsimp only
          rw [phase_update]
          exact h.follows.res i reply (by rw [hpc, Pc.phase])
        · rw [settledCalls_res]
          exact h.legal
      next => cases hstep

end Access

/-! ## Keys that are found -/

/-- The call inserts the key, or finds it. -/
def Op.Inserts (b : List UInt8) : Op R D → Prop
  | .search arg _ => ∃ key ∈ arg.resolve, key.bytes = b
  | .replace arg _ => ∃ key ∈ arg.resolve, key.bytes = b
  | _ => False

/-- The call deletes the key. -/
def Op.Deletes (b : List UInt8) : Op R D → Prop
  | .delete arg => ∃ key ∈ arg.resolve, key.bytes = b
  | _ => False

/-- A key that an insertion has put into the table before a call of `hash_find` begins is found
by it, if every deletion of the key ends before the insertion begins or begins after
`hash_find` has ended. -/
def KeysFound (H : List (Event (Op R D) (Reply D))) : Prop :=
  ∀ b i op reply f arg found, op.Inserts b → .inv i op ∈ H →
    Before H (.res i reply) (.inv f (.find arg)) → (∃ key ∈ arg.resolve, key.bytes = b) →
    .res f found ∈ H →
    (∀ d op', op'.Deletes b → .inv d op' ∈ H →
      (∃ reply', Before H (.res d reply') (.inv i op)) ∨ Before H (.res f found) (.inv d op')) →
    ∃ data, found = .value 0 (some data)

section Found

variable {b : List UInt8} {m m' : Finmap fun _ : List UInt8 => D} {op : Op R D} {reply : Reply D}

theorem MapSpec.inserts (h : MapSpec m op reply m') (hop : op.Inserts b) : b ∈ m' := by
  cases op with
  | search arg data =>
      obtain ⟨key, hkey, rfl⟩ := hop
      obtain ⟨key', hkey', hspec⟩ := h
      obtain rfl := Option.some.inj (hkey.symm.trans hkey')
      cases hlookup : m.lookup key.bytes with
      | some d =>
          rw [hlookup] at hspec
          rw [hspec.2]
          exact Finmap.mem_of_lookup_eq_some hlookup
      | none =>
          rw [hlookup] at hspec
          rw [hspec.2]
          exact Finmap.mem_insert.mpr (.inl rfl)
  | replace arg data =>
      obtain ⟨key, hkey, rfl⟩ := hop
      obtain ⟨key', hkey', rfl, -⟩ := h
      obtain rfl := Option.some.inj (hkey.symm.trans hkey')
      exact Finmap.mem_insert.mpr (.inl rfl)
  | _ => exact absurd hop id

/-- Only a deletion of the key takes it away. -/
theorem MapSpec.keeps (h : MapSpec m op reply m') (hop : ¬ op.Deletes b) (hb : b ∈ m) : b ∈ m' := by
  cases op with
  | search arg data =>
      obtain ⟨key, hkey, hspec⟩ := h
      split at hspec
      · rw [hspec.2]
        exact hb
      · rw [hspec.2]
        exact Finmap.mem_insert.mpr (.inr hb)
  | replace arg data =>
      obtain ⟨key, hkey, rfl, -⟩ := h
      exact Finmap.mem_insert.mpr (.inr hb)
  | delete arg =>
      obtain ⟨key, hkey, rfl, -⟩ := h
      refine Finmap.mem_erase.mpr ⟨?_, hb⟩
      rintro rfl
      exact hop ⟨key, hkey, rfl⟩
  | find arg =>
      obtain ⟨key, hkey, rfl, -⟩ := h
      exact hb
  | rehash | keys _ | sethashfunction _ =>
      obtain ⟨rfl, -⟩ := h
      exact hb
  | setthresholds _ _ | setflags _ | setflag _ | clearflag _ =>
      obtain rfl := h
      exact hb

theorem MapSpec.found {arg : KeyArg} (h : MapSpec m (.find arg : Op R D) reply m')
    (hkey : ∃ key ∈ arg.resolve, key.bytes = b) (hb : b ∈ m) :
    ∃ data, reply = .value 0 (some data) := by
  obtain ⟨key, hkey, rfl⟩ := hkey
  obtain ⟨key', hkey', -, hspec⟩ := h
  obtain rfl := Option.some.inj (hkey.symm.trans hkey')
  obtain ⟨data, hlookup⟩ := Finmap.mem_iff.mp hb
  rw [hlookup] at hspec
  exact ⟨data, hspec⟩

theorem keysFound_of_linearizable {H : List (Event (Op R D) (Reply D))}
    (hunique : ∀ i op op', .inv i op ∈ H → .inv i op' ∈ H → op = op')
    (hlinearizable : Linearizable MapSpec ∅ H) : KeysFound H := by
  intro b i op reply f arg found hinserts hi hbefore hkey hf hdeletes
  obtain ⟨order, h⟩ := hlinearizable
  obtain ⟨c, hc, rfl, -⟩ := h.answered i reply hbefore.mem.1
  obtain ⟨c', hc', rfl, rfl⟩ := h.answered f found hf
  obtain rfl := hunique _ _ _ hi (h.begun c hc)
  have hfind := hunique _ _ _ hbefore.mem.2 (h.begun c' hc')
  have hnodup : order.Nodup := List.Nodup.of_map _ h.nodup
  obtain ⟨l₁, l₂, l₃, rfl⟩ :=
    (h.ordered c hc c' hc' reply (by rwa [← hfind])).split
  obtain ⟨t, hlegal⟩ := h.legal
  obtain ⟨s₁, -, s₂, hinsert, hrest⟩ := legal_append.mp hlegal
  obtain ⟨s₃, hbetween, s₄, hfound, -⟩ := legal_append.mp hrest
  have hb : b ∈ s₃ := by
    refine hbetween.keeps (P := fun m => b ∈ m) ?_ (hinsert.inserts hinserts)
    intro d hd s t hspec hs
    refine hspec.keeps (fun hdelete => ?_) hs
    have hd' : d ∈ l₁ ++ c :: (l₂ ++ c' :: l₃) := by simp [hd]
    rcases hdeletes d.id d.op hdelete (h.begun d hd') with ⟨reply', hended⟩ | hlater
    · -- The deletion would come before the insertion.
      refine (h.ordered d hd' c hc reply' hended).asymm hnodup
        ⟨l₁ ++ [c], l₂ ++ c' :: l₃, ?_, ?_, ?_⟩
      · simp
      · simp
      · simp [hd]
    · refine (h.ordered c' hc' d hd' _ hlater).asymm hnodup ⟨l₁ ++ c :: l₂, c' :: l₃, ?_, ?_, ?_⟩
      · simp
      · simp [hd]
      · simp
  rw [← hfind] at hfound
  exact hfound.found hkey hb

end Found

/-! ## Any number of threads -/

/-- Any calls on a new table with a lock, in any interleaving: as long as every access is
sound, the calls that have ended have the answers of a sequential order on a finite map,
and a key that has been inserted and not deleted is found. -/
theorem threads_linearizable [FloatOps R] {size : BitVec 32} {flags : BitVec 32} {boot : NewAlloc}
    (hnew : hashNew size true flags boot = some (some ht)) (hbuckets : ht.buckets ≠ none)
    (actions : List (Action R D))
    (hvalid : (threads G ht).Valid (threads G ht).init actions)
    (hsound : (threads G ht).AllSteps (fun s action => action.Sound L s)
      (threads G ht).init actions) :
    (threads G ht).AllStates
      (fun s => Linearizable MapSpec ∅ (history s.log) ∧ KeysFound (history s.log))
      (threads G ht).init actions := by
  obtain ⟨hok, hempty, hfree⟩ := hashNew_spec (G := G) hnew hbuckets
  have hinit : (threads G ht).init.Ok G := by
    refine ⟨hok, hfree, .nil, ?_⟩
    change ∅ = ht.contents
    rw [hempty]
  refine (Machine.allStates_of_keeps step_keeps hinit hvalid hsound).mono fun s h => ?_
  have hlinearizable := h.follows.linearizable h.legal
  exact ⟨hlinearizable, keysFound_of_linearizable h.follows.traced.unique hlinearizable⟩

instance decidableThreadsEnabled [FloatOps R] (ht : HashTable R D) (s : Threads R D)
    (action : Action R D) : Decidable ((threads G ht).enabled s action) :=
  inferInstanceAs (Decidable (action.Enabled L s))

/-- Two insertions overlap, and both resize. -/
def overlap : List (Action ℚ ℕ) :=
  [.invoke 0 (.sethashfunction none), .advance 0 (served 4096), .advance 0 (served 4096), .ret 0,
    .invoke 1 (.search (text [97]) 1), .invoke 2 (.search (text [98]) 2), .advance 1 (served 4096),
    .advance 2 (served 0), .advance 1 (served 0), .advance 2 (served 0), .advance 2 (served 0),
    .advance 1 (served 0), .ret 1, .ret 2, .invoke 3 (.find (text [97])), .advance 3 (served 0),
    .ret 3]

theorem overlap_linearizable :
    (threads entryGeometry smallTable).AllStates
      (fun s => Linearizable MapSpec ∅ (history s.log) ∧ KeysFound (history s.log))
      (threads entryGeometry smallTable).init overlap :=
  threads_linearizable smallTable_new (by decide) overlap
    (by decide +kernel) (by decide +kernel)

/-- A key is inserted between the test and the assignment of `hash_sethashfunction`. -/
def race : List (Action ℚ ℕ) :=
  [.invoke 0 (.sethashfunction (some fun _ => 0)), .advance 0 (served 4096),
    .advance 0 (served 4096), .ret 0, .invoke 1 (.sethashfunction (some fun _ => 1)),
    .advance 1 (served 4096), .invoke 2 (.search (text [97]) 1), .advance 2 (served 4096),
    .advance 2 (served 0), .ret 2, .advance 1 (served 0), .ret 1, .invoke 3 (.find (text [97])),
    .advance 3 (served 0), .ret 3]

/-- What the callers see: the insertion has ended before `hash_find` begins, and the key is
missing. -/
def raceHistory : List (Event (Op ℚ ℕ) (Reply ℕ)) :=
  [.inv 0 (.sethashfunction (some fun _ => 0)), .res 0 (.value 0 none),
    .inv 1 (.sethashfunction (some fun _ => 1)), .inv 2 (.search (text [97]) 1),
    .res 2 (.value 1 (some 1)), .res 1 (.value 0 none), .inv 3 (.find (text [97])),
    .res 3 (.value 1 none)]

theorem race_history :
    ((threads entryGeometry frozenTable).exec (threads entryGeometry frozenTable).init race).map
      (fun s => history s.log) = some raceHistory := rfl

theorem raceHistory_unique (i : ℕ) (op op' : Op ℚ ℕ) (hop : .inv i op ∈ raceHistory)
    (hop' : .inv i op' ∈ raceHistory) : op = op' := by
  simp only [raceHistory, List.mem_cons, Event.inv.injEq, reduceCtorEq, false_or, List.not_mem_nil,
    or_false] at hop hop'
  rcases hop with ⟨rfl, rfl⟩ | ⟨rfl, rfl⟩ | ⟨rfl, rfl⟩ | ⟨rfl, rfl⟩ <;>
    simpa [eq_comm] using hop'

theorem raceHistory_not_found : ¬ KeysFound raceHistory := by
  intro hfound
  have hresolve : ∃ key ∈ (text [97]).resolve, key.bytes = [97, 0] := by decide
  obtain ⟨data, hdata⟩ := hfound [97, 0] 2 (.search (text [97]) 1) (.value 1 (some 1)) 3 (text [97])
    (.value 1 none) hresolve (by simp [raceHistory])
    ⟨raceHistory.take 5, raceHistory.drop 5, rfl, by simp [raceHistory], by simp [raceHistory]⟩
    hresolve (by simp [raceHistory])
    (by
      intro d op hdeletes hop
      simp only [raceHistory, List.mem_cons, Event.inv.injEq, reduceCtorEq, false_or,
        List.not_mem_nil, or_false] at hop
      rcases hop with ⟨-, rfl⟩ | ⟨-, rfl⟩ | ⟨-, rfl⟩ | ⟨-, rfl⟩ <;> exact absurd hdeletes id)
  simp at hdata

/-- The entry is not in the bucket of the new function, so its key is not found. -/
theorem race_not_linearizable :
    (threads entryGeometry frozenTable).Valid (threads entryGeometry frozenTable).init race ∧
      ∃ s, (threads entryGeometry frozenTable).exec (threads entryGeometry frozenTable).init race =
          some s ∧
        ¬ Linearizable MapSpec ∅ (history s.log) ∧ ¬ KeysFound (history s.log) := by
  obtain ⟨s, hexec, hhistory⟩ := Option.map_eq_some_iff.mp race_history
  refine ⟨by decide +kernel, s, hexec, ?_, ?_⟩
  · rw [hhistory]
    exact fun h => raceHistory_not_found (keysFound_of_linearizable raceHistory_unique h)
  · rw [hhistory]
    exact raceHistory_not_found

end ThreeW3.Hash
