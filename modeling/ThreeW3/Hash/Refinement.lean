/-
# The table is a finite map

The calls of a table, one after another, against a finite map from the bytes of the keys
to the data. A call answers as the map does and changes it as the map changes, whatever
the hash function is and wherever the table is resized.
-/

import ThreeW3.Hash.Sections
import ThreeW3.Pool.Safety

namespace ThreeW3.Hash

open ThreeW3.Lib ThreeW3.Pool HashTable

variable {R D : Type}

/-! ## Calls -/

/-- A call of the table. -/
inductive Op (R D : Type)
  | search (key : KeyArg) (data : D)
  | find (key : KeyArg)
  | replace (key : KeyArg) (data : D)
  | delete (key : KeyArg)
  | rehash
  | keys (fast : Bool)
  | sethashfunction (hf : Option (List UInt8 → BitVec 32))
  | setthresholds (low high : R)
  | setflags (flags : BitVec 32)
  | setflag (flag : BitVec 32)
  | clearflag (flag : BitVec 32)

/-- The key argument of a call. -/
def Op.arg : Op R D → Option KeyArg
  | .search arg _ => some arg
  | .find arg => some arg
  | .replace arg _ => some arg
  | .delete arg => some arg
  | _ => none

/-- What a call gives: its return value and what it writes through `r`, or the keys. -/
inductive Reply (D : Type)
  | value (ret : ℤ) (r : Option D)
  | keys (result : KeysResult)
  deriving DecidableEq

/-- The effect of a call. -/
def perform [FloatOps R] {L : Layout} (G : Geometry L) (ht : HashTable R D) (a : Alloc) :
    Op R D → Option (HashTable R D × Reply D)
  | .search arg data => do
      let key ← arg.resolve
      let (ht, hf, written) ← hashSearch G ht key data a
      some (ht, .value hf.toInt (some written))
  | .find arg => do
      let key ← arg.resolve
      let (ht, found) ← hashFind ht key
      some (ht, .value found.isNone.toInt found)
  | .replace arg data => do
      let key ← arg.resolve
      let (ht, old) ← hashReplace G ht key data a
      some (ht, .value old.isNone.toInt old)
  | .delete arg => do
      let key ← arg.resolve
      let (ht, old) ← hashDelete L ht key a
      some (ht, .value old.isNone.toInt old)
  | .rehash => do
      let ht ← hashRehash ht a
      some (ht, .value 0 none)
  | .keys fast => do
      let (ht, result) ← hashKeys ht fast a
      some (ht, .keys result)
  | .sethashfunction hf =>
      let (ht, accepted) := hashSethashfunction ht hf
      some (ht, .value (if accepted then 0 else -1) none)
  | .setthresholds low high =>
      let (ht, accepted) := hashSetthresholds ht low high
      some (ht, .value (if accepted then 0 else -1) none)
  | .setflags flags => do
      let ht ← hashSetflags ht flags
      some (ht, .value ht.flags.toInt none)
  | .setflag flag => do
      let ht ← hashSetflag ht flag
      some (ht, .value ht.flags.toInt none)
  | .clearflag flag => do
      let ht ← hashClearflag ht flag
      some (ht, .value ht.flags.toInt none)

/-! ## The map -/

/-- Each key of the map once, and their number. -/
def ListsKeys (m : Finmap fun _ : List UInt8 => D) (result : KeysResult) : Prop :=
  ∃ (ks : List Key) (n : BitVec 32), result.keys.getD [] = ks.map some ∧ result.n = some n ∧
    (ks.map Key.bytes).Nodup ∧ (∀ b, b ∈ ks.map Key.bytes ↔ b ∈ m) ∧ n.toInt = m.keys.card

/-- What a call does on a finite map. -/
def MapSpec (m : Finmap fun _ : List UInt8 => D) (op : Op R D) (reply : Reply D)
    (m' : Finmap fun _ : List UInt8 => D) : Prop :=
  match op with
  | .search arg data => ∃ key ∈ arg.resolve,
      match m.lookup key.bytes with
      | some d => reply = .value 0 (some d) ∧ m' = m
      | none => reply = .value 1 (some data) ∧ m' = m.insert key.bytes data
  | .find arg => ∃ key ∈ arg.resolve, m' = m ∧
      match m.lookup key.bytes with
      | some d => reply = .value 0 (some d)
      | none => reply = .value 1 none
  | .replace arg data => ∃ key ∈ arg.resolve, m' = m.insert key.bytes data ∧
      match m.lookup key.bytes with
      | some d => reply = .value 0 (some d)
      | none => reply = .value 1 none
  | .delete arg => ∃ key ∈ arg.resolve, m' = m.erase key.bytes ∧
      match m.lookup key.bytes with
      | some d => reply = .value 0 (some d)
      | none => reply = .value 1 none
  | .rehash => m' = m ∧ reply = .value 0 none
  | .keys _ => m' = m ∧ ∃ result, reply = .keys result ∧ ListsKeys m result
  | .sethashfunction _ => m' = m ∧ (m = ∅ → reply = .value 0 none) ∧
      (m ≠ ∅ → reply = .value (-1) none)
  | .setthresholds _ _ => m' = m
  | .setflags _ => m' = m
  | .setflag _ => m' = m
  | .clearflag _ => m' = m

/-! ## Promises -/

/-- Every allocation succeeds. -/
structure Alloc.Succeeds (a : Alloc) : Prop where
  key : a.key = true
  buckets : a.buckets = true
  keys : a.keys = true
  keyCopies : ∀ b ∈ a.keyCopies, b = true

/-- The key of a call can be read, and no key that an entry points to has been changed. -/
def HashTable.Reads (ht : HashTable R D) (arg : KeyArg) : Prop :=
  ∃ key ∈ arg.resolve, ht.Unmutated key

/-- The arguments of a call are in order, and it leaves `HASH_NOCOPY` as it is. -/
def Op.Proper (ht : HashTable R D) : Op R D → Prop
  | .search arg _ => ht.Reads arg
  | .find arg => ht.Reads arg
  | .replace arg _ => ht.Reads arg
  | .delete arg => ht.Reads arg
  | .setflags flags => flags &&& hashNocopy = ht.flags &&& hashNocopy
  | .setflag flag => flag &&& hashNocopy = 0
  | .clearflag flag => flag &&& hashNocopy = 0
  | _ => True

/-- Every size that the call computes is one that `hash_size` can reach. -/
def Op.TargetOk [FloatOps R] {L : Layout} (G : Geometry L) (ht : HashTable R D) (a : Alloc) :
    Op R D → Prop
  | .search arg data => ∀ key ∈ arg.resolve, ∀ r ∈ searchSection G ht key data a,
      (r.2.1 && crowded r.1) = true → RehashOk r.1
  | .replace arg data => ∀ key ∈ arg.resolve, ∀ r ∈ replaceSection G ht key data a,
      (r.2.isNone && crowded r.1) = true → RehashOk r.1
  | .delete arg => ∀ key ∈ arg.resolve, ∀ r ∈ deleteSection L ht key,
      (r.2.isNone && sparse r.1) = true → RehashOk r.1
  | .rehash => RehashOk ht
  | _ => True

/-- What goes wrong nowhere: a deletion does not empty a stale head of the pool, and the
keys can be counted in an `int`. -/
def Op.Safe (L : Layout) (ht : HashTable R D) : Op R D → Prop
  | .delete arg => ∀ key ∈ arg.resolve, ht.Orderly L key.bytes
  | .keys _ => ht.entries < 0x80000000
  | _ => True

instance decidableSucceeds (a : Alloc) : Decidable a.Succeeds :=
  decidable_of_iff (a.key = true ∧ a.buckets = true ∧ a.keys = true ∧ ∀ b ∈ a.keyCopies, b = true)
    ⟨fun ⟨hkey, hbuckets, hkeys, hcopies⟩ => ⟨hkey, hbuckets, hkeys, hcopies⟩,
      fun h => ⟨h.key, h.buckets, h.keys, h.keyCopies⟩⟩

instance decidableReads (ht : HashTable R D) (arg : KeyArg) : Decidable (ht.Reads arg) :=
  inferInstanceAs (Decidable (∃ key ∈ arg.resolve, ht.Unmutated key))

instance decidableProper (ht : HashTable R D) (op : Op R D) : Decidable (op.Proper ht) := by
  cases op <;> unfold Op.Proper <;> infer_instance

instance decidableTargetOk [FloatOps R] {L : Layout} {G : Geometry L} (ht : HashTable R D)
    (a : Alloc) (op : Op R D) : Decidable (op.TargetOk G ht a) := by
  cases op <;> unfold Op.TargetOk <;> infer_instance

instance decidableSafe {L : Layout} (ht : HashTable R D) (op : Op R D) : Decidable (op.Safe L ht) := by
  cases op <;> unfold Op.Safe <;> infer_instance

section Keys

variable {L : Layout} {G : Geometry L} {ht : HashTable R D} {a : Alloc}

/-- The list for a table without entries. -/
theorem listsKeys_empty (h : ht.Shape) (hentries : ht.entries = 0) :
    ListsKeys ht.contents ⟨none, some 0⟩ := by
  rw [h.contents_eq_empty_iff.mpr hentries]
  exact ⟨[], 0, rfl, rfl, by simp, by simp [Finmap.notMem_empty], by simp⟩

/-- `hash_keys` from the lock on. -/
theorem keysSection_lists (h : ht.Ok G) (hfree : ht.locked = false) (fast : Bool)
    (hkeys : a.keys = true) (hcopies : ∀ b ∈ a.keyCopies, b = true)
    (hcount : ht.entries < 0x80000000) :
    ∃ ht' result, keysSection ht fast a = some (ht', result) ∧ ListsKeys ht.contents result ∧
      Became G ht ht.contents ht' := by
  obtain ⟨ht', ks, hsection, hbytes, hturned⟩ :=
    keysSection_spec h.toShape hfree fast hkeys hcopies
  refine ⟨ht', _, hsection, ⟨ks, _, rfl, rfl, ?_, ?_, ?_⟩, hturned.became h.pool⟩
  · rw [hbytes]
    exact h.nodup
  · intro b
    rw [hbytes, contents, mem_asMap, List.mem_map]
  · rw [h.entries] at hcount
    rw [contents, keys_asMap, List.toFinset_card_of_nodup h.nodup, List.length_map,
      BitVec.toInt_eq_toNat_of_lt, BitVec.toNat_ofNat, Nat.mod_eq_of_lt]
    · omega
    · rw [BitVec.toNat_ofNat]
      omega

/-- `hash_keys` -/
theorem hashKeys_spec (h : ht.Ok G) (hfree : ht.locked = false) (fast : Bool) (ha : a.Succeeds)
    (hcount : ht.entries < 0x80000000) :
    ∃ ht' result, hashKeys ht fast a = some (ht', result) ∧ ListsKeys ht.contents result ∧
      Became G ht ht.contents ht' := by
  rw [hashKeys]
  split_ifs with hzero
  · exact ⟨ht, _, rfl, listsKeys_empty h.toShape hzero, h.became⟩
  · exact keysSection_lists h hfree fast ha.keys ha.keyCopies hcount

end Keys

section Calls

variable [FloatOps R] {L : Layout} {G : Geometry L} {ht : HashTable R D} {a : Alloc}

/-- A step of a run: the call, and what the system gives to it. -/
structure Promises (G : Geometry L) (ht : HashTable R D) (a : Alloc) (op : Op R D) : Prop where
  succeeds : a.Succeeds
  page : a.Maps L ht
  proper : op.Proper ht
  target : op.TargetOk G ht a

instance decidablePromises (ht : HashTable R D) (a : Alloc) (op : Op R D) :
    Decidable (Promises G ht a op) :=
  decidable_of_iff (a.Succeeds ∧ a.Maps L ht ∧ op.Proper ht ∧ op.TargetOk G ht a)
    ⟨fun ⟨hsucceeds, hpage, hproper, htarget⟩ => ⟨hsucceeds, hpage, hproper, htarget⟩,
      fun h => ⟨h.succeeds, h.page, h.proper, h.target⟩⟩

/-- A table and its calls. -/
def machine (G : Geometry L) (ht : HashTable R D) : Machine (HashTable R D) (Op R D × Alloc) where
  init := ht
  enabled ht call := Promises G ht call.2 call.1
  step ht call := (perform G ht call.2 call.1).map Prod.fst

instance decidableEnabled (ht₀ ht : HashTable R D) (call : Op R D × Alloc) :
    Decidable ((machine G ht₀).enabled ht call) :=
  inferInstanceAs (Decidable (Promises G ht call.2 call.1))

/-- The call ends, and it does what it does on the stored map. -/
def Refines (G : Geometry L) (ht : HashTable R D) (call : Op R D × Alloc) : Prop :=
  ∃ ht' reply, perform G ht call.2 call.1 = some (ht', reply) ∧
    MapSpec ht.contents call.1 reply ht'.contents

/-! ## One call -/

/-- A resizing that may follow a part. -/
theorem rehashIf_spec (h : ht.Ok G) (hfree : ht.locked = false) {b : Bool}
    (hregrows : b = true → Regrows ht a) :
    ∃ ht', rehashIf b ht a = some ht' ∧ Became G ht ht.contents ht' := by
  cases b with
  | false => exact ⟨ht, rfl, h.became⟩
  | true => exact h.rehash hfree (hregrows rfl)

/-- A part that ends and a resizing that may follow it. -/
theorem HashTable.Became.rehashIf {ht' : HashTable R D} {m : Finmap fun _ : List UInt8 => D}
    (h : Became G ht m ht') (hfree : ht.locked = false) {b : Bool}
    (hregrows : b = true → Regrows ht' a) :
    ∃ ht'', rehashIf b ht' a = some ht'' ∧ Became G ht m ht'' := by
  obtain ⟨ht'', hrehash, hbecame⟩ := rehashIf_spec h.ok (h.same.locked.trans hfree) hregrows
  rw [h.contents] at hbecame
  exact ⟨ht'', hrehash, h.trans hbecame⟩

variable {key : Key} {data : D}

/-- `hash_search` -/
theorem hashSearch_spec (h : ht.Ok G) (hfree : ht.locked = false) (hkey : ht.Unmutated key)
    (hpage : a.Maps L ht)
    (hcopy : key.bytes ∉ ht.contents → ht.nocopy = false → a.key = true)
    (hregrows : ∀ r ∈ searchSection G ht key data a,
      (r.2.1 && crowded r.1) = true → Regrows r.1 a) :
    ∃ ht' hf written, hashSearch G ht key data a = some (ht', hf, written) ∧
      match ht.contents.lookup key.bytes with
      | some d => hf = false ∧ written = d ∧ Became G ht ht.contents ht'
      | none => hf = true ∧ written = data ∧
          Became G ht (ht.contents.insert key.bytes data) ht' := by
  by_cases hmem : key.bytes ∈ ht.contents
  · obtain ⟨he, hhe, hbytes⟩ := exists_entry hmem
    have hsection := searchSection_found (G := G) (a := a) data h.toShape hfree hkey hhe hbytes
    have hlookup := h.lookup hhe
    rw [hbytes] at hlookup
    rw [hlookup]
    exact ⟨ht, false, he.data, by simp [hashSearch, hsection, rehashIf], rfl, rfl, h.became⟩
  · obtain ⟨ht₁, hsection, hbecame⟩ :=
      h.search_missing data hfree hkey hmem hpage (hcopy hmem)
    obtain ⟨ht', hrehash, hbecame'⟩ := hbecame.rehashIf hfree (hregrows _ hsection)
    have hrehash' : rehashIf (crowded ht₁) ht₁ a = some ht' := hrehash
    rw [Finmap.lookup_eq_none.mpr hmem]
    exact ⟨ht', true, data, by simp [hashSearch, hsection, hrehash'], rfl, rfl, hbecame'⟩

/-- `hash_replace` -/
theorem hashReplace_spec (h : ht.Ok G) (hfree : ht.locked = false) (hkey : ht.Unmutated key)
    (hpage : a.Maps L ht)
    (hcopy : key.bytes ∉ ht.contents → ht.nocopy = false → a.key = true)
    (hregrows : ∀ r ∈ replaceSection G ht key data a,
      (r.2.isNone && crowded r.1) = true → Regrows r.1 a) :
    ∃ ht', hashReplace G ht key data a = some (ht', ht.contents.lookup key.bytes) ∧
      Became G ht (ht.contents.insert key.bytes data) ht' := by
  obtain ⟨ht₁, hsection, hbecame⟩ := h.replace data hfree hkey hpage hcopy
  obtain ⟨ht', hrehash, hbecame'⟩ := hbecame.rehashIf hfree (hregrows _ hsection)
  exact ⟨ht', by simp [hashReplace, hsection, hrehash], hbecame'⟩

/-- `hash_delete` -/
theorem hashDelete_spec (h : ht.Ok G) (hfree : ht.locked = false) (hkey : ht.Unmutated key)
    (horderly : ht.Orderly L key.bytes)
    (hregrows : ∀ r ∈ deleteSection L ht key,
      (r.2.isNone && sparse r.1) = true → Regrows r.1 a) :
    ∃ ht', hashDelete L ht key a = some (ht', ht.contents.lookup key.bytes) ∧
      Became G ht (ht.contents.erase key.bytes) ht' := by
  obtain ⟨ht₁, hsection, hbecame⟩ := h.delete hfree hkey horderly
  obtain ⟨ht', hrehash, hbecame'⟩ := hbecame.rehashIf hfree (hregrows _ hsection)
  exact ⟨ht', by simp [hashDelete, hsection, hrehash], hbecame'⟩

/-- The marks are set. -/
theorem hashSetthresholds_spec (h : ht.Ok G) (low high : R) :
    ∃ ht' accepted, hashSetthresholds ht low high = (ht', accepted) ∧ ht'.Ok G ∧
      ht'.contents = ht.contents ∧ ht'.locked = ht.locked := by
  rw [hashSetthresholds]
  generalize (if FloatOps.lt high FloatOps.zero then ht.highMark else high) = highMark
  generalize (if FloatOps.lt low FloatOps.zero then ht.lowMark else low) = lowMark
  split_ifs
  · exact ⟨ht, false, rfl, h, rfl, rfl⟩
  · exact ⟨_, true, rfl,
      ⟨⟨h.buckets, h.length, h.pow, h.placed, h.keyed, h.nodup, h.entries⟩, h.pool⟩, rfl, rfl⟩

/-- What the table answers about a key: whether it is missing, and its data. -/
private def answer (ht : HashTable R D) (key : Key) : Reply D :=
  .value (ht.contents.lookup key.bytes).isNone.toInt (ht.contents.lookup key.bytes)

/-- The call ends, does what it does on the map, and leaves a table in order. -/
def Performs (G : Geometry L) (ht : HashTable R D) (a : Alloc) (op : Op R D) : Prop :=
  ∃ ht' reply, perform G ht a op = some (ht', reply) ∧
    MapSpec ht.contents op reply ht'.contents ∧ ht'.Ok G ∧ ht'.locked = false

section One

variable {arg : KeyArg}

theorem perform_search (h : ht.Ok G) (hfree : ht.locked = false) (hkey : key ∈ arg.resolve)
    (hunmutated : ht.Unmutated key) (hpage : a.Maps L ht)
    (hcopy : key.bytes ∉ ht.contents → ht.nocopy = false → a.key = true)
    (hregrows : ∀ r ∈ searchSection G ht key data a,
      (r.2.1 && crowded r.1) = true → Regrows r.1 a) : Performs G ht a (.search arg data) := by
  obtain ⟨ht', hf, written, hsearch, hspec⟩ :=
    hashSearch_spec h hfree hunmutated hpage hcopy hregrows
  refine ⟨ht', .value hf.toInt (some written), ?_, ⟨key, hkey, ?_⟩, ?_⟩
  · simp [perform, Option.mem_def.mp hkey, hsearch]
  · cases hlookup : ht.contents.lookup key.bytes with
    | some d =>
        rw [hlookup] at hspec
        obtain ⟨rfl, rfl, hbecame⟩ := hspec
        exact ⟨rfl, hbecame.contents⟩
    | none =>
        rw [hlookup] at hspec
        obtain ⟨rfl, rfl, hbecame⟩ := hspec
        exact ⟨rfl, hbecame.contents⟩
  · have hbecame : ∃ m, Became G ht m ht' := by
      split at hspec
      · exact ⟨_, hspec.2.2⟩
      · exact ⟨_, hspec.2.2⟩
    obtain ⟨m, hbecame⟩ := hbecame
    exact ⟨hbecame.ok, hbecame.same.locked.trans hfree⟩

theorem perform_replace (h : ht.Ok G) (hfree : ht.locked = false) (hkey : key ∈ arg.resolve)
    (hunmutated : ht.Unmutated key) (hpage : a.Maps L ht)
    (hcopy : key.bytes ∉ ht.contents → ht.nocopy = false → a.key = true)
    (hregrows : ∀ r ∈ replaceSection G ht key data a,
      (r.2.isNone && crowded r.1) = true → Regrows r.1 a) :
    Performs G ht a (.replace arg data) := by
  obtain ⟨ht', hreplace, hbecame⟩ := hashReplace_spec h hfree hunmutated hpage hcopy hregrows
  refine ⟨ht', answer ht key, ?_, ⟨key, hkey, hbecame.contents, ?_⟩, hbecame.ok,
    hbecame.same.locked.trans hfree⟩
  · simp [perform, Option.mem_def.mp hkey, hreplace, answer]
  · rw [answer]
    cases ht.contents.lookup key.bytes <;> rfl

theorem perform_delete (h : ht.Ok G) (hfree : ht.locked = false) (hkey : key ∈ arg.resolve)
    (hunmutated : ht.Unmutated key) (horderly : ht.Orderly L key.bytes)
    (hregrows : ∀ r ∈ deleteSection L ht key,
      (r.2.isNone && sparse r.1) = true → Regrows r.1 a) : Performs G ht a (.delete arg) := by
  obtain ⟨ht', hdelete, hbecame⟩ := hashDelete_spec h hfree hunmutated horderly hregrows
  refine ⟨ht', answer ht key, ?_, ⟨key, hkey, hbecame.contents, ?_⟩, hbecame.ok,
    hbecame.same.locked.trans hfree⟩
  · simp [perform, Option.mem_def.mp hkey, hdelete, answer]
  · rw [answer]
    cases ht.contents.lookup key.bytes <;> rfl

theorem perform_rehash (h : ht.Ok G) (hfree : ht.locked = false) (hregrows : Regrows ht a) :
    Performs G ht a (.rehash : Op R D) := by
  obtain ⟨ht', hrehash, hbecame⟩ := h.rehash hfree hregrows
  exact ⟨ht', .value 0 none, by simp [perform, hrehash], ⟨hbecame.contents, rfl⟩, hbecame.ok,
    hbecame.same.locked.trans hfree⟩

/-- A call that asks for no memory and gives none back. -/
def Op.Quiet : Op R D → Prop
  | .search _ _ | .replace _ _ | .delete _ | .rehash | .keys _ => False
  | _ => True

theorem perform_quiet {op : Op R D} (h : ht.Ok G) (hfree : ht.locked = false) (hquiet : op.Quiet)
    (hreads : ∀ arg ∈ op.arg, ht.Reads arg) : Performs G ht a op := by
  cases op with
  | find arg =>
      obtain ⟨key, hkey, hunmutated⟩ := hreads arg rfl
      refine ⟨ht, answer ht key, ?_, ⟨key, hkey, rfl, ?_⟩, h, hfree⟩
      · have hsection := findSection_spec h.toShape hfree hunmutated
        simp [perform, Option.mem_def.mp hkey, hashFind, hsection, answer]
      · rw [answer]
        cases ht.contents.lookup key.bytes <;> rfl
  | sethashfunction hf =>
      rw [Performs, perform, hashSethashfunction]
      split_ifs with hentries
      · exact ⟨ht, .value (-1) none, rfl,
          ⟨rfl, fun hm => absurd (h.contents_eq_empty_iff.mp hm) hentries, fun _ => rfl⟩, h, hfree⟩
      · rw [not_not] at hentries
        exact ⟨_, .value 0 none, rfl,
          ⟨rfl, fun _ => rfl, fun hm => absurd (h.contents_eq_empty_iff.mpr hentries) hm⟩,
          ⟨h.withHashFunc hentries _, h.pool⟩, hfree⟩
  | setthresholds low high =>
      obtain ⟨ht', accepted, hset, hok, hcontents, hlocked⟩ := hashSetthresholds_spec h low high
      exact ⟨ht', .value (if accepted then 0 else -1) none, by simp [perform, hset], hcontents, hok,
        hlocked.trans hfree⟩
  | setflags flags =>
      exact ⟨{ ht with flags := flags }, .value flags.toInt none,
        by simp [perform, hashSetflags, writeFlags_eq hfree], rfl, h.withFlags _, hfree⟩
  | setflag flag =>
      exact ⟨{ ht with flags := ht.flags ||| flag }, .value (ht.flags ||| flag).toInt none,
        by simp [perform, hashSetflag, writeFlags_eq hfree], rfl, h.withFlags _, hfree⟩
  | clearflag flag =>
      exact ⟨{ ht with flags := ht.flags &&& ~~~flag }, .value (ht.flags &&& ~~~flag).toInt none,
        by simp [perform, hashClearflag, writeFlags_eq hfree], rfl, h.withFlags _, hfree⟩
  | search _ _ | replace _ _ | delete _ | rehash | keys _ => exact absurd hquiet id

end One

/-- Every call that keeps its promises and is safe ends, does what it does on the map, and
leaves a table in order. -/
theorem perform_spec {op : Op R D} (h : ht.Ok G) (hfree : ht.locked = false)
    (hpromises : Promises G ht a op) (hsafe : op.Safe L ht) : Performs G ht a op := by
  obtain ⟨ha, hpage, hproper, htarget⟩ := hpromises
  have hregrows : ∀ {ht' : HashTable R D}, RehashOk ht' → Regrows ht' a :=
    fun h => ⟨h, fun _ => ha.buckets⟩
  cases op with
  | search arg data =>
      obtain ⟨key, hkey, hunmutated⟩ := hproper
      exact perform_search h hfree hkey hunmutated hpage (fun _ _ => ha.key)
        fun r hr hcrowded => hregrows (htarget key hkey r hr hcrowded)
  | replace arg data =>
      obtain ⟨key, hkey, hunmutated⟩ := hproper
      exact perform_replace h hfree hkey hunmutated hpage (fun _ _ => ha.key)
        fun r hr hcrowded => hregrows (htarget key hkey r hr hcrowded)
  | delete arg =>
      obtain ⟨key, hkey, hunmutated⟩ := hproper
      exact perform_delete h hfree hkey hunmutated (hsafe key hkey)
        fun r hr hsparse => hregrows (htarget key hkey r hr hsparse)
  | rehash => exact perform_rehash h hfree (hregrows htarget)
  | keys fast =>
      obtain ⟨ht', result, hkeys, hlists, hbecame⟩ := hashKeys_spec h hfree fast ha hsafe
      exact ⟨ht', .keys result, by simp [perform, hkeys], ⟨hbecame.contents, result, rfl, hlists⟩,
        hbecame.ok, hbecame.same.locked.trans hfree⟩
  | find arg =>
      refine perform_quiet h hfree trivial fun arg' harg => ?_
      obtain rfl := Option.some.inj harg
      exact hproper
  | sethashfunction _ | setthresholds _ _ | setflags _ | setflag _ | clearflag _ =>
      exact perform_quiet h hfree trivial fun _ harg => by cases harg

/-! ## Runs -/

/-- What `hash_new` returns is in order, if its buckets could be allocated. -/
theorem hashNew_spec {size : BitVec 32} {lock : Bool} {flags : BitVec 32} {boot : NewAlloc}
    (hnew : hashNew size lock flags boot = some (some ht)) (hbuckets : ht.buckets ≠ none) :
    ht.Ok G ∧ ht.contents = ∅ ∧ ht.locked = false := by
  rw [hashNew] at hnew
  obtain ⟨ns, hsize, hrest⟩ := Option.bind_eq_some_iff.mp hnew
  obtain ⟨n, -, hpow⟩ := exists_pow_of_hashSize hsize
  split_ifs at hrest with htable hpool
  · simp at hrest
  · obtain rfl := Option.some.inj (Option.some.inj hrest)
    by_cases hcalloc : (boot.buckets && decide ((ns.signExtend 64).toNat * ptrSize < sizeModulus)) =
        true
    · rw [Bool.and_eq_true, decide_eq_true_eq] at hcalloc
      have hpow' := signExtend_size hpow hcalloc.2
      simp only [hcalloc, decide_true, Bool.and_self, if_true] at hbuckets ⊢
      refine ⟨⟨⟨by simp, List.length_replicate, ⟨n, hpow'⟩, .replicate _ _, ?_, ?_, ?_⟩, ?_⟩, ?_,
        trivial⟩
      · simp [nodes, chains]
      · simp [nodes, chains]
      · simp [nodes, chains]
      · exact ⟨[], [], none, by simp [nodes, chains], .init⟩
      · simp [contents, nodes, chains]
    · simp [hcalloc] at hbuckets

theorem perform_keeps (ht : HashTable R D) (call : Op R D × Alloc)
    (h : ht.Ok G ∧ ht.locked = false) (hpromises : Promises G ht call.2 call.1)
    (hsafe : call.1.Safe L ht) :
    ∃ ht', (perform G ht call.2 call.1).map Prod.fst = some ht' ∧ ht'.Ok G ∧
      ht'.locked = false := by
  obtain ⟨ht', reply, hperform, -, hok, hfree⟩ := perform_spec h.1 h.2 hpromises hsafe
  exact ⟨ht', by rw [hperform]; rfl, hok, hfree⟩

/-- Any calls, one after another, on a new table: if no deletion empties a stale head of the
pool, and the keys are listed only while an `int` can count them, then every call ends and
does what it does on a finite map. -/
theorem table_refines {size : BitVec 32} {lock : Bool} {flags : BitVec 32} {boot : NewAlloc}
    (hnew : hashNew size lock flags boot = some (some ht)) (hbuckets : ht.buckets ≠ none)
    (calls : List (Op R D × Alloc)) (hvalid : (machine G ht).Valid ht calls)
    (hsafe : (machine G ht).AllSteps (fun ht call => call.1.Safe L ht) ht calls) :
    ht.contents = ∅ ∧ (∃ ht', (machine G ht).exec ht calls = some ht') ∧
      (machine G ht).AllSteps (Refines G) ht calls := by
  obtain ⟨hok, hempty, hfree⟩ := hashNew_spec (G := G) hnew hbuckets
  obtain ⟨⟨ht', hexec, -⟩, -⟩ := Machine.run_invariant (M := machine G ht)
    perform_keeps ⟨hok, hfree⟩ hvalid hsafe
  refine ⟨hempty, ⟨ht', hexec⟩, ?_⟩
  refine Machine.allSteps_of_invariant (M := machine G ht) perform_keeps ?_ ⟨hok, hfree⟩ hvalid
    hsafe
  intro s call hs hpromises hsafe
  obtain ⟨s', reply, hperform, hspec, -, -⟩ := perform_spec hs.1 hs.2 hpromises hsafe
  exact ⟨s', reply, hperform, hspec⟩

end Calls

/-! ## Concrete tables -/

/-- What the pool of a table is on an LP64 platform: 126 entries a page. -/
def entryGeometry : Geometry lp64 :=
  { size := 32, cpp := 126, size_pos := by decide, cpp_pos := by decide, chunks_fit := by decide }

example : mempoolNew lp64 sizeofHashEntry = some (some entryGeometry) := rfl

/-- Every allocation succeeds. -/
def served (page : ℕ) : Alloc := ⟨page, true, true, true, []⟩

/-- A text with its NUL. -/
def text (w : List UInt8) : KeyArg := ⟨⟨.foreign 0, 0⟩, w ++ [0], sizeModulus - 1⟩

/-- `hash_new(1, 1, 0)` -/
def smallTable : HashTable ℚ ℕ := (hashNew 1 true 0 ⟨true, true, true⟩).join.get rfl

theorem smallTable_new :
    hashNew 1 true 0 ⟨true, true, true⟩ = some (some smallTable) := rfl

/-- The second insertion makes the table grow, and the last call makes it shrink. -/
def errands : List (Op ℚ ℕ × Alloc) :=
  [(.search (text [97]) 1, served 4096), (.search (text [98]) 2, served 0),
    (.replace (text [97]) 3, served 0), (.keys false, served 0), (.setflag hashFrozen, served 0),
    (.delete (text [98]), served 0), (.find (text [97]), served 0), (.rehash, served 0)]

theorem errands_refine :
    smallTable.contents = ∅ ∧
      (∃ ht', (machine entryGeometry smallTable).exec smallTable errands = some ht') ∧
      (machine entryGeometry smallTable).AllSteps (Refines entryGeometry) smallTable errands :=
  table_refines smallTable_new (by decide)
    errands (by decide +kernel) (by decide +kernel)

/-! ## A table that crashes -/

/-- Fill a chunk, or give it back. The page is for mmap(2). -/
inductive Stroke
  | put (page i : ℕ)
  | drop (page i : ℕ)

/-- The `i`th chunk, from page 1 on. -/
def chunkAt (i : ℕ) : ℕ := chunk entryGeometry (4096 * (i / 126 + 1)) (i % 126)

/-- The key of the entry in that chunk. -/
def keyAt (i : ℕ) : Key := ⟨⟨.foreign 0, 0⟩, [UInt8.ofNat (i / 256), UInt8.ofNat i]⟩

/-- The call that fills a chunk or gives it back. -/
def Stroke.call : Stroke → Op ℚ ℕ × Alloc
  | put page i => (.search ⟨(keyAt i).ptr, (keyAt i).bytes, 2⟩ i, served page)
  | drop page i => (.delete ⟨(keyAt i).ptr, (keyAt i).bytes, 2⟩, served page)

/-- The pool gives and takes the chunks as named, up to one that it cannot take. The bits of
`held` say which are handed out. -/
def crashes (mp : State) (held : ℕ) : List Stroke → Bool
  | [] => false
  | .put page i :: strokes =>
      decide (mp.pages = none → Fresh lp64 mp page) && decide (i < 0x10000) && !held.testBit i &&
        match mempoolGet entryGeometry page mp with
        | none => false
        | some (mp, p) => decide (p = chunkAt i) && crashes mp (held ^^^ 2 ^ i) strokes
  | .drop page i :: strokes =>
      decide (mp.pages = none → Fresh lp64 mp page) && held.testBit i &&
        match mempoolFree lp64 (chunkAt i) mp with
        | none => true
        | some mp => crashes mp (held ^^^ 2 ^ i) strokes

/-- A frozen table whose entries are those of the chunks that are held. -/
structure Filled (ht : HashTable ℚ ℕ) (mp : State) (held : ℕ) : Prop where
  shape : ht.Shape
  free : ht.locked = false
  flags : ht.flags = hashFrozen
  mp : ht.mp = mp
  entry : ∀ i, held.testBit i = true →
    i < 0x10000 ∧ ∃ he ∈ ht.nodes, he.bytes = (keyAt i).bytes ∧ he.addr = chunkAt i
  held : ∀ he ∈ ht.nodes, ∃ i, held.testBit i = true ∧ he.bytes = (keyAt i).bytes
  own : ∀ he ∈ ht.nodes, ∀ k ∈ he.key, ∃ n, k.ptr = ⟨.own n, 0⟩

theorem keyAt_injective {i j : ℕ} (hi : i < 0x10000) (hj : j < 0x10000)
    (heq : (keyAt i).bytes = (keyAt j).bytes) : i = j := by
  simp only [keyAt, List.cons.injEq, and_true] at heq
  have hhigh := congrArg UInt8.toNat heq.1
  have hlow := congrArg UInt8.toNat heq.2
  simp only [UInt8.toNat_ofNat'] at hhigh hlow
  omega

namespace Filled

variable {ht : HashTable ℚ ℕ} {mp : State} {held i page : ℕ}

theorem unmutated (h : Filled ht mp held) (i : ℕ) : ht.Unmutated (keyAt i) := by
  intro he hhe k hk hptr
  obtain ⟨n, hn⟩ := h.own he hhe k hk
  rw [hn] at hptr
  simp [keyAt] at hptr

theorem resolve (i : ℕ) :
    (⟨(keyAt i).ptr, (keyAt i).bytes, 2⟩ : KeyArg).resolve = some (keyAt i) := rfl

theorem flip (i j : ℕ) :
    (held ^^^ 2 ^ i).testBit j = if i = j then !held.testBit j else held.testBit j := by
  rw [Nat.testBit_xor, Nat.testBit_two_pow]
  split_ifs with hij <;> simp [hij]

/-- A chunk that is not held is filled. -/
theorem put (h : Filled ht mp held) (hi : i < 0x10000) (hclear : held.testBit i = false)
    {mp' : State} (hget : mempoolGet entryGeometry page mp = some (mp', chunkAt i)) :
    ∃ ht', searchSection entryGeometry ht (keyAt i) i (served page) = some (ht', true, i) ∧
      Filled ht' mp' (held ^^^ 2 ^ i) := by
  have hmiss : (keyAt i).bytes ∉ ht.contents := by
    intro hmem
    obtain ⟨he, hhe, hbytes⟩ := exists_entry hmem
    obtain ⟨j, hj, hbytes'⟩ := h.held he hhe
    obtain rfl := keyAt_injective hi (h.entry j hj).1 (hbytes.symm.trans hbytes')
    simp [hclear] at hj
  have hget' : mempoolGet entryGeometry (served page).page ht.mp = some (mp', chunkAt i) := by
    rw [h.mp]
    exact hget
  obtain ⟨ht', he, hsection, hnew, hturned⟩ := searchSection_missing i h.shape h.free
    (h.unmutated i) hmiss hget' fun _ => rfl
  have hmem : ∀ x, x ∈ ht'.nodes ↔ x = he ∨ x ∈ ht.nodes := fun x => by
    rw [hturned.nodes.mem_iff, List.mem_cons]
  have hcopied : ht.nocopy = false := by
    rw [HashTable.nocopy, h.flags]
    decide
  refine ⟨ht', hsection, hturned.shape, hturned.same.locked.trans h.free,
    hturned.same.flags.trans h.flags, hturned.mp, ?_, ?_, ?_⟩
  · intro j hj
    rw [flip] at hj
    split_ifs at hj with hij
    · subst hij
      exact ⟨hi, he, (hmem he).mpr (.inl rfl), hnew.bytes, hnew.addr⟩
    · obtain ⟨hlt, x, hx, hfields⟩ := h.entry j hj
      exact ⟨hlt, x, (hmem x).mpr (.inr hx), hfields⟩
  · intro x hx
    rcases (hmem x).mp hx with rfl | hx
    · exact ⟨i, by rw [flip, if_pos rfl, hclear]; rfl, hnew.bytes⟩
    · obtain ⟨j, hj, hbytes⟩ := h.held x hx
      refine ⟨j, ?_, hbytes⟩
      have hij : i ≠ j := by
        rintro rfl
        simp [hclear] at hj
      rw [flip, if_neg hij, hj]
  · intro x hx k hk
    rcases (hmem x).mp hx with rfl | hx
    · obtain ⟨k', hk', hptr⟩ := hnew.copied hcopied
      obtain rfl : k' = k := Option.some.inj (hk'.symm.trans hk)
      exact ⟨ht.malloc.count, hptr⟩
    · exact h.own x hx k hk

/-- A chunk that is held is given back, if the pool takes it. -/
theorem drop (h : Filled ht mp held) (hset : held.testBit i = true) :
    (mempoolFree lp64 (chunkAt i) mp = none → deleteSection lp64 ht (keyAt i) = none) ∧
      ∀ mp', mempoolFree lp64 (chunkAt i) mp = some mp' →
        ∃ ht' d, deleteSection lp64 ht (keyAt i) = some (ht', some d) ∧
          Filled ht' mp' (held ^^^ 2 ^ i) := by
  obtain ⟨hi, he, hhe, hbytes, haddr⟩ := h.entry i hset
  obtain ⟨rest, hrest, hnone, hsome⟩ :=
    deleteSection_found (L := lp64) h.shape h.free (h.unmutated i) hhe hbytes
  rw [haddr, h.mp] at hnone hsome
  refine ⟨hnone, fun mp' hgive => ?_⟩
  obtain ⟨ht', hsection, hturned⟩ := hsome mp' hgive
  have hnodup := (hrest.map HashEntry.bytes).nodup_iff.mp h.shape.nodup
  rw [List.map_cons, List.nodup_cons] at hnodup
  have hmem : ∀ x, x ∈ ht'.nodes → x ∈ ht.nodes ∧ x.bytes ≠ he.bytes := by
    intro x hx
    rw [hturned.nodes.mem_iff] at hx
    exact ⟨hrest.mem_iff.mpr (List.mem_cons_of_mem he hx),
      fun heq => hnodup.1 (heq ▸ List.mem_map_of_mem hx)⟩
  refine ⟨ht', he.data, hsection, hturned.shape, hturned.same.locked.trans h.free,
    hturned.same.flags.trans h.flags, hturned.mp, ?_, ?_, ?_⟩
  · intro j hj
    rw [flip] at hj
    split_ifs at hj with hij
    · subst hij
      simp [hset] at hj
    · obtain ⟨hlt, x, hx, hxbytes, hxaddr⟩ := h.entry j hj
      refine ⟨hlt, x, ?_, hxbytes, hxaddr⟩
      rw [hturned.nodes.mem_iff]
      refine (List.mem_cons.mp (hrest.mem_iff.mp hx)).resolve_left ?_
      rintro rfl
      exact hij (keyAt_injective hi hlt (hbytes.symm.trans hxbytes))
  · intro x hx
    obtain ⟨hx, hne⟩ := hmem x hx
    obtain ⟨j, hj, hxbytes⟩ := h.held x hx
    refine ⟨j, ?_, hxbytes⟩
    have hij : i ≠ j := by
      rintro rfl
      exact hne (hxbytes.trans hbytes.symm)
    rw [flip, if_neg hij, hj]
  · intro x hx
    exact h.own x (hmem x hx).1

theorem frozen {ht : HashTable ℚ ℕ} (hflags : ht.flags = hashFrozen) :
    crowded ht = false ∧ sparse ht = false := by
  have hfrozen : ht.frozen = true := by
    rw [HashTable.frozen, hflags]
    decide
  simp [crowded, sparse, hfrozen]

/-- The calls keep their promises, and the last of them does not end. -/
theorem crash (ht₀ : HashTable ℚ ℕ) {strokes : List Stroke} (h : Filled ht mp held)
    (hcrash : crashes mp held strokes = true) :
    (machine entryGeometry ht₀).Valid ht (strokes.map Stroke.call) ∧
      (machine entryGeometry ht₀).exec ht (strokes.map Stroke.call) = none := by
  induction strokes generalizing ht mp held with
  | nil => simp [crashes] at hcrash
  | cons stroke strokes ih =>
      have hserved : ∀ page, (served page).Succeeds := fun page => ⟨rfl, rfl, rfl, by simp [served]⟩
      cases stroke with
      | put page i =>
          rw [crashes] at hcrash
          simp only [Bool.and_eq_true, decide_eq_true_eq, Bool.not_eq_true'] at hcrash
          obtain ⟨⟨⟨hpage, hi⟩, hclear⟩, hget⟩ := hcrash
          split at hget
          · cases hget
          next mp' p hp =>
          rw [Bool.and_eq_true, decide_eq_true_eq] at hget
          obtain ⟨rfl, hrest⟩ := hget
          obtain ⟨ht', hsection, hfilled⟩ := h.put hi hclear hp
          have hstep : (machine entryGeometry ht₀).step ht (Stroke.put page i).call = some ht' := by
            simp [machine, Stroke.call, perform, resolve, hashSearch, hsection,
              (frozen hfilled.flags).1, rehashIf]
          have hpromises : Promises entryGeometry ht (served page) (Stroke.put page i).call.1 := by
            refine ⟨hserved page, ?_, ⟨keyAt i, rfl, h.unmutated i⟩, ?_⟩
            · rw [Alloc.Maps, h.mp]
              exact hpage
            · intro key hkey r hr
              obtain rfl : keyAt i = key := Option.some.inj hkey
              obtain rfl : (ht', true, i) = r := Option.some.inj (hsection.symm.trans hr)
              simp [(frozen hfilled.flags).1]
          obtain ⟨hvalid, hexec⟩ := ih hfilled hrest
          rw [List.map_cons, Machine.Valid, Machine.allSteps_cons_of_step hstep,
            Machine.exec_cons_of_step hstep]
          exact ⟨⟨hpromises, hvalid⟩, hexec⟩
      | drop page i =>
          rw [crashes] at hcrash
          simp only [Bool.and_eq_true, decide_eq_true_eq] at hcrash
          obtain ⟨⟨hpage, hset⟩, hgive⟩ := hcrash
          obtain ⟨hnone, hsome⟩ := h.drop hset
          have hpromises : Promises entryGeometry ht (served page) (Stroke.drop page i).call.1 := by
            refine ⟨hserved page, ?_, ⟨keyAt i, rfl, h.unmutated i⟩, ?_⟩
            · rw [Alloc.Maps, h.mp]
              exact hpage
            · intro key hkey r hr
              obtain rfl : keyAt i = key := Option.some.inj hkey
              cases hmp : mempoolFree lp64 (chunkAt i) mp with
              | none => simp [hnone hmp] at hr
              | some mp' =>
                  obtain ⟨ht', d, hsection, -⟩ := hsome mp' hmp
                  obtain rfl : (ht', some d) = r := Option.some.inj (hsection.symm.trans hr)
                  simp
          rw [List.map_cons]
          split at hgive
          next hmp =>
            have hstep : (machine entryGeometry ht₀).step ht (Stroke.drop page i).call = none := by
              simp [machine, Stroke.call, perform, resolve, hashDelete, hnone hmp]
            refine ⟨⟨hpromises, fun t ht => ?_⟩, by simp [Machine.exec, hstep]⟩
            simp [hstep] at ht
          next mp' hmp =>
            obtain ⟨ht', d, hsection, hfilled⟩ := hsome mp' hmp
            have hstep :
                (machine entryGeometry ht₀).step ht (Stroke.drop page i).call = some ht' := by
              simp [machine, Stroke.call, perform, resolve, hashDelete, hsection, rehashIf]
            obtain ⟨hvalid, hexec⟩ := ih hfilled hgive
            rw [Machine.Valid, Machine.allSteps_cons_of_step hstep, Machine.exec_cons_of_step hstep]
            exact ⟨⟨hpromises, hvalid⟩, hexec⟩

end Filled

/-- `hash_new(64, 1, HASH_FROZEN)` -/
def frozenTable : HashTable ℚ ℕ := (hashNew 64 true hashFrozen ⟨true, true, true⟩).join.get rfl

/-- Four pages are filled. Page 3 is the head before pages 2 and 1 until it is full again, and
page 2 keeps its `prev`: when page 2 is unmapped, page 3, which is not in the list, gets page 1
for its `next`. Page 1 is unmapped, and then page 3. -/
def strokes : List Stroke :=
  (List.range' 0 504).map (fun i => .put (4096 * (i / 126 + 1)) i) ++
    ([0, 126, 252].map (.drop 0x100000) ++ [.put 0x100000 252]) ++
    (List.range' 127 125).map (.drop 0x100000) ++ [.drop 0x100000 378] ++
    (List.range' 1 125 ++ List.range' 252 126).map (.drop 0x100000)

theorem frozenTable_new :
    hashNew 64 true hashFrozen ⟨true, true, true⟩ = some (some frozenTable) := rfl

theorem frozenTable_nodes : frozenTable.nodes = [] := by decide

theorem filled_frozenTable : Filled frozenTable State.empty 0 where
  shape := (hashNew_spec (G := entryGeometry) frozenTable_new (by decide)).1.toShape
  free := rfl
  flags := rfl
  mp := rfl
  entry i hi := by simp at hi
  held he hhe := by simp [frozenTable_nodes] at hhe
  own he hhe := by simp [frozenTable_nodes] at hhe

/-- The last deletion writes to a page that is not mapped. -/
theorem frozenTable_crashes :
    (machine entryGeometry frozenTable).Valid frozenTable (strokes.map Stroke.call) ∧
      ¬ ((∃ ht', (machine entryGeometry frozenTable).exec frozenTable (strokes.map Stroke.call) =
          some ht') ∧
        (machine entryGeometry frozenTable).AllSteps (Refines entryGeometry) frozenTable
          (strokes.map Stroke.call)) := by
  have hcrash : crashes State.empty 0 strokes = true := by decide +kernel
  obtain ⟨hvalid, hexec⟩ := filled_frozenTable.crash frozenTable hcrash
  refine ⟨hvalid, fun ⟨⟨ht', hsome⟩, _⟩ => ?_⟩
  rw [hexec] at hsome
  cases hsome

end ThreeW3.Hash
