/-
# Dispatch

The table of commands is a map from names to records: `command_push` enters a record under
a name, a new one in place of an old one, and `process_command` runs the command whose name
the line is. After `command_init` it runs what the list of the four names says. A record that
another one has replaced is left without a name, and nothing frees it.
-/

import Mathlib.Data.List.TakeWhile
import ThreeW3.Hash.Ownership
import ThreeW3.Commands.Model

namespace ThreeW3.Commands

open ThreeW3.Lib ThreeW3.Pool ThreeW3.Hash HashTable

variable {R C : Type}

/-! ## Calls -/

/-- A call on the table of commands. -/
inductive Call (C : Type)
  | push (key : Address) (memory : List UInt8) (command : C) (level flags : BitVec 64) (g : Grant)
  | process (input : KeyArg)

/-- What the call gives: the return value of `command_push`, or the command that is run. -/
inductive Reply (C : Type)
  | pushed (n : ℤ)
  | ran (command : Option (Command C))
  deriving DecidableEq

/-- A text of the caller's, with its NUL. -/
structure IsText (key : Address) (memory : List UInt8) : Prop where
  foreign : key.block.isOwn = false
  nul : 0 ∈ memory
  fits : memory.length < sizeModulus

/-- A line of the caller's. -/
structure IsLine (input : KeyArg) : Prop where
  foreign : input.key.block.isOwn = false
  readable : input.ks ≤ input.memory.length
  fits : input.memory.length < sizeModulus - 1

instance (key : Address) (memory : List UInt8) : Decidable (IsText key memory) :=
  decidable_of_iff (key.block.isOwn = false ∧ 0 ∈ memory ∧ memory.length < sizeModulus)
    ⟨fun ⟨h, h', h''⟩ => ⟨h, h', h''⟩, fun h => ⟨h.foreign, h.nul, h.fits⟩⟩

instance (input : KeyArg) : Decidable (IsLine input) :=
  decidable_of_iff (input.key.block.isOwn = false ∧ input.ks ≤ input.memory.length ∧
    input.memory.length < sizeModulus - 1)
    ⟨fun ⟨h, h', h''⟩ => ⟨h, h', h''⟩, fun h => ⟨h.foreign, h.readable, h.fits⟩⟩

/-- The bytes of a text. -/
def textOf (memory : List UInt8) : List UInt8 := memory.takeWhile (· ≠ 0)

/-- The number of the record of a name. -/
def Registry.find (s : Registry R C) (w : List UInt8) : Option ℕ := s.commandHash.contents.lookup w

/-- The record of a name. -/
def Registry.names (s : Registry R C) (w : List UInt8) : Option (Command C) :=
  (s.find w).bind fun n => s.records[n]?

section Machine

variable [FloatOps R] {L : Layout} (G : Geometry L)

/-- The effect of a call. -/
def perform (s : Registry R C) : Call C → Option (Registry R C × Reply C)
  | .push key memory command level flags g =>
      (commandPush G s key memory command level flags g).map fun r => (r.1, .pushed r.2)
  | .process input => (processCommand s input).map fun r => (r.1, .ran r.2)

/-- What the caller and the system promise: the texts are the caller's, and a call that gets
a record also gets what `hash_replace` needs: the copy of the key, the bucket array, a page,
and a size that `hash_size` reaches. -/
def Promises (s : Registry R C) : Call C → Prop
  | .push key memory _ _ _ g => IsText key memory ∧ (g.malloc = true → g.hash.Succeeds ∧
      g.hash.Maps L s.commandHash ∧
      Op.TargetOk G s.commandHash g.hash (.replace (textArg key memory) s.records.length))
  | .process input => IsLine input

instance (s : Registry R C) : DecidablePred (Promises G s)
  | .push key memory _ _ _ g => inferInstanceAs (Decidable (IsText key memory ∧
      (g.malloc = true → g.hash.Succeeds ∧ g.hash.Maps L s.commandHash ∧
        Op.TargetOk G s.commandHash g.hash (.replace (textArg key memory) s.records.length))))
  | .process input => inferInstanceAs (Decidable (IsLine input))

/-- The table of commands and its calls. -/
def registry (s : Registry R C) : Machine (Registry R C) (Call C) where
  init := s
  enabled := Promises G
  step s call := (perform G s call).map Prod.fst

instance (s₀ s : Registry R C) (call : Call C) : Decidable ((registry G s₀).enabled s call) :=
  inferInstanceAs (Decidable (Promises G s call))

end Machine

/-! ## The map of the names -/

/-- What a call does to the map of the names. -/
def Spec (s : Registry R C) : Call C → Reply C → Registry R C → Prop
  | .push key memory command level flags g, reply, s' =>
      if g.malloc then
        s'.names = Function.update s.names (textOf memory) (some ⟨key, command, level, flags⟩) ∧
          reply = .pushed (if s.names (textOf memory) = none then 1 else 0) ∧
          -- the record that it replaces stays, without a name
          ∀ n, s.find (textOf memory) = some n → s'.records[n]? = s.records[n]? ∧
            s'.records[n]? ≠ none ∧ ∀ w, s'.find w ≠ some n
      else s' = s ∧ reply = .pushed (-1)
  | .process input, reply, s' =>
      s'.names = s.names ∧
        reply = .ran (if input.ks = 0 then none else s.names (input.memory.take input.ks))

/-- All keys of the table are its own copies. -/
structure Copied (ht : HashTable R ℕ) : Prop where
  copies : ht.nocopy = false
  own : ∀ he ∈ ht.nodes, ∀ k ∈ he.key, k.ptr.block.isOwn = true

/-- What holds between calls. -/
structure Inv {L : Layout} (G : Geometry L) (s : Registry R C) : Prop where
  ok : s.commandHash.Ok G
  unlocked : s.commandHash.locked = false
  copied : Copied s.commandHash
  lt : ∀ w n, s.find w = some n → n < s.records.length
  /-- A record has one name. -/
  injective : ∀ w w' n, s.find w = some n → s.find w' = some n → w = w'

section Steps

variable {L : Layout} {G : Geometry L} {s : Registry R C} {ht ht' : HashTable R ℕ} {key : Key}
  {a : Alloc} {data : ℕ}

theorem Copied.unmutated (h : Copied ht) (hforeign : key.ptr.block.isOwn = false) :
    ht.Unmutated key := by
  intro he hhe k hk hptr
  have hown := h.own he hhe k hk
  rw [hptr, hforeign] at hown
  cases hown

theorem Copied.of_left {N : List (HashEntry ℕ)} {array : Option Address} {mp : Pool.State}
    {m : Malloc} (h : Copied ht) (hleft : Left ht N array mp m ht')
    (hown : ∀ he ∈ N, ∀ k ∈ he.key, k.ptr.block.isOwn = true) : Copied ht' := by
  constructor
  · rw [nocopy, hleft.flags]
    exact h.copies
  · exact fun he hhe => hown he (hleft.nodes.mem_iff.mp hhe)

theorem Copied.resized (h : Copied ht) (hresized : Resized ht a ht') : Copied ht' := by
  cases hresized with
  | kept hleft | moved _ _ _ hleft | lost _ _ _ _ hleft => exact h.of_left hleft h.own

/-- A new key is a copy. -/
theorem Copied.replace [FloatOps R] (h : Copied ht) {old : Option ℕ}
    (hreplace : hashReplace G ht key data a = some (ht', old)) : Copied ht' := by
  obtain ⟨⟨ht₁, old'⟩, hsection, hrest⟩ := Option.bind_eq_some_iff.mp hreplace
  obtain ⟨ht₂, hrehash, hresult⟩ := Option.bind_eq_some_iff.mp hrest
  obtain ⟨rfl, rfl⟩ := Prod.mk.inj (Option.some.inj hresult)
  refine Copied.resized ?_ (rehashIf_cases hrehash)
  obtain ⟨-, ⟨he, rest, hperm, hleft⟩⟩ | ⟨-, ⟨he, mp, -, hkey, hleft⟩⟩ :=
    replaceSection_cases hsection
  · refine h.of_left hleft fun he' hhe' => ?_
    obtain rfl | hrest := List.mem_cons.mp hhe'
    · exact h.own he (hperm.mem_iff.mpr List.mem_cons_self)
    · exact h.own he' (hperm.mem_iff.mpr (List.mem_cons_of_mem he hrest))
  · refine h.of_left hleft fun he' hhe' k hk => ?_
    obtain rfl | hrest := List.mem_cons.mp hhe'
    · rw [hkey, entryKey, h.copies] at hk
      cases hcopy : a.key with
      | false => simp [hashKdup, hcopy] at hk
      | true =>
          obtain rfl : k = _ := by simpa [hashKdup, hcopy, eq_comm] using hk
          rfl
    · exact h.own he' hrest k hk

theorem textArg_resolve {key : Address} {memory : List UInt8} (h : IsText key memory) :
    (textArg key memory).resolve = some ⟨key, textOf memory⟩ := by
  have hle : textOf memory <+: memory := List.takeWhile_prefix _
  have hlt : strlen memory < memory.length := by
    refine lt_of_le_of_ne hle.length_le fun heq => ?_
    have hmem : (0 : UInt8) ∈ textOf memory := by
      rw [hle.eq_of_length heq]
      exact h.nul
    simpa using List.mem_takeWhile_imp hmem
  have hsize : (textArg key memory).size = strlen memory :=
    if_neg (Nat.ne_of_lt (Nat.lt_sub_of_add_lt (lt_of_le_of_lt hlt h.fits)))
  rw [KeyArg.resolve, hsize]
  refine (if_pos hlt.le).trans ?_
  exact congrArg (fun w => some (Key.mk key w)) (List.prefix_iff_eq_take.mp hle).symm

theorem lineArg_resolve {input : KeyArg} (h : IsLine input) :
    input.resolve = some ⟨input.key, input.memory.take input.ks⟩ := by
  have hsize : input.size = input.ks :=
    if_neg (Nat.ne_of_lt (lt_of_le_of_lt h.readable h.fits))
  rw [KeyArg.resolve, hsize, if_pos h.readable]

/-- The record of a name is there. -/
theorem Inv.names_eq_none (h : Inv G s) (w : List UInt8) : s.names w = none ↔ s.find w = none := by
  rw [Registry.names]
  cases hn : s.find w with
  | none => simp
  | some n => simpa using h.lt w n hn

/-- The names after the table has got another record for a name. -/
theorem names_insert {s' : Registry R C} (h : Inv G s) {w : List UInt8} {c : Command C}
    (hfind : s'.commandHash.contents = s.commandHash.contents.insert w s.records.length)
    (hrecords : s'.records = s.records ++ [c]) :
    s'.names = Function.update s.names w (some c) := by
  funext v
  rw [Registry.names, Registry.find, hfind, hrecords]
  by_cases hv : v = w
  · subst hv
    rw [Finmap.lookup_insert, Function.update_self, Option.bind_some]
    simp
  · rw [Finmap.lookup_insert_of_ne _ hv, Function.update_of_ne hv, Registry.names]
    cases hn : s.find v with
    | none =>
        rw [Registry.find] at hn
        rw [hn]
        rfl
    | some n =>
        have hlt := h.lt v n hn
        rw [Registry.find] at hn
        rw [hn, Option.bind_some, Option.bind_some, List.getElem?_append_left hlt]

variable [FloatOps R]

/-- `command_push` -/
theorem commandPush_spec (h : Inv G s) {key : Address} {memory : List UInt8} (command : C)
    (level flags : BitVec 64) {g : Grant}
    (hpromises : Promises G s (.push key memory command level flags g)) :
    ∃ s' reply, perform G s (.push key memory command level flags g) = some (s', reply) ∧
      Spec s (.push key memory command level flags g) reply s' ∧ Inv G s' := by
  obtain ⟨htext, hgrant⟩ := hpromises
  cases hmalloc : g.malloc with
  | false =>
      refine ⟨s, .pushed (-1), by simp [perform, commandPush, hmalloc], ?_, h⟩
      simp [Spec, hmalloc]
  | true =>
      obtain ⟨hsucceeds, hpage, htarget⟩ := hgrant hmalloc
      have hresolve := textArg_resolve htext
      have hunmutated : s.commandHash.Unmutated ⟨key, textOf memory⟩ :=
        h.copied.unmutated htext.foreign
      obtain ⟨ht', hreplace, hbecame⟩ : ∃ ht',
          hashReplace G s.commandHash ⟨key, textOf memory⟩ s.records.length g.hash =
            some (ht', s.find (textOf memory)) ∧
          Became G s.commandHash
            (s.commandHash.contents.insert (textOf memory) s.records.length) ht' :=
        hashReplace_spec h.ok h.unlocked hunmutated hpage (fun _ _ => hsucceeds.key)
          fun r hr hresizes => ⟨htarget _ hresolve r hr hresizes, fun _ => hsucceeds.buckets⟩
      let c : Command C := ⟨key, command, level, flags⟩
      let s' : Registry R C := ⟨ht', s.records ++ [c]⟩
      have hfind : ∀ v, s'.find v =
          if v = textOf memory then some s.records.length else s.find v := by
        intro v
        rw [Registry.find, hbecame.contents]
        split_ifs with hv
        · rw [hv, Finmap.lookup_insert]
        · rw [Finmap.lookup_insert_of_ne _ hv, Registry.find]
      have hnew : ∀ v n, s.find v = some n → n ≠ s.records.length := fun v n hn =>
        (h.lt v n hn).ne
      refine ⟨s', .pushed (s.find (textOf memory)).isNone.toInt, ?_, ?_, ?_⟩
      · simp [perform, commandPush, hmalloc, hresolve, hreplace, s', c]
      · rw [Spec, if_pos hmalloc]
        refine ⟨names_insert h hbecame.contents rfl, ?_, fun n hn => ⟨?_, ?_, fun v hv => ?_⟩⟩
        · have hnone := h.names_eq_none (textOf memory)
          cases hn : s.find (textOf memory) with
          | none => rw [if_pos (hnone.mpr hn)]; rfl
          | some n => rw [if_neg fun hnames => by simp [hnone.mp hnames] at hn]; rfl
        · exact List.getElem?_append_left (h.lt _ n hn)
        · rw [ne_eq, List.getElem?_eq_none_iff, not_le, List.length_append]
          exact Nat.lt_add_right _ (h.lt _ n hn)
        · rw [hfind] at hv
          split_ifs at hv with htext
          · exact hnew _ n hn (Option.some.inj hv).symm
          · exact htext (h.injective v _ n hv hn)
      · refine ⟨hbecame.ok, hbecame.same.locked.trans h.unlocked, h.copied.replace hreplace,
          fun v n hn => ?_, fun v v' n hv hv' => ?_⟩
        · rw [hfind] at hn
          rw [List.length_append, List.length_singleton]
          split_ifs at hn
          · rw [← Option.some.inj hn]
            exact Nat.lt_succ_self _
          · exact Nat.lt_succ_of_lt (h.lt v n hn)
        · rw [hfind] at hv hv'
          split_ifs at hv hv' with htext htext'
          · rw [htext, htext']
          · exact absurd (Option.some.inj hv).symm (hnew v' n hv')
          · exact absurd (Option.some.inj hv').symm (hnew v n hv)
          · exact h.injective v v' n hv hv'

omit [FloatOps R] in
/-- `process_command` -/
theorem processCommand_spec (h : Inv G s) {input : KeyArg} (hline : IsLine input) :
    processCommand s input =
      some (s, if input.ks = 0 then none else s.names (input.memory.take input.ks)) := by
  rw [processCommand]
  by_cases hzero : input.ks = 0
  · rw [if_pos hzero.le, if_pos hzero]
  · have hfound : hashFind s.commandHash ⟨input.key, input.memory.take input.ks⟩ =
        some (s.commandHash, s.find (input.memory.take input.ks)) :=
      findSection_spec h.ok.toShape h.unlocked (h.copied.unmutated hline.foreign)
    rw [if_neg (by omega), if_neg hzero, findCommand, lineArg_resolve hline]
    simp only [Option.bind_eq_bind, Option.bind_some, hfound]
    cases hn : s.find (input.memory.take input.ks) with
    | none => rw [Registry.names, hn, Option.bind_none]
    | some n =>
        have hlt := h.lt _ n hn
        simp only [Registry.names, hn, Option.bind_some, List.getElem?_eq_getElem hlt]

/-- Any call. -/
theorem perform_spec (h : Inv G s) {call : Call C} (hpromises : Promises G s call) :
    ∃ s' reply, perform G s call = some (s', reply) ∧ Spec s call reply s' ∧ Inv G s' := by
  cases call with
  | push key memory command level flags g => exact commandPush_spec h command level flags hpromises
  | process input =>
      have hprocess := processCommand_spec h hpromises
      exact ⟨s, _, by rw [perform, hprocess, Option.map_some], ⟨rfl, rfl⟩, h⟩

/-- A table of the server, `hash_new(1, 1, 0)`, without commands. -/
theorem hashNew_inv {boot : NewAlloc} (hnew : hashNew 1 true 0 boot = some (some ht))
    (hbuckets : ht.buckets ≠ none) :
    Inv G (⟨ht, []⟩ : Registry R C) ∧ ∀ w, (⟨ht, []⟩ : Registry R C).names w = none := by
  obtain ⟨hok, hempty, hfree⟩ := hashNew_spec (G := G) hnew hbuckets
  have hflags : ht.flags = 0 := by
    rw [hashNew] at hnew
    obtain ⟨ns, -, hrest⟩ := Option.bind_eq_some_iff.mp hnew
    split_ifs at hrest
    · simp at hrest
    · obtain rfl := Option.some.inj (Option.some.inj hrest)
      rfl
  have hnodes : ht.nodes = [] := by
    rw [← List.length_eq_zero_iff, ← hok.entries]
    exact hok.contents_eq_empty_iff.mp hempty
  have hfind : ∀ w, (⟨ht, []⟩ : Registry R C).find w = none := by
    intro w
    rw [Registry.find, hempty]
    rfl
  refine ⟨⟨hok, hfree, ⟨?_, ?_⟩, ?_, ?_⟩, fun w => by rw [Registry.names, hfind, Option.bind_none]⟩
  · rw [nocopy, hflags]
    rfl
  · simp [hnodes]
  · intro w n hn
    rw [hfind] at hn
    cases hn
  · intro w w' n hn
    rw [hfind] at hn
    cases hn

end Steps

/-! ## Runs -/

section Runs

variable [FloatOps R] {L : Layout} {G : Geometry L} {ht : HashTable R ℕ} {boot : NewAlloc}

/-- The call ends, and does to the names what it is there for. -/
def Serves (G : Geometry L) (s : Registry R C) (call : Call C) : Prop :=
  ∃ s' reply, perform G s call = some (s', reply) ∧ Spec s call reply s'

theorem perform_keeps (s : Registry R C) (call : Call C) (h : Inv G s)
    (hpromises : Promises G s call) :
    ∃ s', (perform G s call).map Prod.fst = some s' ∧ Inv G s' := by
  obtain ⟨s', reply, hperform, -, hs'⟩ := perform_spec h hpromises
  exact ⟨s', by rw [hperform, Option.map_some], hs'⟩

/-- Commands that are entered and lines that are run, in any order. -/
theorem commands_serve (hnew : hashNew 1 true 0 boot = some (some ht)) (hbuckets : ht.buckets ≠ none)
    (calls : List (Call C)) (hvalid : (registry G ⟨ht, []⟩).Valid ⟨ht, []⟩ calls) :
    (∃ s, (registry G ⟨ht, []⟩).exec ⟨ht, []⟩ calls = some s) ∧
      (registry G ⟨ht, []⟩).AllSteps (Serves G) ⟨ht, []⟩ calls := by
  obtain ⟨hinv, -⟩ := hashNew_inv (G := G) (C := C) hnew hbuckets
  have hguard : (registry G ⟨ht, []⟩).AllSteps (fun _ _ => True) ⟨ht, []⟩ calls :=
    Machine.allSteps_of_forall (fun _ _ _ => trivial) _
  obtain ⟨⟨s, hexec, -⟩, -⟩ := Machine.run_invariant (M := registry G ⟨ht, []⟩)
    (fun s call hs hpromises _ => perform_keeps s call hs hpromises) hinv hvalid hguard
  refine ⟨⟨s, hexec⟩, ?_⟩
  refine Machine.allSteps_of_invariant (M := registry G ⟨ht, []⟩)
    (fun s call hs hpromises _ => perform_keeps s call hs hpromises) ?_ hinv hvalid hguard
  intro s call hs hpromises _
  obtain ⟨s', reply, hperform, hspec, -⟩ := perform_spec hs hpromises
  exact ⟨s', reply, hperform, hspec⟩

/-- The name is entered, run, entered again and run again. -/
def errands : List (Call Input.Command) :=
  [.push ⟨.foreign 0, 0⟩ (Literal.who.text ++ [0]) .who 0 0 ⟨true, served 4096⟩,
    .process ⟨⟨.foreign 1, 0⟩, Literal.who.text, 3⟩,
    .push ⟨.foreign 0, 0⟩ (Literal.who.text ++ [0]) .twho 0 0 ⟨true, served 0⟩,
    .process ⟨⟨.foreign 1, 0⟩, Literal.who.text, 3⟩]

theorem errands_serve :
    (∃ s, (registry entryGeometry ⟨smallTable, []⟩).exec ⟨smallTable, []⟩ errands = some s) ∧
      (registry entryGeometry ⟨smallTable, []⟩).AllSteps (Serves entryGeometry) ⟨smallTable, []⟩
        errands :=
  commands_serve smallTable_new (by decide) errands (by decide +kernel)

/-! ## The four commands -/

/-- The handler that `command_init` has for a name. -/
def Literal.command : Literal → Input.Command
  | who => .who
  | twho => .twho
  | quit => .quit
  | exit => .quit

/-- A call that `command_init` makes. -/
def Literal.call (key : Literal → Address) (g : Literal → Grant) (l : Literal) :
    Call Input.Command :=
  .push (key l) (l.text ++ [0]) l.command 0 0 (g l)

/-- The calls of `command_init`. -/
def startup (key : Literal → Address) (g : Literal → Grant) : List (Call Input.Command) :=
  [Literal.who, .twho, .quit, .exit].map (Literal.call key g)

/-- A name that is new. -/
theorem commandPush_new {s : Registry R C} (h : Inv G s) {key : Address} {memory : List UInt8}
    (command : C) (level flags : BitVec 64) {g : Grant} {w : List UInt8} (hmalloc : g.malloc = true)
    (hpromises : Promises G s (.push key memory command level flags g))
    (htext : textOf memory = w) (hnew : s.names w = none) :
    ∃ s', commandPush G s key memory command level flags g = some (s', 1) ∧
      s'.names = Function.update s.names w (some ⟨key, command, level, flags⟩) ∧ Inv G s' := by
  obtain ⟨s', reply, hperform, hspec, hs'⟩ := commandPush_spec h command level flags hpromises
  rw [Spec, if_pos hmalloc, htext, if_pos hnew] at hspec
  obtain ⟨hnames, rfl, -⟩ := hspec
  obtain ⟨⟨s₁, n⟩, hpush, heq⟩ := Option.map_eq_some_iff.mp hperform
  obtain ⟨rfl, hreply⟩ := Prod.mk.inj heq
  obtain rfl := Reply.pushed.inj hreply
  exact ⟨s₁, hpush, hnames, hs'⟩

theorem registry_push {s₀ s s' : Registry R C} {key : Address} {memory : List UInt8} {command : C}
    {level flags : BitVec 64} {g : Grant} {n : ℤ}
    (hpush : commandPush G s key memory command level flags g = some (s', n)) :
    s' ∈ (registry G s₀).step s (.push key memory command level flags g) := by
  simp only [Option.mem_def, registry, perform, hpush, Option.map_some]

/-- The handlers by name, as `command_init` leaves them. -/
theorem lookup_commandHash (w : List UInt8) :
    Input.commandHash.lookup w = if w = Literal.exit.text then some .quit else
      if w = Literal.quit.text then some .quit else if w = Literal.twho.text then some .twho else
      if w = Literal.who.text then some .who else none := by
  split_ifs with hexit hquit htwho hwho
  · subst hexit; rfl
  · subst hquit; rfl
  · subst htwho; rfl
  · subst hwho; rfl
  · rw [List.lookup_eq_none_iff]
    simp only [Input.commandHash, List.forall_mem_cons, bne_iff_ne]
    exact ⟨hwho, htwho, hquit, hexit, by simp⟩

/-- If every call of `command_push` gets its record, `command_init` registers four commands,
and `process_command` then runs, for any line, the command that the list of the four names has
for it, and leaves the table as it is. -/
theorem commandInit_dispatches (hnew : hashNew 1 true 0 boot = some (some ht))
    (hbuckets : ht.buckets ≠ none) (key : Literal → Address) (g : Literal → Grant)
    (hmalloc : ∀ l, (g l).malloc = true)
    (hvalid : (registry G ⟨ht, []⟩).Valid ⟨ht, []⟩ (startup key g)) :
    ∃ s, commandInit G ⟨ht, []⟩ key g = some (s, 4) ∧
      ∀ (ptr : Address) (input : Fin Input.bufsiz → UInt8) (length : ℕ),
        ptr.block.isOwn = false → length ≤ Input.bufsiz →
        (processCommand s ⟨ptr, List.ofFn input, length⟩).map
            (fun r => (r.1, r.2.map Command.command)) =
          some (s, if length = 0 then none else Input.findCommand input length) := by
  obtain ⟨hinv, hnone⟩ := hashNew_inv (G := G) (C := Input.Command) hnew hbuckets
  obtain ⟨h₀, hrest⟩ := hvalid
  obtain ⟨s₁, hpush₀, hnames₁, hinv₁⟩ :=
    commandPush_new hinv .who 0 0 (hmalloc .who) h₀ (w := Literal.who.text) (by decide) (hnone _)
  obtain ⟨h₁, hrest⟩ := hrest s₁ (registry_push hpush₀)
  obtain ⟨s₂, hpush₁, hnames₂, hinv₂⟩ :=
    commandPush_new hinv₁ .twho 0 0 (hmalloc .twho) h₁ (w := Literal.twho.text) (by decide)
      (by rw [hnames₁, Function.update_of_ne (by decide), hnone])
  obtain ⟨h₂, hrest⟩ := hrest s₂ (registry_push hpush₁)
  obtain ⟨s₃, hpush₂, hnames₃, hinv₃⟩ :=
    commandPush_new hinv₂ .quit 0 0 (hmalloc .quit) h₂ (w := Literal.quit.text) (by decide)
      (by rw [hnames₂, Function.update_of_ne (by decide), hnames₁,
        Function.update_of_ne (by decide), hnone])
  obtain ⟨h₃, -⟩ := hrest s₃ (registry_push hpush₂)
  obtain ⟨s₄, hpush₃, hnames₄, hinv₄⟩ :=
    commandPush_new hinv₃ .quit 0 0 (hmalloc .exit) h₃ (w := Literal.exit.text) (by decide)
      (by rw [hnames₃, Function.update_of_ne (by decide), hnames₂, Function.update_of_ne (by decide),
        hnames₁, Function.update_of_ne (by decide), hnone])
  have hinit : commandInit G ⟨ht, []⟩ key g = some (s₄, 0 + 1 + 1 + 1 + 1) := by
    simp only [commandInit, hpush₀, hpush₁, hpush₂, hpush₃, Option.bind_eq_bind, Option.bind_some]
  refine ⟨s₄, hinit, ?_⟩
  intro ptr input length hforeign hlength
  have hline : IsLine ⟨ptr, List.ofFn input, length⟩ := by
    refine ⟨hforeign, ?_, ?_⟩
    · rwa [List.length_ofFn]
    · rw [List.length_ofFn]
      decide
  rw [processCommand_spec hinv₄ hline, Option.map_some, Option.some.injEq, Prod.mk.injEq,
    apply_ite (Option.map _)]
  refine ⟨rfl, if_congr Iff.rfl rfl ?_⟩
  rw [Input.findCommand, lookup_commandHash, hnames₄, hnames₃, hnames₂, hnames₁]
  simp only [Function.update_apply, hnone, apply_ite (Option.map Command.command), Option.map_some,
    Option.map_none]

/-- All four are registered. -/
theorem fourCommands_dispatch :
    ∃ s, commandInit entryGeometry ⟨smallTable, []⟩ (fun l => ⟨.foreign l.text.length, 0⟩)
        (fun _ => ⟨true, served 4096⟩) = some (s, 4) ∧
      ∀ (ptr : Address) (input : Fin Input.bufsiz → UInt8) (length : ℕ),
        ptr.block.isOwn = false → length ≤ Input.bufsiz →
        (processCommand s ⟨ptr, List.ofFn input, length⟩).map
            (fun r => (r.1, r.2.map Command.command)) =
          some (s, if length = 0 then none else Input.findCommand input length) :=
  commandInit_dispatches smallTable_new (by decide) _ _ (fun _ => rfl) (by decide +kernel)

end Runs

end ThreeW3.Commands
