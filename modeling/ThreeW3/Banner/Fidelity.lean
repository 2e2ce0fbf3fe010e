/-
# Fidelity of a banner

The buffer is cleared over the size of a pointer, not over its own. A file that is shorter
is cleared past the end of its buffer; the NUL after a longer one is whatever the memory
held before.
-/

import ThreeW3.Banner.Model

namespace ThreeW3.Banner

open Lib Output

/-- The contents of a file. -/
structure File where
  bytes : List UInt8
  fits : bytes.length < 2 ^ 63

/-- Every call succeeds, and the file is read completely into memory that held these bytes. -/
def Kernel.complete (fd : ℕ) (now : ℤ) (old : ℕ → UInt8) (b : File) : Kernel :=
  ⟨true, some fd, now, b.bytes.length, some old, some b.bytes⟩

/-- What `dfile_new` owes for a file: its stores stay in the buffer, and if it succeeds,
what `dfile_get` gives out later is the file and a NUL, and `login_welcome` sends the
file up to its first NUL. -/
structure Faithful (s : Banners) (type : DfileType) (b : File) (r : ℤ × Banners) : Prop where
  bounds : ∀ st ∈ r.2.stores.drop s.stores.length, st.InBounds
  given : r.1 = 0 → ∀ calls, (∀ c ∈ calls, ¬ Call.Loads type c) → ∀ now,
    (dfileGet (r.2.calls calls) type now).1 = some (b.bytes ++ [0])
  welcome : r.1 = 0 → type = .issue → ∀ calls, (∀ c ∈ calls, ¬ Call.Loads type c) →
    ∀ now heap writes, (loginWelcome (r.2.calls calls) now heap writes).1 =
      (_socketWrite (C.chars b.bytes) writes).andThen (socketPrompt namePrompt heap)

variable {s : Banners} {type : DfileType} {now : ℤ}

/-! ## What stays in the array -/

/-- The buffer of a type. -/
def Banners.data (s : Banners) (type : DfileType) : Option (List UInt8) :=
  (s.dfileArray type).map Dfile.data

theorem dfileGet_fst (s : Banners) (type : DfileType) (now : ℤ) :
    (dfileGet s type now).1 = s.data type := by
  rw [dfileGet, Banners.data]
  cases s.dfileArray type <;> rfl

/-- `dfile_get` changes no buffer. -/
theorem data_dfileGet (s : Banners) (t : DfileType) (now : ℤ) (type : DfileType) :
    (dfileGet s t now).2.data type = s.data type := by
  rw [dfileGet]
  cases hd : s.dfileArray t with
  | none => rfl
  | some d =>
      rw [Banners.data, Banners.data]
      by_cases ht : type = t
      · subst ht
        simp [hd]
      · simp [Function.update_of_ne ht]

/-- `dfile_new` changes at most the buffer of its own type. -/
theorem data_dfileRead {t : DfileType} (ht : t ≠ type) (new : Dfile) (fd : ℕ) (k : Kernel) :
    (dfileRead s t new fd k).2.data type = s.data type := by
  have hne : type ≠ t := ht.symm
  simp only [dfileRead]
  generalize (if k.read.isSome then _ else _ : ℤ) = len
  split_ifs
  · rfl
  · simp [Banners.data, Banners.store, Function.update_of_ne hne]

theorem data_dfileNew {t : DfileType} (ht : t ≠ type) (path : List UInt8) (k : Kernel) :
    (dfileNew s t path k).2.data type = s.data type := by
  rw [dfileNew.eq_def]
  by_cases hrecord : k.record = false
  · rw [if_pos hrecord]
  · rw [if_neg hrecord]
    dsimp only
    cases k.fd with
    | none => rfl
    | some fd =>
        dsimp only
        cases C.malloc k.heap ((C.sizeOf k.seekEnd + 1) % 2 ^ 64) with
        | none => rfl
        | some data => exact data_dfileRead ht _ fd k

/-- A buffer stays as it is until its type is loaded again. -/
theorem data_calls {calls : List Call} (hcalls : ∀ c ∈ calls, ¬ Call.Loads type c) :
    (s.calls calls).data type = s.data type := by
  induction calls generalizing s with
  | nil => rfl
  | cons c calls ih =>
      have hc := hcalls c List.mem_cons_self
      have hstep : (s.call c).data type = s.data type := by
        cases c with
        | new t path k => exact data_dfileNew hc path k
        | get t now => exact data_dfileGet s t now type
      rw [← hstep]
      exact ih fun c' hc' => hcalls c' (List.mem_cons_of_mem _ hc')

/-! ## Loading -/

/-- The code takes a complete read for a short one: the count is wrong as an `int`. -/
def CountLost (b : File) : Prop := C.sizeOf (C.intOf b.bytes.length) < b.bytes.length

theorem countLost_iff (b : File) :
    CountLost b ↔ 2 ^ 32 ≤ b.bytes.length ∧ b.bytes.length % 2 ^ 32 < 2 ^ 31 := by
  have hfits := b.fits
  exact C.sizeOf_intOf_lt_iff (by omega)

/-- What follows the file in its buffer. -/
def terminator (old : ℕ → UInt8) (b : File) : UInt8 :=
  if b.bytes.length < pointerSize then 0 else old b.bytes.length

theorem terminator_eq_zero_iff {old : ℕ → UInt8} {b : File}
    (hle : pointerSize ≤ b.bytes.length + 1) :
    terminator old b = 0 ↔ b.bytes.length + 1 = pointerSize ∨ old b.bytes.length = 0 := by
  rw [terminator]
  split_ifs with hlt
  · simp only [true_iff]
    exact .inl (by omega)
  · have hne : b.bytes.length + 1 ≠ pointerSize := by omega
    simp only [hne, false_or]

/-- A buffer with a NUL at its end is sent up to the first NUL of its text. -/
theorem socketWrite_append_nul (bytes : List UInt8) (writes : List Write) :
    socketWrite (some (bytes ++ [0])) writes = _socketWrite (C.chars bytes) writes := by
  rw [socketWrite, writeString, C.strlen_append_nul]
  dsimp only
  rw [List.take_append_of_le_length (C.chars_isPrefix _).length_le, C.take_length_chars]

section Complete

variable (s) (type) (path : List UInt8) (fd : ℕ) (now) (old : ℕ → UInt8) (b : File)

/-- What loading a complete file comes to: the two stores, the return value, and the buffer
that goes into the array. -/
theorem dfileNew_complete :
    (dfileNew s type path (.complete fd now old b)).2.stores = s.stores ++
      [⟨b.bytes.length + 1, 0, pointerSize⟩, ⟨b.bytes.length + 1, 0, b.bytes.length⟩] ∧
    (CountLost b → (dfileNew s type path (.complete fd now old b)).1 = -1) ∧
    (¬ CountLost b → (dfileNew s type path (.complete fd now old b)).1 = 0 ∧
      (dfileNew s type path (.complete fd now old b)).2.data type =
        some (b.bytes ++ [terminator old b])) := by
  have hfits := b.fits
  have hsize : C.sizeOf (b.bytes.length : ℤ) = b.bytes.length := C.sizeOf_natCast (by omega)
  have hwrap : (b.bytes.length + 1) % 2 ^ 64 = b.bytes.length + 1 := Nat.mod_eq_of_lt (by omega)
  have hcells : ((List.range (b.bytes.length + 1)).map old).length = b.bytes.length + 1 := by simp
  have hdata : C.store (C.clear ((List.range (b.bytes.length + 1)).map old) pointerSize) b.bytes =
      b.bytes ++ [terminator old b] := by
    rw [C.store_clear hcells, terminator]
    simp
  rw [dfileNew.eq_def]
  simp only [Kernel.complete, Bool.true_eq_false, if_false, hsize, hwrap, C.malloc,
    Option.map_some, dfileRead, Option.isSome_some, Option.getD_some, List.take_length, if_true,
    hdata, Banners.store, hcells, C.length_clear]
  by_cases hlost : C.sizeOf (C.intOf b.bytes.length) < b.bytes.length
  · rw [if_pos hlost]
    exact ⟨List.append_assoc _ _ _, fun _ => rfl, fun hnot => absurd hlost hnot⟩
  · rw [if_neg hlost]
    refine ⟨List.append_assoc _ _ _, fun h => absurd h hlost, fun _ => ⟨rfl, ?_⟩⟩
    simp [Banners.data]

/-- A banner is kept and sent as it stands in its file exactly if the file is no shorter than
a pointer without the NUL, and has this size or finds a NUL after it, or is not loaded. -/
theorem faithful_iff :
    Faithful s type b (dfileNew s type path (.complete fd now old b)) ↔
      pointerSize ≤ b.bytes.length + 1 ∧
        (b.bytes.length + 1 = pointerSize ∨ old b.bytes.length = 0 ∨ CountLost b) := by
  obtain ⟨hstores, hlost, hloaded⟩ := dfileNew_complete s type now path fd old b
  generalize dfileNew s type path (.complete fd now old b) = r at hstores hlost hloaded ⊢
  have hbounds : (∀ st ∈ r.2.stores.drop s.stores.length, st.InBounds) ↔
      pointerSize ≤ b.bytes.length + 1 := by
    rw [hstores, List.drop_left]
    simp [Store.InBounds]
  constructor
  · intro h
    have hle := hbounds.mp h.bounds
    refine ⟨hle, ?_⟩
    by_cases hcount : CountLost b
    · exact .inr (.inr hcount)
    · obtain ⟨hzero, hdata⟩ := hloaded hcount
      have hgiven := h.given hzero [] (by simp) 0
      rw [dfileGet_fst, Banners.calls, List.foldl_nil, hdata] at hgiven
      have hterm : terminator old b = 0 := by simpa using hgiven
      exact ((terminator_eq_zero_iff hle).mp hterm).imp_right .inl
  · rintro ⟨hle, hcond⟩
    have hdata : r.1 = 0 → r.2.data type = some (b.bytes ++ [0]) := by
      intro hzero
      have hcount : ¬ CountLost b := by
        intro hcount
        rw [hlost hcount] at hzero
        exact absurd hzero (by decide)
      have hterm : terminator old b = 0 := by
        rw [terminator_eq_zero_iff hle]
        rcases hcond with hsame | hold | hcount'
        · exact .inl hsame
        · exact .inr hold
        · exact absurd hcount' hcount
      rw [(hloaded hcount).2, hterm]
    refine ⟨hbounds.mpr hle, fun hzero calls hcalls now => ?_,
      fun hzero htype calls hcalls now heap writes => ?_⟩
    · rw [dfileGet_fst, data_calls hcalls, hdata hzero]
    · subst htype
      have hgiven : (dfileGet (r.2.calls calls) .issue now).1 = some (b.bytes ++ [0]) := by
        rw [dfileGet_fst, data_calls hcalls, hdata hzero]
      simp only [loginWelcome, hgiven, socketWrite_append_nul]

end Complete

/-- Nothing has been loaded. -/
def noBanners : Banners := ⟨fun _ => none, [], 0, 0, []⟩

/-- A file of eight bytes. -/
def welcomeFile : File := ⟨[87, 101, 108, 99, 111, 109, 101, 10], by decide⟩

/-- The file is kept without a NUL if the memory after it was not zero. -/
theorem welcomeFile_not_faithful :
    ¬ Faithful noBanners .issue welcomeFile
      (dfileNew noBanners .issue [] (.complete 3 0 (fun _ => 88) welcomeFile)) := by
  intro h
  have hzero : (dfileNew noBanners .issue [] (.complete 3 0 (fun _ => 88) welcomeFile)).1 = 0 := by
    decide
  have hgiven := h.given hzero [] (by simp) 0
  revert hgiven
  decide

end ThreeW3.Banner
