/-
# Delivery of whole messages

A message is delivered whole when the first write(2) that is not tried again takes all of
it. `socket_writef` also cuts its text at 1022 bytes and at a NUL.
-/

import ThreeW3.Output.Model

namespace ThreeW3.Output

open Lib

/-- The bytes of an object in memory. -/
structure Message where
  bytes : List UInt8
  fits : bytes.length < 2 ^ 63

/-- If the call returns anything but -1, the message has been delivered, once and in order. -/
def Whole (message : List UInt8) (r : Result) : Prop :=
  ∀ n wire writes, r = .returned n wire writes → n ≠ C.sizeMax → wire = message

/-- What the first write takes that is not tried again, unless it fails. -/
def firstTaken : List Write → Option ℕ
  | [] => none
  | .takes n :: _ => some n
  | .interrupted :: writes => firstTaken writes
  | .again :: writes => firstTaken writes
  | .ioError :: writes => firstTaken writes
  | .failed :: _ => none

variable {buf message : List UInt8} {writes : List Write}

/-- The first write that is not tried again decides. -/
theorem _socketWrite_eq (buf : List UInt8) (writes : List Write) :
    (firstTaken writes = none ∧ (_socketWrite buf writes = .blocked ∨
      ∃ rest, _socketWrite buf writes = .returned C.sizeMax [] rest)) ∨
    ∃ n rest, firstTaken writes = some n ∧
      _socketWrite buf writes = .returned (min n buf.length) (buf.take n) rest := by
  induction writes with
  | nil => exact .inl ⟨rfl, .inl rfl⟩
  | cons w writes ih =>
      cases w with
      | takes n => exact .inr ⟨n, writes, rfl, rfl⟩
      | interrupted => exact ih
      | again => exact ih
      | ioError => exact ih
      | failed => exact .inl ⟨rfl, .inr ⟨writes, rfl⟩⟩

theorem whole_blocked (message : List UInt8) : Whole message .blocked := nofun

theorem whole_failed (message : List UInt8) (writes : List Write) :
    Whole message (.returned C.sizeMax [] writes) := by
  rintro n wire rest hreturned hn
  obtain ⟨rfl, -, -⟩ := Result.returned.inj hreturned
  exact absurd rfl hn

theorem whole_returned {n : ℕ} {wire : List UInt8} (hn : n ≠ C.sizeMax) :
    Whole message (.returned n wire writes) ↔ wire = message := by
  constructor
  · exact fun h => h n wire writes rfl hn
  · rintro rfl n' wire' rest hreturned -
    exact (Result.returned.inj hreturned).2.1.symm

/-- A call of `_socket_write` delivers a message whole exactly if what it is given is the
message and the deciding write takes all of it. -/
theorem whole_socketWrite_iff (hfits : buf.length < 2 ^ 63) :
    Whole message (_socketWrite buf writes) ↔
      ∀ n ∈ firstTaken writes, buf.take n = message := by
  rcases _socketWrite_eq buf writes with ⟨hnone, hblocked | ⟨rest, hfailed⟩⟩ | ⟨n, rest, hsome, htaken⟩
  · simp [hnone, hblocked, whole_blocked]
  · simp [hnone, hfailed, whole_failed]
  · have hn : min n buf.length ≠ C.sizeMax := by
      rw [C.sizeMax]
      omega
    rw [htaken, whole_returned hn]
    simp [hsome]

/-- The same through an `int`, where a count may also come out as -1. -/
theorem whole_throughInt_iff :
    Whole message (_socketWrite buf writes).throughInt ↔
      ∀ n ∈ firstTaken writes,
        buf.take n = message ∨ min n buf.length % 2 ^ 32 = 2 ^ 32 - 1 := by
  rcases _socketWrite_eq buf writes with ⟨hnone, hblocked | ⟨rest, hfailed⟩⟩ | ⟨n, rest, hsome, htaken⟩
  · rw [hnone, hblocked]
    simp [Result.throughInt, whole_blocked]
  · have hminus : C.sizeOf (C.intOf C.sizeMax) = C.sizeMax := by decide
    rw [hnone, hfailed, Result.throughInt, hminus]
    simp [whole_failed]
  · rw [hsome, htaken, Result.throughInt]
    by_cases hminus : C.sizeOf (C.intOf (min n buf.length)) = C.sizeMax
    · have hmod := (C.sizeOf_intOf_eq_sizeMax_iff _).mp hminus
      simp only [Option.mem_some_iff, forall_eq', hmod, or_true, iff_true]
      rintro n' wire writes' hreturned hn'
      obtain ⟨rfl, -, -⟩ := Result.returned.inj hreturned
      exact absurd hminus hn'
    · have hmod := mt (C.sizeOf_intOf_eq_sizeMax_iff _).mpr hminus
      rw [whole_returned hminus]
      simp only [Option.mem_some_iff, forall_eq', or_iff_left hmod]

/-! ## What the callers hand over -/

theorem socketWrite_memory (s : C.CString) (rest : List UInt8) (writes : List Write) :
    socketWrite (some (s.memory rest)) writes = _socketWrite s.chars writes := by
  rw [socketWrite, writeString, s.strlen_memory]
  dsimp only
  rw [s.take_memory]

/-- A text that is printed into memory is written up to its first NUL. -/
theorem writeString_snprintf {cells text : List UInt8} {size : ℕ} (hpos : 0 < size)
    (hle : size ≤ cells.length) :
    writeString (C.snprintf cells size text) writes =
      _socketWrite (C.chars (text.take (size - 1))) writes := by
  obtain ⟨hlength, htake⟩ := C.strlen_snprintf hpos hle text
  rw [writeString, hlength]
  dsimp only
  rw [htake]

/-- The copy has room for the whole prompt. -/
theorem socketPrompt_memory (s : C.CString) (rest : List UInt8) (old : ℕ → UInt8)
    (writes : List Write) :
    socketPrompt (s.memory rest) (some old) writes = (_socketWrite s.chars writes).throughInt := by
  have hchars : C.chars (s.chars.take (s.chars.length + 2 - 1)) = s.chars := by
    rw [List.take_of_length_le (by omega), C.chars_eq_self s.no_nul]
  rw [socketPrompt, s.strlen_memory]
  dsimp only [C.malloc, Option.map_some]
  rw [s.take_memory, writeString_snprintf (by omega) (by simp), hchars]

/-- Of a formatted text 1022 bytes are kept. -/
theorem socketWritef_text (text : List UInt8) (old : ℕ → UInt8) (writes : List Write) :
    socketWritef text (some old) writes = _socketWrite (C.chars (text.take 1022)) writes := by
  rw [socketWritef]
  dsimp only [C.malloc, Option.map_some]
  have hle : 1023 ≤ (C.clear ((List.range 1024).map old) 1024).length := by
    rw [C.length_clear, List.length_map, List.length_range]
    omega
  rw [writeString_snprintf (by omega) hle]

theorem take_eq_self_iff {l : List UInt8} {n : ℕ} : l.take n = l ↔ l.length ≤ n := by
  constructor
  · intro h
    have hlength := congrArg List.length h
    rw [List.length_take] at hlength
    omega
  · exact List.take_of_length_le

/-- The text survives if it fits and has no NUL. -/
theorem take_chars_take_eq_iff {text : List UInt8} {n : ℕ} :
    (C.chars (text.take 1022)).take n = text ↔
      text.length ≤ 1022 ∧ 0 ∉ text ∧ text.length ≤ n := by
  constructor
  · intro h
    have hlength := congrArg List.length h
    have hlower := (C.chars_isPrefix (text.take 1022)).length_le
    rw [List.length_take] at hlength hlower
    refine ⟨by omega, fun hzero => ?_, by omega⟩
    rw [← h] at hzero
    exact C.zero_notMem_chars _ (List.mem_of_mem_take hzero)
  · rintro ⟨hfits, hzero, hn⟩
    rw [List.take_of_length_le hfits, C.chars_eq_self hzero, List.take_of_length_le hn]

/-- When messages are delivered whole: by `_socket_write` and `socket_write` exactly if the
first write that is not tried again takes all of it or fails; by `socket_prompt` also if
memory is short or the count looks like -1 in an `int`; by `socket_writef` only if the text
also fits into 1022 bytes and has no NUL. -/
theorem whole_iff (m : Message) (s : C.CString) (rest text : List UInt8)
    (heap : Option (ℕ → UInt8)) (writes : List Write) :
    (Whole m.bytes (_socketWrite m.bytes writes) ↔
      ∀ n ∈ firstTaken writes, m.bytes.length ≤ n) ∧
    (Whole s.chars (socketWrite (some (s.memory rest)) writes) ↔
      ∀ n ∈ firstTaken writes, s.chars.length ≤ n) ∧
    (Whole s.chars (socketPrompt (s.memory rest) heap writes) ↔
      heap = none ∨ ∀ n ∈ firstTaken writes, s.chars.length ≤ n ∨ n % 2 ^ 32 = 2 ^ 32 - 1) ∧
    (Whole text (socketWritef text heap writes) ↔
      heap = none ∨ ∀ n ∈ firstTaken writes, text.length ≤ 1022 ∧ 0 ∉ text ∧ text.length ≤ n) := by
  refine ⟨?_, ?_, ?_, ?_⟩
  · rw [whole_socketWrite_iff m.fits]
    simp only [take_eq_self_iff]
  · rw [socketWrite_memory, whole_socketWrite_iff s.fits]
    simp only [take_eq_self_iff]
  · cases heap with
    | none =>
        rw [socketPrompt, s.strlen_memory]
        simpa [C.malloc] using whole_failed s.chars writes
    | some old =>
        rw [socketPrompt_memory, whole_throughInt_iff]
        simp only [reduceCtorEq, false_or, take_eq_self_iff]
        refine forall₂_congr fun n _ => ?_
        omega
  · cases heap with
    | none => simpa [socketWritef, C.malloc] using whole_failed text writes
    | some old =>
        have hfits : (C.chars (text.take 1022)).length < 2 ^ 63 := by
          have hlower := (C.chars_isPrefix (text.take 1022)).length_le
          rw [List.length_take] at hlower
          omega
        rw [socketWritef_text, whole_socketWrite_iff hfits]
        simp only [reduceCtorEq, false_or, take_chars_take_eq_iff]

/-- The text "hi". -/
def hi : C.CString := ⟨[104, 105], by decide, by decide⟩

/-- A write that takes one byte of two: 1 is returned, and the other byte is lost. -/
theorem hi_not_whole : ¬ Whole hi.chars (socketWrite (some (hi.memory [])) [.takes 1]) := by
  intro h
  exact absurd (h 1 [104] [] (by decide) (by decide)) (by decide)

end ThreeW3.Output
