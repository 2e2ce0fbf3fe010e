/-
# Strings and numbers in C memory

A piece of memory is the list of its bytes. A string in it ends at the first NUL, and
`strlen` of memory without one runs past its end. Numbers go from one integer type to
another modulo the width of the type.
-/

import Mathlib.Data.Int.ModEq
import Mathlib.Data.List.TakeWhile

namespace ThreeW3.Lib.C

/-! ## Conversions -/

/-- The conversion of a `size_t` to an `int` of 32 bits. -/
def intOf (n : ℕ) : ℤ := (n + 2 ^ 31) % 2 ^ 32 - 2 ^ 31

/-- The conversion of a signed number to a `size_t` of 64 bits. -/
def sizeOf (i : ℤ) : ℕ := (i % 2 ^ 64).toNat

/-- `(size_t) -1`. -/
def sizeMax : ℕ := 2 ^ 64 - 1

theorem sizeOf_natCast {n : ℕ} (hn : n < 2 ^ 64) : sizeOf n = n := by
  rw [sizeOf]
  omega

/-- A count that an `int` takes for -1. -/
theorem sizeOf_intOf_eq_sizeMax_iff (n : ℕ) :
    sizeOf (intOf n) = sizeMax ↔ n % 2 ^ 32 = 2 ^ 32 - 1 := by
  rw [sizeOf, intOf, sizeMax]
  omega

/-- A count that an `int` takes for a smaller one: of an `int` that is not negative the
upper half is gone, and a negative one becomes larger than any count. -/
theorem sizeOf_intOf_lt_iff {n : ℕ} (hn : n < 2 ^ 64) :
    sizeOf (intOf n) < n ↔ 2 ^ 32 ≤ n ∧ n % 2 ^ 32 < 2 ^ 31 := by
  rw [sizeOf, intOf]
  omega

theorem sizeOf_lt (i : ℤ) : sizeOf i < 2 ^ 64 := by
  rw [sizeOf]
  omega

/-! ## Strings -/

variable {cells text rest : List UInt8} {n : ℕ}

/-- The characters before the first NUL. -/
def chars (cells : List UInt8) : List UInt8 := cells.takeWhile (· ≠ 0)

/-- `strlen`, unless it runs past the memory. -/
def strlen (cells : List UInt8) : Option ℕ :=
  if 0 ∈ cells then some (chars cells).length else none

theorem zero_notMem_chars (cells : List UInt8) : 0 ∉ chars cells := by
  intro hmem
  simpa using List.mem_takeWhile_imp hmem

theorem chars_isPrefix (cells : List UInt8) : chars cells <+: cells := List.takeWhile_prefix _

theorem chars_eq_self (htext : 0 ∉ text) : chars text = text := by
  rw [chars, List.takeWhile_eq_self_iff]
  intro c hc
  simpa using fun hzero : c = 0 => htext (hzero ▸ hc)

theorem chars_append_nul (text rest : List UInt8) : chars (text ++ 0 :: rest) = chars text := by
  induction text with
  | nil => simp [chars]
  | cons c text ih =>
      rw [chars, chars, List.cons_append, List.takeWhile_cons, List.takeWhile_cons]
      split_ifs
      · exact congrArg _ ih
      · rfl

theorem strlen_append_nul (text rest : List UInt8) :
    strlen (text ++ 0 :: rest) = some (chars text).length := by
  rw [strlen, if_pos (by simp), chars_append_nul]

theorem take_length_chars (cells : List UInt8) : cells.take (chars cells).length = chars cells :=
  (List.prefix_iff_eq_take.mp (chars_isPrefix cells)).symm

/-- A string: characters without a NUL, in an object that a pointer can address. -/
structure CString where
  chars : List UInt8
  no_nul : 0 ∉ chars
  fits : chars.length < 2 ^ 63

/-- The memory at a string, with what comes after it. -/
def CString.memory (s : CString) (rest : List UInt8) : List UInt8 := s.chars ++ 0 :: rest

@[simp]
theorem CString.strlen_memory (s : CString) (rest : List UInt8) :
    strlen (s.memory rest) = some s.chars.length := by
  rw [memory, strlen_append_nul, chars_eq_self s.no_nul]

@[simp]
theorem CString.take_memory (s : CString) (rest : List UInt8) :
    (s.memory rest).take s.chars.length = s.chars :=
  List.take_left

/-! ## Stores -/

/-- What malloc returns when the memory holds these bytes before. -/
def malloc (heap : Option (ℕ → UInt8)) (size : ℕ) : Option (List UInt8) :=
  heap.map fun old => (List.range size).map old

/-- The memory after bytes are stored from its start on. Those past its end are not in it. -/
def store (cells bytes : List UInt8) : List UInt8 :=
  bytes.take cells.length ++ cells.drop bytes.length

/-- `memset(cells, '\0', n)`. -/
def clear (cells : List UInt8) (n : ℕ) : List UInt8 := store cells (List.replicate n 0)

/-- `snprintf(cells, n, ..)` of a text. -/
def snprintf (cells : List UInt8) (n : ℕ) (text : List UInt8) : List UInt8 :=
  if n = 0 then cells else store cells (text.take (n - 1) ++ [0])

@[simp]
theorem length_store (cells bytes : List UInt8) : (store cells bytes).length = cells.length := by
  rw [store, List.length_append, List.length_take, List.length_drop]
  omega

@[simp]
theorem length_clear (cells : List UInt8) (n : ℕ) : (clear cells n).length = cells.length :=
  length_store _ _

theorem store_of_le {bytes : List UInt8} (hle : bytes.length ≤ cells.length) :
    store cells bytes = bytes ++ cells.drop bytes.length := by
  rw [store, List.take_of_length_le hle]

theorem getElem_clear {i : ℕ} (hi : i < cells.length) (hi' : i < (clear cells n).length) :
    (clear cells n)[i] = if i < n then 0 else cells[i] := by
  simp only [clear, store, List.take_replicate, List.length_replicate, List.getElem_append]
  split_ifs with hlow hn hn
  · simp
  · omega
  · omega
  · simp only [List.getElem_drop]
    congr 1
    omega

/-- Memory that is cleared and then filled up to its last byte. -/
theorem store_clear {bytes : List UInt8} (hlength : cells.length = bytes.length + 1) (n : ℕ) :
    store (clear cells n) bytes = bytes ++ [if bytes.length < n then 0 else cells[bytes.length]] := by
  have hlast : bytes.length < (clear cells n).length := by
    rw [length_clear]
    omega
  rw [store_of_le hlast.le, List.drop_eq_getElem_cons hlast, getElem_clear (by omega) hlast,
    List.drop_eq_nil_of_le (by rw [length_clear]; omega)]

/-- A text that is printed into enough memory can be read back, cut at the size and at its
first NUL. -/
theorem strlen_snprintf (hpos : 0 < n) (hle : n ≤ cells.length) (text : List UInt8) :
    strlen (snprintf cells n text) = some (chars (text.take (n - 1))).length ∧
      (snprintf cells n text).take (chars (text.take (n - 1))).length = chars (text.take (n - 1)) := by
  have hlength : (text.take (n - 1) ++ [0]).length ≤ cells.length := by
    rw [List.length_append, List.length_take, List.length_singleton]
    omega
  rw [snprintf, if_neg hpos.ne', store_of_le hlength, List.append_assoc, List.singleton_append]
  refine ⟨strlen_append_nul _ _, ?_⟩
  rw [List.take_append_of_le_length (chars_isPrefix _).length_le, take_length_chars]

end ThreeW3.Lib.C
