/-
# Loading a banner

`dfile_new` over every outcome of its system calls. What fails before the read is undone.
A read that fails is not noticed, since -1 is a large number next to the size, and a read
that ends early is answered with -1 while the buffer stays allocated.
-/

import ThreeW3.Banner.Model

namespace ThreeW3.Banner

open Lib

/-- Nothing is left of a load: the array is as it was, the descriptor is closed, and record
and buffer are released. -/
structure Undone (s t : Banners) : Prop where
  dfileArray_eq : t.dfileArray = s.dfileArray
  opened_eq : t.opened = s.opened
  records_eq : t.records = s.records
  buffers_eq : t.buffers = s.buffers

namespace Kernel

/-- `new->size`. -/
def size (k : Kernel) : ℕ := C.sizeOf k.seekEnd

/-- What malloc returns for the buffer. -/
def buffer (k : Kernel) : Option (List UInt8) := C.malloc k.heap ((k.size + 1) % 2 ^ 64)

/-- The load comes to read(2). -/
def Reads (k : Kernel) : Prop := k.record = true ∧ k.fd.isSome = true ∧ k.buffer.isSome = true

/-- read(2) delivers as many bytes as the file has. -/
def ReadsAll (k : Kernel) : Prop := ∃ bytes ∈ k.read, k.size ≤ bytes.length

/-- `len`. -/
def count (k : Kernel) : ℤ :=
  if k.read.isSome then C.intOf ((k.read.getD []).take k.size).length else -1

end Kernel

/-- `dfile_new` has loaded all of the file, or returns -1 and has left nothing behind. -/
def AllOrNothing (s : Banners) (k : Kernel) (r : ℤ × Banners) : Prop :=
  (r.1 = 0 ∧ k.ReadsAll) ∨ (r.1 = -1 ∧ Undone s r.2)

variable {s : Banners} {type : DfileType} {path : List UInt8} {k : Kernel}

/-- The count of a complete read. -/
theorem Kernel.ReadsAll.count_eq (h : k.ReadsAll) : k.count = C.intOf k.size := by
  obtain ⟨bytes, hread, hle⟩ := h
  have hread : k.read = some bytes := hread
  rw [Kernel.count, hread, Option.isSome_some, if_pos rfl, Option.getD_some, List.length_take,
    min_eq_left hle]

/-- A load that does not come to read(2) is undone. -/
theorem dfileNew_of_not_reads (h : ¬ k.Reads) :
    (dfileNew s type path k).1 = -1 ∧ Undone s (dfileNew s type path k).2 := by
  rw [dfileNew.eq_def]
  by_cases hrecord : k.record = false
  · rw [if_pos hrecord]
    exact ⟨rfl, rfl, rfl, rfl, rfl⟩
  · rw [if_neg hrecord]
    have hrecord : k.record = true := by simpa using hrecord
    dsimp only
    cases hfd : k.fd with
    | none => exact ⟨rfl, rfl, rfl, rfl, rfl⟩
    | some fd =>
        dsimp only
        cases hbuffer : C.malloc k.heap ((C.sizeOf k.seekEnd + 1) % 2 ^ 64) with
        | none => exact ⟨rfl, rfl, by simp, rfl, rfl⟩
        | some data =>
            refine absurd ⟨hrecord, by rw [hfd]; rfl, ?_⟩ h
            rw [Kernel.buffer, Kernel.size, hbuffer]
            rfl

/-- From the read on, the comparison of the count with the size decides. Either way the
buffer stays. -/
theorem dfileRead_spec {new : Dfile} (hsize : new.size = k.size) (fd : ℕ) :
    (dfileRead s type new fd k).1 = (if C.sizeOf k.count < k.size then -1 else 0) ∧
      (dfileRead s type new fd k).2.buffers = s.buffers := by
  have hlen : (if k.read.isSome then C.intOf ((k.read.getD []).take new.size).length else -1 : ℤ) =
      k.count := by rw [hsize, Kernel.count]
  simp only [dfileRead, hlen]
  rw [hsize]
  split_ifs
  · exact ⟨rfl, rfl⟩
  · exact ⟨rfl, rfl⟩

/-- A load that comes to read(2) has got a buffer. -/
theorem dfileNew_of_reads (s : Banners) (type : DfileType) (path : List UInt8) (h : k.Reads) :
    (dfileNew s type path k).1 = (if C.sizeOf k.count < k.size then -1 else 0) ∧
      (dfileNew s type path k).2.buffers = s.buffers + 1 := by
  obtain ⟨hrecord, hfd, hbuffer⟩ := h
  obtain ⟨fd, hfd⟩ := Option.isSome_iff_exists.mp hfd
  obtain ⟨data, hbuffer⟩ := Option.isSome_iff_exists.mp hbuffer
  rw [Kernel.buffer, Kernel.size] at hbuffer
  rw [dfileNew.eq_def]
  simp only [hrecord, hfd, hbuffer, Bool.true_eq_false, if_false]
  apply dfileRead_spec
  rfl

/-- The size loses its upper half as an `int`. -/
def CutShort (size : ℕ) : Prop := 2 ^ 32 ≤ size ∧ size % 2 ^ 32 < 2 ^ 31

/-- A load is all or nothing exactly if it fails before the read, or reads all of a file
whose size is not cut short as an `int`. -/
theorem allOrNothing_iff (s : Banners) (type : DfileType) (path : List UInt8) (k : Kernel) :
    AllOrNothing s k (dfileNew s type path k) ↔ (k.Reads → k.ReadsAll ∧ ¬ CutShort k.size) := by
  have hcut : C.sizeOf (C.intOf k.size) < k.size ↔ CutShort k.size :=
    C.sizeOf_intOf_lt_iff (C.sizeOf_lt _)
  by_cases hreads : k.Reads
  · obtain ⟨hfst, hbuffers⟩ := dfileNew_of_reads s type path hreads
    simp only [hreads, forall_const]
    constructor
    · rintro (⟨hzero, hall⟩ | ⟨-, hundone⟩)
      · refine ⟨hall, fun hlost => ?_⟩
        rw [← hcut, ← hall.count_eq] at hlost
        rw [hfst, if_pos hlost] at hzero
        exact absurd hzero (by decide)
      · -- the buffer is never released
        rw [hundone.buffers_eq] at hbuffers
        exact absurd hbuffers (by omega)
    · rintro ⟨hall, hwhole⟩
      rw [← hcut, ← hall.count_eq] at hwhole
      exact .inl ⟨hfst.trans (if_neg hwhole), hall⟩
  · simp only [hreads, IsEmpty.forall_iff, iff_true]
    exact .inr (dfileNew_of_not_reads hreads)

/-- A file of eight bytes that read(2) fails to read. -/
def unreadable : Kernel := ⟨true, some 3, 0, 8, some fun _ => 0, none⟩

/-- A file of eight bytes of which read(2) delivers two. -/
def truncated : Kernel := ⟨true, some 3, 0, 8, some fun _ => 0, some [72, 105]⟩

/-- No banner loaded, no descriptor open. -/
def unloaded : Banners := ⟨fun _ => none, [], 0, 0, []⟩

/-- The first is taken for loaded, and the buffer for the second is not released. -/
theorem failedReads_not_allOrNothing :
    (dfileNew unloaded .issue [] unreadable).1 = 0 ∧
      ¬ AllOrNothing unloaded unreadable (dfileNew unloaded .issue [] unreadable) ∧
      ¬ AllOrNothing unloaded truncated (dfileNew unloaded .issue [] truncated) := by
  refine ⟨by decide, ?_, ?_⟩
  · rintro (⟨-, bytes, hread, -⟩ | ⟨hminus, -⟩)
    · cases hread
    · exact absurd hminus (by decide)
  · rintro (⟨hzero, -⟩ | ⟨-, hundone⟩)
    · exact absurd hzero (by decide)
    · exact absurd hundone.buffers_eq (by decide)

end ThreeW3.Banner
