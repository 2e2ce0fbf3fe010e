/-
# Output to a session

`_socket_write` over the outcomes of write(2), and the three functions that call it. A
write that takes a part of the message is not continued. Heaps tell what malloc returns;
what vsnprintf makes of a format is given as a text.
-/

import ThreeW3.Lib.CMemory

namespace ThreeW3.Output

open Lib

/-- What one write(2) does: it takes so many bytes, or fewer if it is given fewer, or it
fails with EINTR, EAGAIN, EIO or another error. -/
inductive Write
  | takes (n : ℕ)
  | interrupted
  | again
  | ioError
  | failed
  deriving DecidableEq, Repr

/-- How a call ends: it returns a count, with the bytes that were taken and the outcomes
that are left; it waits in write(2); or it reads past the end of its memory. -/
inductive Result
  | returned (n : ℕ) (wire : List UInt8) (writes : List Write)
  | blocked
  | faulted
  deriving DecidableEq, Repr

/-- `_socket_write` of the bytes of a buffer. -/
def _socketWrite (buf : List UInt8) : List Write → Result
  | [] => .blocked
  | .takes n :: writes => .returned (min n buf.length) (buf.take n) writes
  | .interrupted :: writes => _socketWrite buf writes
  | .again :: writes => _socketWrite buf writes
  | .ioError :: writes => _socketWrite buf writes
  | .failed :: writes => .returned C.sizeMax [] writes

/-- `_socket_write(s, buf, strlen(buf))`. -/
def writeString (buf : List UInt8) (writes : List Write) : Result :=
  match C.strlen buf with
  | none => .faulted
  | some n => _socketWrite (buf.take n) writes

/-- `socket_write`, of a null pointer or of the memory at a pointer. -/
def socketWrite (buf : Option (List UInt8)) (writes : List Write) : Result :=
  match buf with
  | none => .returned C.sizeMax [] writes
  | some buf => writeString buf writes

/-- The count of a result as it comes out of an `int`. -/
def Result.throughInt : Result → Result
  | .returned n wire writes => .returned (C.sizeOf (C.intOf n)) wire writes
  | .blocked => .blocked
  | .faulted => .faulted

/-- `socket_prompt`. -/
def socketPrompt (buf : List UInt8) (heap : Option (ℕ → UInt8)) (writes : List Write) : Result :=
  match C.strlen buf with
  | none => .faulted
  | some n =>
    match C.malloc heap (n + 3) with
    | none => .returned C.sizeMax [] writes
    | some ptr => (writeString (C.snprintf ptr (n + 2) (buf.take n)) writes).throughInt

/-- `socket_writef`, where `text` is what the format and its arguments stand for. -/
def socketWritef (text : List UInt8) (heap : Option (ℕ → UInt8)) (writes : List Write) : Result :=
  match C.malloc heap 1024 with
  | none => .returned C.sizeMax [] writes
  | some ref => writeString (C.snprintf (C.clear ref 1024) 1023 text) writes

/-- One call after another. What both deliver comes in their order. -/
def Result.andThen (r : Result) (next : List Write → Result) : Result :=
  match r with
  | .returned _ wire writes =>
    match next writes with
    | .returned n wire' writes => .returned n (wire ++ wire') writes
    | .blocked => .blocked
    | .faulted => .faulted
  | .blocked => .blocked
  | .faulted => .faulted

end ThreeW3.Output
