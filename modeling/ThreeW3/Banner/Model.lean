/-
# Banners

The files that are kept in memory: `dfile_new` loads one, over the outcomes of the system
calls, and `dfile_get` gives out its buffer. `login_welcome` sends the buffer of
`DFILE_ISSUE` to a session. A buffer is the memory that malloc has returned; the stores
into buffers are kept with the size of the buffer.
-/

import Mathlib.Logic.Function.Basic
import ThreeW3.Input.Model
import ThreeW3.Output.Model

namespace ThreeW3.Banner

open Lib Output

/-- `dfile_type_t`, without `DFILE_END`. -/
inductive DfileType
  | issue
  | motd
  deriving DecidableEq, Repr

/-- `dfile_t`. The path is the text in its array. -/
structure Dfile where
  path : List UInt8
  data : List UInt8
  size : ℕ
  flags : ℕ
  accessed : ℕ
  reloaded : ℕ
  loaded : ℤ
  lastAccessed : ℤ
  lastReloaded : ℤ

/-- A store into a buffer of so many bytes. -/
structure Store where
  allocated : ℕ
  offset : ℕ
  length : ℕ
  deriving DecidableEq, Repr

abbrev Store.InBounds (st : Store) : Prop := st.offset + st.length ≤ st.allocated

/-- `dfile_array`, with what the process holds for it: open descriptors, records and
buffers, and the stores that have been made into buffers. -/
structure Banners where
  dfileArray : DfileType → Option Dfile
  opened : List ℕ
  records : ℕ
  buffers : ℕ
  stores : List Store

/-- What the system does while a file is loaded: whether malloc returns a record, the
descriptor that open(2) returns, the time, what lseek(2) to the end returns, the memory
that malloc returns for the buffer, and the bytes that read(2) delivers if it is asked for
so many. -/
structure Kernel where
  record : Bool
  fd : Option ℕ
  now : ℤ
  seekEnd : ℤ
  heap : Option (ℕ → UInt8)
  read : Option (List UInt8)

/-- `sizeof(new->data)`. -/
def pointerSize : ℕ := 8

/-- `(unsigned int) -1`. -/
def uintMax : ℕ := 2 ^ 32 - 1

def Banners.store (s : Banners) (buf : List UInt8) (length : ℕ) : Banners :=
  { s with stores := s.stores ++ [⟨buf.length, 0, length⟩] }

/-- What `dfile_new` does with the record and the buffer that it has got. -/
def dfileRead (s : Banners) (type : DfileType) (new : Dfile) (fd : ℕ) (k : Kernel) :
    ℤ × Banners :=
  let s := s.store new.data pointerSize
  let data := C.clear new.data pointerSize
  let bytes := (k.read.getD []).take new.size
  let len := if k.read.isSome then C.intOf bytes.length else -1
  let s := s.store data bytes.length
  let data := C.store data bytes
  if C.sizeOf len < new.size then
    -- The record is released, its buffer is not.
    (-1, { s with opened := s.opened.erase fd, records := s.records - 1 })
  else
    (0, { s with
      opened := s.opened.erase fd
      dfileArray := Function.update s.dfileArray type (some { new with data := data }) })

/-- `dfile_new`. -/
def dfileNew (s : Banners) (type : DfileType) (path : List UInt8) (k : Kernel) : ℤ × Banners :=
  if k.record = false then (-1, s)
  else
    let s := { s with records := s.records + 1 }
    match k.fd with
    | none => (-1, { s with records := s.records - 1 })
    | some fd =>
      let s := { s with opened := fd :: s.opened }
      let size := C.sizeOf k.seekEnd
      match C.malloc k.heap ((size + 1) % 2 ^ 64) with
      | none => (-1, { s with opened := s.opened.erase fd, records := s.records - 1 })
      | some data =>
        let new : Dfile :=
          { path := path.take (Input.bufsiz - 1)
            data := data
            size := size
            flags := 0
            accessed := uintMax
            reloaded := uintMax
            loaded := k.now
            lastAccessed := -1
            lastReloaded := -1 }
        dfileRead { s with buffers := s.buffers + 1 } type new fd k

/-- `dfile_get`: the buffer, or a null pointer. -/
def dfileGet (s : Banners) (type : DfileType) (now : ℤ) : Option (List UInt8) × Banners :=
  match s.dfileArray type with
  | none => (none, s)
  | some d =>
    let d := { d with accessed := (d.accessed + 1) % 2 ^ 32, lastAccessed := now }
    (some d.data, { s with dfileArray := Function.update s.dfileArray type (some d) })

/-- "Please enter your name: ", as it stands in memory. -/
def namePrompt : List UInt8 :=
  [80, 108, 101, 97, 115, 101, 32, 101, 110, 116, 101, 114, 32, 121, 111, 117, 114, 32, 110, 97,
    109, 101, 58, 32, 0]

/-- `login_welcome`: what the session gets. -/
def loginWelcome (s : Banners) (now : ℤ) (heap : Option (ℕ → UInt8)) (writes : List Write) :
    Output.Result × Banners :=
  let (buf, s) := dfileGet s .issue now
  ((socketWrite buf writes).andThen (socketPrompt namePrompt heap), s)

/-! ## Runs -/

/-- A call that loads a file or asks for one. -/
inductive Call
  | new (type : DfileType) (path : List UInt8) (k : Kernel)
  | get (type : DfileType) (now : ℤ)

def Banners.call (s : Banners) : Call → Banners
  | .new type path k => (dfileNew s type path k).2
  | .get type now => (dfileGet s type now).2

def Banners.calls (s : Banners) (cs : List Call) : Banners := cs.foldl Banners.call s

/-- The call loads a file of this type. -/
def Call.Loads (type : DfileType) : Call → Prop
  | .new t _ _ => t = type
  | .get _ _ => False

end ThreeW3.Banner
