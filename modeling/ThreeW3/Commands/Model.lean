/-
# The table of commands

`3w3_command.c` and the call of `hash_find` in `process_command`: records of commands, made
by `command_push` and never freed, and `command_hash`, which stores for each name the
address of its record.
-/

import ThreeW3.Hash.Refinement
import ThreeW3.Input.Login

namespace ThreeW3.Commands

open ThreeW3.Pool ThreeW3.Hash

variable {R C : Type}

/-- `command_t`, with the function that it names in `C`. -/
structure Command (C : Type) where
  key : Address
  command : C
  level : BitVec 64
  flags : BitVec 64
  deriving DecidableEq

/-- `command_hash`, and the records that malloc(3) has given to `command_push`: the data of an
entry are the number of its record. -/
structure Registry (R C : Type) where
  commandHash : HashTable R ℕ
  records : List (Command C)

/-- What the system gives to a call of `command_push`: whether it gets its record, and what
`hash_replace` gets. -/
structure Grant where
  malloc : Bool
  hash : Alloc

/-- `key` and `strlen(key)`, given what can be read from `key` on. -/
def textArg (key : Address) (memory : List UInt8) : KeyArg := ⟨key, memory, strlen memory⟩

section Calls

variable [FloatOps R] {L : Layout} (G : Geometry L)

/-- `command_push`, with its return value. -/
def commandPush (s : Registry R C) (key : Address) (memory : List UInt8) (command : C)
    (level flags : BitVec 64) (g : Grant) : Option (Registry R C × ℤ) :=
  if !g.malloc then some (s, -1)
  else do
    let k ← (textArg key memory).resolve
    let (ht, old) ← hashReplace G s.commandHash k s.records.length g.hash
    some (⟨ht, s.records ++ [⟨key, command, level, flags⟩]⟩, old.isNone.toInt)

/-- The string literals of `command_init`. -/
inductive Literal
  | who
  | twho
  | quit
  | exit
  deriving DecidableEq

def Literal.text : Literal → List UInt8
  | who => [119, 104, 111]
  | twho => [116, 119, 104, 111]
  | quit => [113, 117, 105, 116]
  | exit => [101, 120, 105, 116]

/-- `command_init`, where the string literals are at these addresses. -/
def commandInit (s : Registry R Input.Command) (key : Literal → Address) (g : Literal → Grant) :
    Option (Registry R Input.Command × ℤ) := do
  let (s, n₀) ← commandPush G s (key .who) (Literal.who.text ++ [0]) .who 0 0 (g .who)
  let (s, n₁) ← commandPush G s (key .twho) (Literal.twho.text ++ [0]) .twho 0 0 (g .twho)
  let (s, n₂) ← commandPush G s (key .quit) (Literal.quit.text ++ [0]) .quit 0 0 (g .quit)
  let (s, n₃) ← commandPush G s (key .exit) (Literal.exit.text ++ [0]) .quit 0 0 (g .exit)
  some (s, 0 + n₀ + n₁ + n₂ + n₃)

end Calls

/-- `hash_find(command_hash, input, length, &command)`: the record that `command` points to,
if there is one. -/
def findCommand (s : Registry R C) (input : KeyArg) : Option (Registry R C × Option (Command C)) := do
  let k ← input.resolve
  let (ht, found) ← hashFind s.commandHash k
  match found with
  | none => some (⟨ht, s.records⟩, none)
  | some n => do
      let c ← s.records[n]?
      some (⟨ht, s.records⟩, some c)

/-- The command handler that `process_command` calls. -/
def processCommand (s : Registry R C) (input : KeyArg) :
    Option (Registry R C × Option (Command C)) :=
  if input.ks ≤ 0 then some (s, none) else findCommand s input

end ThreeW3.Commands
