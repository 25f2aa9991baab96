import Rollup.Action
import Rollup.Storage.Error

/-!
# Backends

Where a log is kept: a byte sequence that grows at its end and can be cut.  A backend is a state,
and each call a step over it that may fail.
-/

namespace Rollup

class Backend (β : Type) where
  /-- The number of bytes kept. -/
  size : Action β StorageError Nat
  /-- `len` bytes from `offset` on, all of which have to exist. -/
  read : (offset len : Nat) → Action β StorageError Bytes
  /-- Adds bytes at the end, and answers where they begin. -/
  append : Bytes → Action β StorageError Nat
  flush : Action β StorageError Unit
  /-- Makes what was written survive a crash. -/
  sync : Action β StorageError Unit
  /-- Cuts the content down to its first bytes. -/
  truncate : (newSize : Nat) → Action β StorageError Unit

/-! ### In memory -/

/-- Bytes in memory: no call fails but for its arguments. -/
structure Memory where
  bytes : Bytes
deriving DecidableEq, Repr

namespace Memory

def read (offset len : Nat) : Action Memory StorageError Bytes := do
  let content := (← get).bytes
  if offset + len ≤ content.length then return (content.drop offset).take len
  else throw (.readPastEnd offset len content.length)

def append (data : Bytes) : Action Memory StorageError Nat := do
  let content := (← get).bytes
  set (Memory.mk (content ++ data))
  return content.length

def truncate (newSize : Nat) : Action Memory StorageError Unit := do
  let content := (← get).bytes
  if content.length < newSize then throw (.io (.truncateBeyondEnd newSize content.length))
  else set (Memory.mk (content.take newSize))

instance : Backend Memory where
  size := return (← get).bytes.length
  read := read
  append := append
  flush := pure ()
  sync := pure ()
  truncate := truncate

end Memory

/-! ### In a file -/

/-- A file that is open for the log.  `size` is what the log knows to be there.  `stops` says what
becomes of the writes to come: the first `k` bytes of one with `some k` reach the file, and then it
fails. -/
structure LogFile where
  content : Bytes
  size : Nat
  stops : List (Option Nat)
deriving DecidableEq, Repr

namespace LogFile

/-- Opens a file with this content. -/
def ofContent (content : Bytes) : LogFile := ⟨content, content.length, []⟩

def read (offset len : Nat) : Action LogFile StorageError Bytes := do
  let file ← get
  if file.size < offset + len then throw (.readPastEnd offset len file.size)
  else return (file.content.drop offset).take len

/-- Writes at the end of the file; only a write that came to its end counts. -/
def append (data : Bytes) : Action LogFile StorageError Nat := do
  let file ← get
  if data.isEmpty then return file.size
  match file.stops.head?.join with
  | none =>
    set (LogFile.mk (file.content ++ data) (file.size + data.length) file.stops.tail)
    return file.size
  | some k =>
    set (LogFile.mk (file.content ++ data.take k) file.size file.stops.tail)
    throw (.io .writeStopped)

def truncate (newSize : Nat) : Action LogFile StorageError Unit := do
  let file ← get
  if file.size < newSize then throw (.io (.truncateBeyondEnd newSize file.size))
  else set (LogFile.mk (file.content.take newSize) newSize file.stops)

instance : Backend LogFile where
  size := return (← get).size
  read := read
  append := append
  flush := pure ()
  sync := pure ()
  truncate := truncate

end LogFile

/-! ### With failing calls -/

/-- A backend some of whose coming calls fail and do nothing: `failures` says how many of each. -/
structure Faulty (β : Type) where
  inner : β
  failures : BackendCall → Nat

namespace Faulty

variable {β : Type}

/-- Nothing is going to fail. -/
def sound (inner : β) : Faulty β := ⟨inner, fun _ => 0⟩

/-- Lets the next `n` calls of one kind fail. -/
def fail (b : Faulty β) (call : BackendCall) (n : Nat) : Faulty β :=
  { b with failures := fun c => if c = call then n else b.failures c }

/-- Carries out a call, unless it is to fail. -/
def guarded {α : Type} (call : BackendCall) (step : Action β StorageError α) :
    Action (Faulty β) StorageError α := do
  let b ← get
  match b.failures call with
  | 0 => step.within (·.inner) (fun inner b => { b with inner }) id
  | n + 1 =>
    set (b.fail call n)
    throw (.io (.injected call))

instance [Backend β] : Backend (Faulty β) where
  size := guarded .size Backend.size
  read offset len := guarded .read (Backend.read offset len)
  append data := guarded .append (Backend.append data)
  flush := guarded .flush Backend.flush
  sync := guarded .sync Backend.sync
  truncate newSize := guarded .truncate (Backend.truncate newSize)

end Faulty

end Rollup
