import Mathlib.Tactic
import Rymos.Base.Runs
import Rymos.Pfs.Fd

/-!
# Pipes and standard descriptors

* `Io`: the descriptor table and the pipes, with the redirections of the processes.
* `abiPipe`, `dup2`, `readFd`, `writeFd`, `closeFd`, `spawn`: the calls of a process that know about
  them; `readFd` and its like resolve a standard descriptor first.
* `IoAct`, **`ioStep`**: one call of one process.
-/

namespace Rymos

open ByteBuf

abbrev stdinFd : ℤ := 0
abbrev stdoutFd : ℤ := 1
abbrev stderrFd : ℤ := 2
abbrev appPipeCount : ℕ := 12

/-- The descriptors and pipes all processes share, and `std_fds` of each process. -/
structure Io where
  sys : Sys
  stdFds : ℕ → ℕ → ℤ

def Io.setSys (io : Io) (sys : Sys) : Io := { io with sys := sys }

def Io.redirect (io : Io) (process : ℕ) (fds : ℕ → ℤ) : Io :=
  { io with stdFds := Function.update io.stdFds process fds }

/-- The descriptors of `Process::empty()`. -/
def emptyStdFds (which : ℕ) : ℤ := which

def isStdFd (fd : ℤ) : Bool := stdinFd ≤ fd && fd ≤ stderrFd

def appResolveFd (stdFds : ℕ → ℤ) (fd : ℤ) : ℤ := if isStdFd fd then stdFds fd.toNat else fd

def appFdOpen (sys : Sys) (fd : ℤ) : Bool :=
  isStdFd fd ||
    match appFdIndex fd with
    | none => false
    | some index => (sys.fds index).isOpen

/-! ## Pipes -/

def freePipe (sys : Sys) : Option ℕ :=
  (List.range appPipeCount).find? fun index => !(sys.pipes index).used

/-- The next free slot of the descriptor table after `slot`. -/
def freeFdAfter (sys : Sys) (slot : ℕ) : Option ℕ :=
  (List.range appFdCount).find? fun index => slot < index && !(sys.fds index).isOpen

def newPipe : AppPipe :=
  { used := true, readOpen := true, writeOpen := true, buffer := Buf.zero _, readOffset := 0, len := 0 }

def pipeFd (kind : AppFdKind) (flags : UInt32) (pipe : ℕ) : AppFd :=
  { isOpen := true, kind := kind, flags := flags, data := [], len := 0, offset := 0, pfsIndex := pipe }

def abiPipe (sys : Sys) : Sys × Reply (ℤ × ℤ) :=
  match freePipe sys with
  | none => (sys, .error errNospc)
  | some pipe =>
    match freeFd sys with
    | none => (sys, .error errNospc)
    | some readSlot =>
      match freeFdAfter sys readSlot with
      | none => (sys, .error errNospc)
      | some writeSlot =>
        (((sys.setPipe pipe newPipe).setFd readSlot (pipeFd .pipeRead fdRead pipe)).setFd writeSlot
          (pipeFd .pipeWrite fdWrite pipe), .done (readSlot + appFdBase, writeSlot + appFdBase))

/-! ## Calls of a process -/

section Calls

variable (io : Io) (process : ℕ)

/-- `line` is what the console would type in. -/
def readFd (fd : ℤ) (bufferLen : ℕ) (line : List UInt8) : Io × Reply (List UInt8) :=
  let fd := appResolveFd (io.stdFds process) fd
  if fd < 0 then (io, .refused)
  else if fd = stdinFd then (io, .done (line.take bufferLen))
  else
    let r := abiRead io.sys fd bufferLen
    (io.setSys r.1, r.2)

def writeFd (fd : ℤ) (data : List UInt8) (t : ℕ → ℕ) : Option (Io × Reply ℕ) :=
  let fd := appResolveFd (io.stdFds process) fd
  if fd < 0 then some (io, .refused)
  else if fd = stdoutFd ∨ fd = stderrFd then some (io, .done data.length)
  else (abiWriteFd io.sys fd data t).map fun r => (io.setSys r.1, r.2)

def closeFd (fd : ℤ) : Io × Reply ℕ :=
  if isStdFd fd then
    (io.redirect process (Function.update (io.stdFds process) fd.toNat fd), .done 0)
  else
    let r := abiClose io.sys fd
    (io.setSys r.1, r.2)

def dup2 (oldFd newFd : ℤ) : Io × Reply ℤ :=
  if !isStdFd newFd then (io, .error errInval)
  else if oldFd = newFd then
    (io.redirect process (Function.update (io.stdFds process) newFd.toNat newFd), .done newFd)
  else if !appFdOpen io.sys oldFd then (io, .error errInval)
  else (io.redirect process (Function.update (io.stdFds process) newFd.toNat oldFd), .done newFd)

/-- `spawn_prepared`: the child starts with the redirections of its parent. -/
def spawn (child : ℕ) : Io := io.redirect child (io.stdFds process)

end Calls

/-! ## Runs -/

/-- A call of `process`, its end, or another answer of the drive. -/
inductive IoAct where
  | open (process : ℕ) (cwd path : List UInt8) (flags : UInt32) (t : ℕ → ℕ)
  | pipe (process : ℕ)
  | read (process : ℕ) (fd : ℤ) (bufferLen : ℕ) (line : List UInt8)
  | write (process : ℕ) (fd : ℤ) (data : List UInt8) (t : ℕ → ℕ)
  | seek (process : ℕ) (fd : ℤ) (offset : UInt64)
  | dup2 (process : ℕ) (oldFd newFd : ℤ)
  | close (process : ℕ) (fd : ℤ)
  | spawn (process child : ℕ)
  | exit (process : ℕ)
  | fault (readOk writeOk : ℕ → Bool)

/-- One call; `none` if the kernel panics. -/
def ioStep (io : Io) : IoAct → Option Io
  | .open _ cwd path flags t => some (io.setSys (abiOpen io.sys cwd path flags t).1)
  | .pipe _ => some (io.setSys (abiPipe io.sys).1)
  | .read process fd bufferLen line => some (readFd io process fd bufferLen line).1
  | .write process fd data t => (writeFd io process fd data t).map Prod.fst
  | .seek _ fd offset => some (io.setSys (abiSeek io.sys fd offset).1)
  | .dup2 process oldFd newFd => some (dup2 io process oldFd newFd).1
  | .close process fd => some (closeFd io process fd).1
  | .spawn process child => some (spawn io process child)
  | .exit _ => some io
  | .fault readOk writeOk =>
    some (io.setSys (io.sys.setDisk { io.sys.disk with readOk := readOk, writeOk := writeOk }))

/-- No descriptor is open and no pipe in use; `Process::empty()` everywhere. -/
structure IoBoot (io : Io) : Prop where
  fds : ∀ i, io.sys.fds i = .empty
  pipes : ∀ i, io.sys.pipes i = .empty
  stdFds : ∀ p, io.stdFds p = emptyStdFds

end Rymos
