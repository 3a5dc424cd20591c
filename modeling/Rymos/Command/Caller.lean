import Mathlib.Tactic
import Rymos.Base.Attempt
import Rymos.Env.Overlay
import Rymos.Io.Std

/-!
# What a program sees of the kernel

* `Caller`: the descriptors, pipes and disk all programs share, and the redirections, the working
  directory and the environment of the calling process.
* `abiChdir`: the kernel's call. `chdir`, `cwd`, `pipe`, `dup2`, `createFile`, `closeFd`, `fdWrite`,
  `fdRead`, `envGet`, `envSet`, `envRemove`: the functions of `rymos-user`. `none` is `None` or `false`.
* A call that can be refused for a reason outside this state takes the error it is refused with.
-/

namespace Rymos

open ByteBuf

abbrev appCwdMax : ℕ := 64

abbrev errNotdir : ℕ := 20

structure Caller where
  io : Io
  cwd : List UInt8
  proc : EnvProc

namespace Caller

def setSys (c : Caller) (sys : Sys) : Caller := { c with io := c.io.setSys sys }

def setCwd (c : Caller) (cwd : List UInt8) : Caller := { c with cwd := cwd }

def lastError (c : Caller) : ℕ := c.proc.lastError

/-- `last_error` after a reply, and what the program is told. -/
def answer {α : Type} (c : Caller) : Reply α → Caller × Option α
  | .done value => ({ c with proc := { c.proc with lastError := 0 } }, some value)
  | .error code => ({ c with proc := { c.proc with lastError := code } }, none)
  | .refused => (c, none)

end Caller

/-! ## The kernel -/

/-- The directory has room for `APP_CWD_MAX` bytes; a longer name is a panic. -/
def abiChdir (c : Caller) (path : List UInt8) : Option (Caller × Reply Unit) :=
  match checkedAppSlice path with
  | none => some (c, .error errInval)
  | some path =>
    if path == [slash] then some (c.setCwd [slash], .done ())
    else if path == pfsPrefix || path == pfsPrefix ++ [slash] then
      some (c.setCwd pfsPrefix, .done ())
    else
      match pfsResolvePath c.cwd path with
      | none => some (c, .error errInval)
      | some name =>
        match readHeaderSilent c.io.sys.disk with
        | none => some (c, .error errIo)
        | some header =>
          match pfsFindEntry header name with
          | none => some (c, .error errNoent)
          | some index =>
            if !pfsEntryIsDir header index then some (c, .error errNotdir)
            else if 4 + name.length > appCwdMax then none
            else some (c.setCwd (pfsPrefix ++ name), .done ())

/-! ## The library -/

namespace Caller

/-- `cwd(&mut buffer)` with a buffer of `room` bytes. -/
def cwdIn (room : ℕ) (refused : Option ℕ) (c : Caller) : Caller × Option (List UInt8) :=
  match refused with
  | some code => c.answer (.error code)
  | none => c.answer (.done (c.cwd.take room))

def chdir (path : List UInt8) (refused : Option ℕ) (c : Caller) : Option (Caller × Option Unit) :=
  match refused with
  | some code => some (c.answer (.error code))
  | none => (abiChdir c path).map fun r => r.1.answer r.2

def pipe (refused : Option ℕ) (c : Caller) : Caller × Option (ℤ × ℤ) :=
  match refused with
  | some code => c.answer (.error code)
  | none =>
    let r := abiPipe c.io.sys
    (c.setSys r.1).answer r.2

def dup2 (process : ℕ) (oldFd newFd : ℤ) (refused : Option ℕ) (c : Caller) :
    Caller × Option Unit :=
  match refused with
  | some code => c.answer (.error code)
  | none =>
    let r := Rymos.dup2 c.io process oldFd newFd
    let (c, reply) := ({ c with io := r.1 } : Caller).answer r.2
    (c, reply.bind fun fd => if fd == newFd then some () else none)

/-- `File::create(path)`: the descriptor of the file. -/
def createFile (path : List UInt8) (refused : Option ℕ) (t : ℕ → ℕ) (c : Caller) :
    Caller × Option ℤ :=
  match refused with
  | some code => c.answer (.error code)
  | none =>
    let r := abiOpen c.io.sys c.cwd path (fdRead ||| fdWrite ||| fdCreate ||| fdTruncate) t
    let (c, reply) := (c.setSys r.1).answer r.2
    (c, reply.bind fun fd => if fd < 0 then none else some fd)

def closeFd (process : ℕ) (c : Caller) (fd : ℤ) : Caller :=
  { c with io := (Rymos.closeFd c.io process fd).1 }

def fdWrite (process : ℕ) (fd : ℤ) (bytes : List UInt8) (t : ℕ → ℕ) (c : Caller) :
    Option Caller :=
  (writeFd c.io process fd bytes t).map fun r => { c with io := r.1 }

/-- `fd_read(fd, &mut buffer)` with a buffer of `room` bytes, for a descriptor that is not the
console. -/
def fdRead (process : ℕ) (fd : ℤ) (room : ℕ) (c : Caller) : Caller × Option (List UInt8) :=
  let r := readFd c.io process fd room []
  ({ c with io := r.1 },
    match r.2 with
    | .done bytes => some bytes
    | _ => none)

end Caller

/-- What the program is told of a reply. -/
def EnvProc.told {α : Type} (r : EnvProc × Reply α) : EnvProc × Option α :=
  (r.1,
    match r.2 with
    | .done value => some value
    | _ => none)

/-- `env_get(key, &mut buffer)` with a buffer of `room` bytes. -/
def envGet (key : List UInt8) (room : ℕ) (proc : EnvProc) : EnvProc × Option (List UInt8) :=
  let r := EnvProc.told (abiEnvGet proc key (some room))
  (r.1, r.2.map fun got => got.2.take (min got.1 room))

def envSet (key value : List UInt8) (proc : EnvProc) : EnvProc × Option Unit :=
  EnvProc.told (abiEnvSet proc key value)

def envRemove (key : List UInt8) (proc : EnvProc) : EnvProc × Option Unit :=
  EnvProc.told (abiEnvRemove proc key)

end Rymos
