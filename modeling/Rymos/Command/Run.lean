import Mathlib.Tactic
import Rymos.Command.Caller

/-!
# `Command::output` and `Command::status`

Both redirect, change directory and environment, spawn and wait, and undo what they did. The calls up
to the place where one is left are in `outputBody` and `statusBody`; `Stop` is that place with what is
in scope there, and `leave` what is undone from it.

* `Command`, `Course`: the builder, and what the program does not decide: refused calls, the child,
  the clock.
* `applyEnvOverrides`, `restoreEnv`, `restoreCwd`, `restoreStdio`, `closeMany`, `readAllAvailable`.
* `enter`, `launch`, `outputBody`, `statusBody`, `leave`, **`Verb.run`**.
-/

namespace Rymos

open ByteBuf Attempt

structure CommandEnv where
  key : List UInt8
  value : Option (List UInt8)

structure EnvRestore where
  key : List UInt8
  existed : Bool
  value : List UInt8

structure Command where
  name : List UInt8
  args : List UInt8
  argv : List (List UInt8)
  stdin : List UInt8
  cwd : Option (List UInt8)
  env : List CommandEnv
  stdoutFile : Option (List UInt8)
  stderrFile : Option (List UInt8)
  error : ℕ

structure ProcessStatus where
  state : ℕ
  exitCode : ℤ

/-- The calls made on the way to the child. -/
inductive CallSite
  | cwd
  | chdir
  | env (index : ℕ)
  | stdinPipe
  | stdoutPipe
  | stderrPipe
  | stdinDup
  | stdoutDup
  | stderrDup
  | stdoutFile
  | stderrFile

/-- What a run depends on besides the command and the caller: the calls that are refused although the
caller's state allows them, with their errors; the answers to `spawn`, `spawn_argv` and `wait`; what
the child, and whatever else runs before `wait` returns, does to the shared state; the clock. -/
structure Course where
  refused : CallSite → Option ℕ
  spawn : List UInt8 → List UInt8 → Except ℤ ℕ
  spawnArgv : List UInt8 → List (List UInt8) → Except ℤ ℕ
  child : Sys → Sys
  wait : ℕ → Option ProcessStatus
  clock : CallSite → ℕ → ℕ

/-! ## The environment -/

def restoreVar (proc : EnvProc) (restore : EnvRestore) : EnvProc :=
  if restore.existed then (envSet restore.key restore.value proc).1
  else (envRemove restore.key proc).1

def restoreEnv (restores : List EnvRestore) (proc : EnvProc) : EnvProc :=
  restores.reverse.foldl restoreVar proc

/-- One turn of `apply_env_overrides`: what restores the variable, and whether it was changed. -/
def applyOverride (refused : Option ℕ) (change : CommandEnv) (proc : EnvProc) :
    EnvProc × EnvRestore × Option Unit :=
  let (proc, current) := envGet change.key 128 proc
  let restore := ⟨change.key, current.isSome, current.getD []⟩
  let (proc, ok) :=
    match refused with
    | some code => EnvProc.told (proc.fail code)
    | none =>
      match change.value with
      | some value => envSet change.key value proc
      | none => envRemove change.key proc
  (proc, restore, ok)

/-- The loop, from override number `index` on. -/
def applyEnvOverrides (refused : ℕ → Option ℕ) :
    ℕ → List CommandEnv → List EnvRestore → EnvProc → EnvProc × Except ℤ (List EnvRestore)
  | _, [], restores, proc => (proc, .ok restores)
  | index, change :: overrides, restores, proc =>
    match applyOverride (refused index) change proc with
    | (proc, _, none) => (restoreEnv restores proc, .error proc.lastError)
    | (proc, restore, some ()) =>
      applyEnvOverrides refused (index + 1) overrides (restores ++ [restore]) proc

/-! ## To the child -/

/-- What is in scope once the environment is set. -/
structure Entered where
  savedStdio : ℕ → ℤ
  savedCwd : List UInt8
  envRestores : List EnvRestore

/-- Where a run is left: the call that failed, or the end. `fds` are the pipe ends it closes, `files`
the files it drops, `reads` the ends it reads first. -/
inductive Stop
  | entry (code : ℤ)
  | env (savedCwd : List UInt8) (code : ℤ)
  | pipe (entered : Entered) (fds : List ℤ) (code : ℤ)
  | redirect (entered : Entered) (fds files : List ℤ) (code : ℤ)
  | spawn (entered : Entered) (fds files : List ℤ) (code : ℤ)
  | wait (entered : Entered) (fds files : List ℤ)
  | done (entered : Entered) (reads fds files : List ℤ) (pid : ℕ) (status : ProcessStatus)

def spawnCommand (course : Course) (cmd : Command) : Except ℤ ℕ :=
  if cmd.argv.isEmpty then course.spawn cmd.name cmd.args else course.spawnArgv cmd.name cmd.argv

section Run

variable (process : ℕ) (course : Course) (cmd : Command)

/-- The part the two functions have in common: `error`, `save_stdio`, the directory, the environment. -/
def enter : Attempt Caller Stop Entered := do
  if cmd.error ≠ 0 then stop (.entry cmd.error)
  let caller ← read
  let savedCwd ←
    match cmd.cwd with
    | some _ => orStop (fun c => some (c.cwdIn 64 (course.refused .cwd))) fun c => .entry c.lastError
    | none => pure []
  match cmd.cwd with
  | some nextCwd =>
    orStop (Caller.chdir nextCwd (course.refused .chdir)) fun c => .entry c.lastError
  | none => pure ()
  let applied ← fun c =>
    let r := applyEnvOverrides (fun index => course.refused (.env index)) 0 cmd.env [] c.proc
    some ({ c with proc := r.1 }, .ok r.2)
  match applied with
  | .error code => stop (.env savedCwd code)
  | .ok envRestores => pure ⟨caller.io.stdFds process, savedCwd, envRestores⟩

/-- `spawn_command` and `wait`. -/
def launch (entered : Entered) (reads fds files : List ℤ) : Attempt Caller Stop Empty := do
  match spawnCommand course cmd with
  | .error code => stop (.spawn entered fds files code)
  | .ok pid =>
    call fun c => some (c.setSys (course.child c.io.sys))
    match course.wait pid with
    | none => stop (.wait entered fds files)
    | some status => stop (.done entered reads fds files pid status)

def outputBody : Attempt Caller Stop Empty := do
  let entered ← enter process course cmd
  let (stdinRead, stdinWrite) ←
    orStop (fun c => some (c.pipe (course.refused .stdinPipe))) fun c => .pipe entered [] c.lastError
  let (stdoutRead, stdoutWrite) ←
    orStop (fun c => some (c.pipe (course.refused .stdoutPipe))) fun c =>
      .pipe entered [stdinRead, stdinWrite] c.lastError
  let (stderrRead, stderrWrite) ←
    orStop (fun c => some (c.pipe (course.refused .stderrPipe))) fun c =>
      .pipe entered [stdinRead, stdinWrite, stdoutRead, stdoutWrite] c.lastError
  let fds := [stdinRead, stdinWrite, stdoutRead, stdoutWrite, stderrRead, stderrWrite]
  call (Caller.fdWrite process stdinWrite cmd.stdin (course.clock .stdinPipe))
  orStop (fun c => some (c.dup2 process stdinRead stdinFd (course.refused .stdinDup))) fun c =>
    .redirect entered fds [] c.lastError
  orStop (fun c => some (c.dup2 process stdoutWrite stdoutFd (course.refused .stdoutDup))) fun c =>
    .redirect entered fds [] c.lastError
  orStop (fun c => some (c.dup2 process stderrWrite stderrFd (course.refused .stderrDup))) fun c =>
    .redirect entered fds [] c.lastError
  launch course cmd entered [stdoutRead, stderrRead] fds []

/-- `stdin_fds`. -/
def openStdin (entered : Entered) : Attempt Caller Stop (List ℤ) := do
  if cmd.stdin.isEmpty then pure []
  else
    let (stdinRead, stdinWrite) ←
      orStop (fun c => some (c.pipe (course.refused .stdinPipe))) fun c => .pipe entered [] c.lastError
    call (Caller.fdWrite process stdinWrite cmd.stdin (course.clock .stdinPipe))
    orStop (fun c => some (c.dup2 process stdinRead stdinFd (course.refused .stdinDup))) fun c =>
      .redirect entered [stdinRead, stdinWrite] [] c.lastError
    pure [stdinRead, stdinWrite]

/-- `stdout_target` and `stderr_target`: the file, in a list, and `which` redirected to it. `files` are
those opened before. -/
def openTarget (path : Option (List UInt8)) (which : ℤ) (create redirect : CallSite)
    (entered : Entered) (fds files : List ℤ) : Attempt Caller Stop (List ℤ) := do
  match path with
  | none => pure []
  | some path =>
    let file ← orStop (fun c => some (c.createFile path (course.refused create) (course.clock create)))
      fun c => .redirect entered fds files c.lastError
    orStop (fun c => some (c.dup2 process file which (course.refused redirect))) fun c =>
      .redirect entered fds (file :: files) c.lastError
    pure [file]

def statusBody : Attempt Caller Stop Empty := do
  let entered ← enter process course cmd
  let stdinFds ← openStdin process course cmd entered
  let stdoutTarget ←
    openTarget process course cmd.stdoutFile stdoutFd .stdoutFile .stdoutDup entered stdinFds []
  let stderrTarget ←
    openTarget process course cmd.stderrFile stderrFd .stderrFile .stderrDup entered stdinFds
      stdoutTarget
  launch course cmd entered [] stdinFds (stdoutTarget ++ stderrTarget)

/-! ## Back from the child -/

def restoreCwd (savedCwd : List UInt8) (c : Caller) : Option Caller :=
  if cmd.cwd.isSome && !savedCwd.isEmpty then (c.chdir savedCwd none).map Prod.fst else some c

def restoreCommandContext (entered : Entered) (c : Caller) : Option Caller :=
  restoreCwd cmd entered.savedCwd { c with proc := restoreEnv entered.envRestores c.proc }

def restoreStdio (saved : ℕ → ℤ) (c : Caller) : Caller :=
  let c := (c.dup2 process (saved 0) stdinFd none).1
  let c := (c.dup2 process (saved 1) stdoutFd none).1
  (c.dup2 process (saved 2) stderrFd none).1

def closeMany (fds : List ℤ) (c : Caller) : Caller :=
  fds.foldl (fun c fd => if fd ≥ 0 then c.closeFd process fd else c) c

/-- The loop, for at most `fuel` turns. -/
def readAllAvailable (fd : ℤ) : ℕ → List UInt8 → Caller → Option (Caller × List UInt8)
  | 0, _, _ => none
  | fuel + 1, output, c =>
    match c.fdRead process fd 128 with
    | (c, none) => some (c, output)
    | (c, some data) =>
      if data.isEmpty then some (c, output)
      else if data.length < 128 then some (c, output ++ data)
      else readAllAvailable fd fuel (output ++ data) c

def readEach (fuel : ℕ) : List ℤ → Caller → Option (Caller × List (List UInt8))
  | [], c => some (c, [])
  | fd :: fds, c =>
    (readAllAvailable process fd fuel [] c).bind fun (c, output) =>
    (readEach fuel fds c).map fun (c, outputs) => (c, output :: outputs)

/-- `CommandOutput` and `CommandStatus`: the output read is that of `stdout` and of `stderr`. -/
structure Finished where
  pid : ℕ
  status : ProcessStatus
  outputs : List (List UInt8)

/-- What each exit undoes, and what it returns. -/
def leave (fuel : ℕ) (c : Caller) : Stop → Option (Caller × Except ℤ Finished)
  | .entry code => some (c, .error code)
  | .env savedCwd code => (restoreCwd cmd savedCwd c).map fun c => (c, .error code)
  | .pipe entered fds code =>
    (restoreCommandContext cmd entered (closeMany process fds c)).map fun c => (c, .error code)
  | .redirect entered fds files code =>
    (restoreCommandContext cmd entered
        (closeMany process fds (restoreStdio process entered.savedStdio c))).map fun c =>
      (closeMany process files c, .error code)
  | .spawn entered fds files code =>
    (restoreCommandContext cmd entered (restoreStdio process entered.savedStdio c)).map fun c =>
      (closeMany process files (closeMany process fds c), .error code)
  | .wait entered fds files =>
    (restoreCommandContext cmd entered (restoreStdio process entered.savedStdio c)).map fun c =>
      (closeMany process files (closeMany process fds c), .error errNoent)
  | .done entered reads fds files pid status =>
    (restoreCommandContext cmd entered (restoreStdio process entered.savedStdio c)).bind fun c =>
    (readEach process fuel reads c).map fun (c, outputs) =>
      (closeMany process files (closeMany process fds c), .ok ⟨pid, status, outputs⟩)

end Run

/-- The two ways to run a command. -/
inductive Verb
  | output
  | status

def Verb.body (verb : Verb) : ℕ → Course → Command → Attempt Caller Stop Empty :=
  match verb with
  | .output => outputBody
  | .status => statusBody

/-- The calls up to the place where the run is left. -/
def attempt (verb : Verb) (process : ℕ) (course : Course) (cmd : Command) (c : Caller) :
    Option (Caller × Stop) :=
  (verb.body process course cmd c).map fun (c, r) =>
    (c, match r with
      | .ok never => nomatch never
      | .error stop => stop)

/-- `run_command_output` and `run_command_status`. -/
def Verb.run (verb : Verb) (process : ℕ) (course : Course) (cmd : Command) (fuel : ℕ)
    (c : Caller) : Option (Caller × Except ℤ Finished) :=
  (attempt verb process course cmd c).bind fun (c, stop) => leave process cmd fuel c stop

end Rymos
