import Mathlib.Tactic
import Rymos.Pfs.Fd
import Rymos.Sched.Table

/-!
# Starting a process

* `programPath`: the file of a program, in a buffer of 32 bytes.
* `nextArgToken`, `rawArgsToArgv`: the words of an argument string.
* `SpawnSys`: the process table with the names and arguments of the processes.
* `processSpawnWithArgv`, `prepareProcess`, `spawnPrepared`, `abiSpawn`, `abiSpawnArgv`, `runProgram`:
  from a name to a process. What memory and the image answer is an outcome of the call.
* `abiArgs`, `abiArgvCount`, `abiArgvGet`: what a process reads of its arguments.
* `SpawnAct`, `spawnStep`: the calls that start, end and collect processes.
-/

namespace Rymos

open ByteBuf

abbrev processNameMax : ℕ := 24
abbrev processArgsMax : ℕ := 64
abbrev processArgvCountMax : ℕ := 8
abbrev processArgvValueMax : ℕ := 64

/-! ## The path of a program -/

/-- `output[off..off + bytes.len()].copy_from_slice(bytes)`; `none` is a panic. -/
def copyInto {n : ℕ} (output : Buf n) (off : ℕ) (bytes : List UInt8) : Option (Buf n) :=
  if off + bytes.length ≤ n then some (output.put off bytes) else none

def programsPrefix : List UInt8 := ascii "programs/"

def elfSuffix : List UInt8 := ascii ".elf"

def endsWith (value suffix : List UInt8) : Bool := suffix.isSuffixOf value

/-- The buffer after the call and the length returned; `none` is a panic. -/
def programPath (name : List UInt8) (output : Buf 32) : Option (Buf 32 × ℕ) :=
  if name.contains slash then (copyInto output 0 name).map (·, name.length)
  else
    (copyInto output 0 programsPrefix).bind fun output =>
    (copyInto output programsPrefix.length name).bind fun output =>
    let len := programsPrefix.length + name.length
    if !endsWith name elfSuffix then
      (copyInto output len elfSuffix).map (·, len + elfSuffix.length)
    else some (output, len)

/-! ## Words -/

def isArgSpace (byte : UInt8) : Bool := byte == 32 || byte == 9 || byte == 10 || byte == 13

/-- The next word from `index` on, and the index after it. -/
def nextArgToken (args : List UInt8) (index : ℕ) : Option (List UInt8 × ℕ) :=
  let start := index + ((args.drop index).takeWhile isArgSpace).length
  if start ≥ args.length then none
  else
    let token := (args.drop start).takeWhile (!isArgSpace ·)
    some (token, start + token.length)

/-- The loop of `raw_args_to_argv`, with room for so many more words. -/
def rawArgsLoop (args : List UInt8) : ℕ → ℕ → List (List UInt8)
  | 0, _ => []
  | room + 1, index =>
    match nextArgToken args index with
    | none => []
    | some (token, next) => token :: rawArgsLoop args room next

def rawArgsToArgv (args : List UInt8) : List (List UInt8) := rawArgsLoop args processArgvCountMax 0

/-! ## Processes with arguments -/

/-- The bytes in use of `name`, `args` and the values of `argv`. -/
structure ProcArgs where
  name : List UInt8
  args : List UInt8
  argv : List (List UInt8)
deriving DecidableEq

def ProcArgs.empty : ProcArgs := ⟨[], [], []⟩

structure SpawnSys where
  table : Table
  args : ℕ → ProcArgs
  current : ℕ
  nextPid : ℕ
  bootfs : List UInt8 → Option (List UInt8)
  /-- `APP_CONSOLE` is set. -/
  console : Bool

namespace SpawnSys

def setTable (s : SpawnSys) (table : Table) : SpawnSys := { s with table := table }

def currentPid (s : SpawnSys) : ℕ := (s.table s.current).pid

end SpawnSys

/-- The slot taken, if there is one; each array keeps what fits. -/
def processSpawnWithArgv (s : SpawnSys) (name args : List UInt8) (argv : List (List UInt8))
    (parentPid : ℕ) : SpawnSys × Option ℕ :=
  let pid := s.nextPid
  let s := { s with nextPid := nextPidAfter pid }
  match spawnSlot s.table with
  | none => (s, none)
  | some index =>
    ({ s with
      table := Function.update s.table index (newProcess pid parentPid)
      args := Function.update s.args index
        { name := name.take processNameMax
          args := args.take processArgsMax
          argv := (argv.take processArgvCountMax).map (·.take processArgvValueMax) } },
      some index)

def processSpawn (s : SpawnSys) (name args : List UInt8) : SpawnSys × Option ℕ :=
  processSpawnWithArgv s name args (rawArgsToArgv args) s.currentPid

def processFailUnwaited (table : Table) (index : ℕ) : Table :=
  setWaited (processSetState table index .failed (-1)) index

/-- Where `prepare_process` gives up. -/
inductive PrepareFault where
  /-- `current_pml4_or_kernel` has no PML4. -/
  | parentPml4
  /-- `create_process_address_space` is out of pages. -/
  | addressSpace
  /-- `load_program_elf_isolated` refuses the image, or is out of pages. -/
  | image
  /-- `create_process_stack` is out of pages. -/
  | stack
deriving DecidableEq

/-- The outcome is the page of the child's PML4, or where the call gives up. -/
def prepareProcess (table : Table) (index : ℕ) : Except PrepareFault ℕ → Table × Bool
  | .error .parentPml4 => (processSetState table index .failed (-1), false)
  | .error .addressSpace => (processSetState table index .failed (-1), false)
  | .error .image => (processSetState table index .failed (-1), false)
  | .error .stack => (processSetState table index .failed (-1), false)
  | .ok childPml4 =>
    (processSetState (Function.update table index { table index with pml4Phys := childPml4 }) index
      .ready 0, true)

/-- The slot `spawn_prepared` takes; `argv` is `None` for a plain `spawn`. -/
def spawnSlotFor (s : SpawnSys) (name args : List UInt8) :
    Option (List (List UInt8)) → SpawnSys × Option ℕ
  | some argv => processSpawnWithArgv s name args argv s.currentPid
  | none => processSpawn s name args

def spawnPrepared (s : SpawnSys) (name args : List UInt8) (argv : Option (List (List UInt8)))
    (outcome : Except PrepareFault ℕ) : Option (SpawnSys × Reply ℕ) :=
  if s.current ≥ processCount then some (s, .error errInval)
  else
    (programPath name (Buf.zero 32)).bind fun (childPath, childPathLen) =>
    match s.bootfs (childPath.slice 0 childPathLen) with
    | none => some (s, .error errNoent)
    | some _ =>
      match spawnSlotFor s name args argv with
      | (s, none) => some (s, .error errNospc)
      | (s, some index) =>
        if !s.console then
          some (s.setTable (processSetState s.table index .failed (-1)), .error errInval)
        else
          match prepareProcess s.table index outcome with
          | (table, false) => some (s.setTable table, .error errIo)
          | (table, true) => some (s.setTable table, .done (table index).pid)

/-- A null pointer is refused like an empty name. -/
def abiSpawn (s : SpawnSys) (name args : List UInt8) (outcome : Except PrepareFault ℕ) :
    Option (SpawnSys × Reply ℕ) :=
  match checkedAppSlice name with
  | none => some (s, .error errInval)
  | some name =>
    if name.isEmpty || name.length > processNameMax then some (s, .error errInval)
    else
      match if args.length = 0 then some [] else checkedAppSlice args with
      | none => some (s, .error errInval)
      | some args =>
        if args.length > processArgsMax then some (s, .error errInval)
        else spawnPrepared s name args none outcome

/-- The loop of `abi_spawn_argv` over the values left, with `raw` joined so far. -/
def joinArgs : List (List UInt8) → List UInt8 → Except ℕ (List UInt8)
  | [], raw => .ok raw
  | arg :: rest, raw =>
    if arg.length > processArgvValueMax then .error errInval
    else
      match checkedAppSlice arg with
      | none => .error errInval
      | some arg =>
        let separator := if raw.length > 0 then 1 else 0
        if raw.length + separator + arg.length > processArgsMax then .error errNospc
        else joinArgs rest ((if separator = 1 then raw ++ [32] else raw) ++ arg)

def abiSpawnArgv (s : SpawnSys) (name : List UInt8) (argv : List (List UInt8))
    (outcome : Except PrepareFault ℕ) : Option (SpawnSys × Reply ℕ) :=
  match checkedAppSlice name with
  | none => some (s, .error errInval)
  | some name =>
    if name.isEmpty || name.length > processNameMax || argv.length > processArgvCountMax then
      some (s, .error errInval)
    else
      match joinArgs argv [] with
      | .error code => some (s, .error code)
      | .ok raw => spawnPrepared s name raw (some argv) outcome

/-- `run_program` until the process is there: its pid, or the line printed. -/
def runProgram (s : SpawnSys) (name args : List UInt8) (outcome : Except PrepareFault ℕ) :
    Option (SpawnSys × Except String ℕ) :=
  match processSpawn s name args with
  | (s, none) => some (s, .error "run: process table full")
  | (s, some index) =>
    (programPath name (Buf.zero 32)).bind fun (path, pathLen) =>
    match s.bootfs (path.slice 0 pathLen) with
    | none => some (s.setTable (processFailUnwaited s.table index), .error "run: program not found")
    | some _ =>
      let s := { s with console := true }
      match prepareProcess s.table index outcome with
      | (table, false) => some (s.setTable table, .error "run: failed to prepare process")
      | (table, true) => some (s.setTable table, .ok (table index).pid)

/-! ## Reading the arguments

`room` is the length of the caller's buffer, `none` a null pointer. A reply is the number returned and
the bytes copied. -/

def copyOut (value : List UInt8) : Option ℕ → List UInt8
  | none => []
  | some room => value.take room

def abiArgs (s : SpawnSys) (room : Option ℕ) : ℕ × List UInt8 :=
  let args := (s.args s.current).args
  match room with
  | none | some 0 => (args.length, [])
  | some room => (min room args.length, args.take room)

def abiArgvCount (s : SpawnSys) : ℕ :=
  if s.current ≥ processCount then 0 else 1 + (s.args s.current).argv.length

/-- `value` in `copy_argv_value`. -/
def argvValue (s : SpawnSys) (index : ℕ) : Option (List UInt8) :=
  if s.current ≥ processCount then none
  else if index = 0 then some (s.args s.current).name
  else (s.args s.current).argv[index - 1]?

def abiArgvGet (s : SpawnSys) (index : ℕ) (room : Option ℕ) : Reply (ℕ × List UInt8) :=
  match argvValue s index with
  | none => .error errNoent
  | some value => .done (value.length, copyOut value room)

/-! ## Runs -/

/-- A call of the running process or of the console, or a switch to another one. -/
inductive SpawnAct where
  | spawn (name args : List UInt8) (outcome : Except PrepareFault ℕ)
  | spawnArgv (name : List UInt8) (argv : List (List UInt8)) (outcome : Except PrepareFault ℕ)
  | run (name args : List UInt8) (outcome : Except PrepareFault ℕ)
  /-- `process_wait_by_pid` and `process_wait_any_child`, and the store after a `run`. -/
  | waitPid (pid : ℕ)
  | waitAny
  | reap (index : ℕ)
  | block (target : WaitTarget)
  | exit (code : ℤ)
  | preempt
  | switchTo (next : ℕ)

/-- `none` if the kernel panics. -/
def spawnStep (s : SpawnSys) : SpawnAct → Option SpawnSys
  | .spawn name args outcome => (abiSpawn s name args outcome).map Prod.fst
  | .spawnArgv name argv outcome => (abiSpawnArgv s name argv outcome).map Prod.fst
  | .run name args outcome => (runProgram s name args outcome).map Prod.fst
  | .waitPid pid =>
    match processWaitByPid s.table pid with
    | some index => some (s.setTable (setWaited s.table index))
    | none => some s
  | .waitAny =>
    match processWaitAnyChild s.table s.currentPid with
    | some index => some (s.setTable (setWaited s.table index))
    | none => some s
  | .reap index => some (s.setTable (setWaited s.table index))
  | .block target =>
    some (s.setTable (Function.update s.table s.current
      { s.table s.current with waitingFor := target, state := .blocked }))
  | .exit code =>
    some (s.setTable (wakeWaitersFor (processSetState s.table s.current .exited code) s.currentPid))
  | .preempt =>
    some (s.setTable (Function.update s.table s.current
      { s.table s.current with state := .ready }))
  | .switchTo next =>
    some { s with
      table := Function.update s.table next { s.table next with state := .running }
      current := next }

end Rymos
