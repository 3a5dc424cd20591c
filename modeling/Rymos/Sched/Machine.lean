import Mathlib.Tactic
import Rymos.Base.Runs
import Rymos.Mem.Paging
import Rymos.Sched.Table

/-!
# The scheduler, statement by statement

* `Pc`: where the code of a slot stands, with the locals it needs later. `Thread`: its saved context.
* `Stmt`, `State.run`: what a statement does to the state. A section of the source inside
  `without_interrupts` is one statement.
* `advance`: the next statement of the running code and where it then stands.
* `maybePreempt`, `finishIrq`: the timer tick, and the end of its interrupt once the code it has
  preempted is resumed.
* **`step`**: one tick, or one statement of the code that runs.

The code of slot `i` runs while `current = i`; slot `processCount` is the console. Page tables are
kept by the page of their PML4: `image` is what the image window holds under each.
-/

namespace Rymos

/-! ## Programs -/

/-- A program header; `bytes` is the part of the file it names. -/
structure Segment where
  isLoad : Bool
  paddr : ℕ
  memsz : ℕ
  bytes : List UInt8
deriving DecidableEq

/-- `headerOk` says that the checks before the first segment pass. -/
structure Elf where
  headerOk : Bool
  segments : List Segment
deriving DecidableEq

def Segment.skipped (segment : Segment) : Bool := !segment.isLoad || segment.memsz = 0

/-- The checks `load_program_elf_isolated` makes on a segment. -/
def Segment.ok (segment : Segment) : Bool :=
  segment.bytes.length ≤ segment.memsz &&
    (appLoadMin ≤ segment.paddr && segment.paddr + segment.memsz ≤ appLoadMax)

/-- The bytes it writes, in order: zeros first, then those of the file. -/
def Segment.stores (segment : Segment) : List (ℕ × UInt8) :=
  (List.range segment.memsz).map (fun k => (segment.paddr + k, 0)) ++
    segment.bytes.zipIdx.map fun b => (segment.paddr + b.2, b.1)

/-! ## Code -/

/-- The locals of `prepare_process`. -/
structure Loader where
  index : ℕ
  pid : ℕ
  parentPml4 : ℕ
  childPml4 : ℕ
deriving DecidableEq

/-- A wait: `abi_wait`, `abi_wait_any` of a parent, that of `run_program`, or the `wait` command of the
console, which does not block. -/
inductive Waiting where
  | pid (pid : ℕ)
  | anyChild (parentPid : ℕ)
  | run (index pid : ℕ)
  | poll (pid : Option ℕ)
deriving DecidableEq

/-- The loop that gives the CPU away: that of a wait, or that of `exit_and_yield`. -/
inductive Yield where
  | wait (w : Waiting)
  | gone
deriving DecidableEq

inductive Pc where
  /-- The zeroed context of `Process::empty()`. -/
  | dead
  /-- `process_trampoline`. -/
  | start
  /-- A program between two calls, or the prompt of the console. -/
  | user
  -- `run_program`, `prepare_process`
  | lookup (index : ℕ) (elf : Elf)
  | prepare (index : ℕ) (elf : Elf)
  | enter (l : Loader) (elf : Elf)
  | load (l : Loader) (stores : List (ℕ × UInt8)) (segments : List Segment)
  | leave (l : Loader) (ok : Bool)
  | stack (l : Loader)
  | discard (l : Loader)
  | install (l : Loader)
  | ready (index : ℕ)
  | readyCode (index : ℕ)
  | started (index : ℕ)
  | fail (index : ℕ) (reap : Bool)
  | failCode (index : ℕ) (reap : Bool)
  | reap (index : ℕ)
  -- `wait_for_pid_blocking`, `wait_for_any_child_blocking`, `process_wait`; the scan of `check` has
  -- found the slot that `mark` marks and whose status `read` reads
  | check (w : Waiting)
  | mark (w : Waiting) (index : ℕ)
  | read (w : Waiting) (index : ℕ)
  | find (w : Waiting)
  | target (w : Waiting)
  | block (w : Waiting)
  -- `run_scheduler_step`, `switch_to`, `reclaim_pending_stacks`
  | pick (y : Yield)
  | switch (y : Yield) (next : ℕ)
  | drain (y : Yield) (slot : ℕ)
  | unmap (y : Yield) (slot pid : ℕ)
  -- the end of `process_trampoline`
  | mappings (code : ℤ)
  | tables (code : ℤ)
  | image (code : ℤ)
  | pml4 (code : ℤ)
  | cr3 (code : ℤ)
  | clear (code : ℤ)
  | queue (code : ℤ)
  | message (code : ℤ)
  | exited (code : ℤ)
deriving DecidableEq

/-- A saved context; `irq` says that it was preempted by a tick. `pid` and `pml4Phys` are the locals
of `process_trampoline`. -/
structure Thread where
  pc : Pc
  irq : Bool
  pid : ℕ
  pml4Phys : ℕ
deriving DecidableEq

def Thread.at (pc : Pc) : Thread := { pc := pc, irq := false, pid := 0, pml4Phys := 0 }

structure State where
  table : Table
  current : ℕ
  nextPid : ℕ
  thread : ℕ → Thread
  cr3 : ℕ
  kernelPml4 : ℕ
  /-- The pages the allocator has handed out. -/
  held : Finset ℕ
  /-- The pids whose kernel stack is mapped. -/
  mapped : Finset ℕ
  pending : List (Option ℕ)
  image : ℕ → ℕ → UInt8

namespace State

variable (s : State)

/-- The context that runs. -/
def here : Thread := s.thread s.current

def setThread (i : ℕ) (thread : Thread) : State :=
  { s with thread := Function.update s.thread i thread }

/-- The running code stands at `pc`. -/
def goto (pc : Pc) : State := s.setThread s.current { s.here with pc := pc }

def setTable (table : Table) : State := { s with table := table }

/-- A real process runs, not the console. -/
def inProcess : Prop := s.current < processCount

instance : Decidable s.inProcess := inferInstanceAs (Decidable (_ < _))

def currentPid : ℕ := (s.table s.current).pid

def currentPml4OrKernel : ℕ :=
  if s.inProcess ∧ (s.table s.current).pml4Phys ≠ 0 then (s.table s.current).pml4Phys
  else s.kernelPml4

/-- The CR3 `switch_to` loads for a slot. -/
def targetPml4 (i : ℕ) : ℕ :=
  if (s.table i).pml4Phys ≠ 0 then (s.table i).pml4Phys else s.kernelPml4

def switchTo (next : ℕ) : State :=
  { s with
    table := if next < processCount then
        Function.update s.table next { s.table next with state := .running } else s.table
    current := next
    cr3 := s.targetPml4 next }

end State

/-- `queue_stack_reclaim`: the first free slot, or nowhere. -/
def queueStackReclaim : List (Option ℕ) → ℕ → List (Option ℕ)
  | [], _ => []
  | none :: slots, pid => some pid :: slots
  | some p :: slots, pid => some p :: queueStackReclaim slots pid

inductive Stmt where
  | skip
  | locals
  | claim (slot : Option ℕ)
  | setState (index : ℕ) (state : ProcessState)
  | setCode (index : ℕ) (code : ℤ)
  | setWaited (index : ℕ)
  | alloc (page : ℕ)
  | free (page : ℕ)
  | writeCr3 (pml4 : ℕ)
  | store (addr : ℕ) (value : UInt8)
  | mapStack (pid : ℕ)
  | unmapStack (pid : ℕ)
  | install (l : Loader)
  | clearPml4
  | queueStack (pid : ℕ)
  | take (slot : ℕ)
  | waitTarget (target : WaitTarget)
  | block
  | exit (code : ℤ)
  | switchTo (next : ℕ)
deriving DecidableEq

/-- What a statement of the running code does. -/
def State.run (s : State) : Stmt → State
  | .skip => s
  | .locals =>
    s.setThread s.current
      { s.here with pid := s.currentPid, pml4Phys := (s.table s.current).pml4Phys }
  | .claim none => { s with nextPid := nextPidAfter s.nextPid }
  | .claim (some c) =>
    { s.setThread c (.at .dead) with
      nextPid := nextPidAfter s.nextPid
      table := Function.update s.table c (newProcess s.nextPid s.currentPid) }
  | .setState index state =>
    s.setTable (Function.update s.table index { s.table index with state := state })
  | .setCode index code =>
    s.setTable (Function.update s.table index { s.table index with exitCode := code })
  | .setWaited index => s.setTable (setWaited s.table index)
  -- a zeroed page, with the kernel's entries outside the image window
  | .alloc page =>
    { s with held := insert page s.held, image := Function.update s.image page fun _ => 0 }
  | .free page => { s with held := s.held.erase page }
  | .writeCr3 pml4 => { s with cr3 := pml4 }
  | .store addr value =>
    { s with image := Function.update s.image s.cr3 (Function.update (s.image s.cr3) addr value) }
  | .mapStack pid => { s with mapped := insert pid s.mapped }
  | .unmapStack pid => { s with mapped := s.mapped.erase pid }
  | .install l =>
    { s.setThread l.index (.at .start) with
      table := Function.update s.table l.index { s.table l.index with pml4Phys := l.childPml4 } }
  | .clearPml4 =>
    s.setTable (Function.update s.table s.current { s.table s.current with pml4Phys := 0 })
  | .queueStack pid => { s with pending := queueStackReclaim s.pending pid }
  | .take slot => { s with pending := s.pending.set slot none }
  -- `block_current_on` leaves the console alone
  | .waitTarget target =>
    if s.inProcess then
      s.setTable (Function.update s.table s.current
        { s.table s.current with waitingFor := target })
    else s
  | .block =>
    if s.inProcess then
      s.setTable (Function.update s.table s.current { s.table s.current with state := .blocked })
    else s
  -- `process_set_state` and `wake_waiters_for`: a tick between them finds the process not `Running`
  | .exit code =>
    s.setTable (wakeWaitersFor (processSetState s.table s.current .exited code) s.currentPid)
  | .switchTo next => s.switchTo next

/-! ## Control flow -/

/-- The slot whose status the call takes, by `process_wait_by_pid` or `process_wait_any_child`. -/
def Waiting.collects (table : Table) : Waiting → Option ℕ
  | .pid p => processWaitByPid table p
  | .anyChild parentPid => processWaitAnyChild table parentPid
  | .run _ p => processWaitByPid table p
  | .poll (some p) => processWaitByPid table p
  | .poll none => processWaitAnyChild table 0

/-- The check before the call blocks, by `find_process_index_by_pid` or `has_live_child`. -/
def Waiting.worthIt (table : Table) : Waiting → Bool
  | .pid p => (findProcessIndexByPid table p).isSome
  | .anyChild parentPid => hasLiveChild table parentPid
  | .run _ p => (findProcessIndexByPid table p).isSome
  | .poll _ => false

def Waiting.target : Waiting → WaitTarget
  | .pid p => .pid p
  | .anyChild _ => .anyChild
  | .run _ p => .pid p
  | .poll _ => .none

/-- Where the code stands when the call has returned. -/
def Waiting.after : Waiting → Pc
  | .run index _ => .reap index
  | _ => .user

/-- Where the code stands when the scan has found nothing. -/
def Waiting.missed : Waiting → Pc
  | .poll _ => .user
  | w => .find w

/-- Where a loop goes on when its `switch_to` has returned. -/
def Yield.again : Yield → Pc
  | .wait w => .check w
  | .gone => .pick .gone

/-- A tick, or what the running code does next: its next statement, that statement without a page (or
a file) left for it, with page `page` from the allocator; a program's own store or call; the `wait`
command of the console, which does not block. -/
inductive Action where
  | tick
  | next
  | fail
  | page (page : ℕ)
  | store (addr : ℕ) (value : UInt8)
  | spawn (elf : Elf)
  | wait (pid : ℕ)
  | waitAny
  | exit (code : ℤ)
  | poll (pid : Option ℕ)
deriving DecidableEq

/-- Where a spawn goes on: `spawn_prepared` of a program, or `run_program`. -/
def afterClaim (s : State) (elf : Elf) : Option ℕ → Pc
  | none => .user
  | some c => if s.inProcess then .prepare c elf else .lookup c elf

/-- The next statement of code that stands at the given place, and where it then stands. -/
def advance (s : State) : Pc → Action → Option (Stmt × Pc)
  | .start, .next => some (.locals, .user)
  | .user, .store addr value => if s.inProcess then some (.store addr value, .user) else none
  | .user, .spawn elf => some (.claim (spawnSlot s.table), afterClaim s elf (spawnSlot s.table))
  | .user, .wait pid => if s.inProcess then some (.skip, .check (.pid pid)) else none
  | .user, .waitAny => if s.inProcess then some (.skip, .check (.anyChild s.currentPid)) else none
  | .user, .exit code => if s.inProcess then some (.skip, .mappings code) else none
  | .user, .poll pid => if s.inProcess then none else some (.skip, .check (.poll pid))
  -- `run_program` before `prepare_process`; without the file, `process_fail_unwaited`
  | .lookup c elf, .next => some (.skip, .prepare c elf)
  | .lookup c _, .fail => some (.skip, .fail c true)
  -- `prepare_process`
  | .prepare c elf, .page page =>
    if page ∉ s.held ∧ page ≠ 0 then
      some (.alloc page, .enter
        { index := c, pid := (s.table c).pid, parentPml4 := s.currentPml4OrKernel,
          childPml4 := page } elf)
    else none
  | .prepare c _, .fail => some (.skip, .fail c false)
  | .enter l elf, .next =>
    some (.writeCr3 l.childPml4, if elf.headerOk then .load l [] elf.segments else .leave l false)
  | .load l ((addr, value) :: stores) segments, .next =>
    some (.store addr value, .load l stores segments)
  | .load l [] (segment :: segments), .next =>
    if segment.skipped then some (.skip, .load l [] segments)
    else if segment.ok then some (.skip, .load l segment.stores segments)
    else some (.skip, .leave l false)
  | .load l [] (segment :: _), .fail =>
    if !segment.skipped && segment.ok then some (.skip, .leave l false) else none
  | .load l [] [], .next => some (.skip, .leave l true)
  | .leave l ok, .next => some (.writeCr3 l.parentPml4, if ok then .stack l else .discard l)
  | .stack l, .next => some (.mapStack l.pid, .install l)
  | .stack l, .fail => some (.skip, .discard l)
  | .discard l, .next => some (.free l.childPml4, .fail l.index false)
  | .install l, .next => some (.install l, .ready l.index)
  | .ready c, .next => some (.setState c .ready, .readyCode c)
  | .readyCode c, .next => some (.setCode c 0, if s.inProcess then .user else .started c)
  | .started c, .next => some (.skip, .check (.run c (s.table c).pid))
  | .fail c reap, .next => some (.setState c .failed, .failCode c reap)
  | .failCode c reap, .next => some (.setCode c (-1), if reap then .reap c else .user)
  | .reap c, .next => some (.setWaited c, .user)
  -- the waits
  | .check w, .next =>
    match w.collects s.table with
    | some index => some (.skip, .mark w index)
    | none => some (.skip, w.missed)
  | .mark w index, .next => some (.setWaited index, .read w index)
  | .read w _, .next => some (.skip, w.after)
  | .find w, .next => some (.skip, if w.worthIt s.table then .target w else w.after)
  | .target w, .next => some (.waitTarget w.target, .block w)
  | .block w, .next => some (.block, .pick (.wait w))
  -- `run_scheduler_step`
  | .pick y, .next => some (.skip, .switch y ((pickNextReady s.table).getD processCount))
  | .switch y next, .next => some (.switchTo next, .drain y 0)
  | .drain y slot, .next =>
    if slot < processCount then
      match s.pending.getD slot none with
      | some pid => some (.take slot, .unmap y slot pid)
      | none => some (.skip, .drain y (slot + 1))
    else some (.skip, y.again)
  | .unmap y slot pid, .next => some (.unmapStack pid, .drain y (slot + 1))
  -- the end of `process_trampoline`
  | .mappings code, .next => some (.skip, .tables code)
  | .tables code, .next => some (.skip, .image code)
  | .image code, .next => some (.skip, .pml4 code)
  | .pml4 code, .next =>
    if s.here.pml4Phys = 0 then some (.skip, .cr3 code)
    else some (.free s.here.pml4Phys, .cr3 code)
  | .cr3 code, .next => some (.writeCr3 s.kernelPml4, .clear code)
  | .clear code, .next => some (.clearPml4, .queue code)
  | .queue code, .next => some (.queueStack s.here.pid, .message code)
  | .message code, .next => some (.skip, .exited code)
  | .exited code, .next => some (.exit code, .pick .gone)
  | _, _ => none

/-! ## Ticks -/

/-- The tick finds something to switch to. -/
def State.Preempts (s : State) : Prop :=
  (s.inProcess → (s.table s.current).state = .running) ∧ (pickNextReady s.table).isSome

instance (s : State) : Decidable s.Preempts := inferInstanceAs (Decidable (_ ∧ _))

/-- The running code, stopped by a tick. -/
def State.interrupted (s : State) : State :=
  { s.setThread s.current { s.here with irq := true } with
    table := if s.inProcess then
        Function.update s.table s.current { s.table s.current with state := .ready }
      else s.table }

def maybePreempt (s : State) : State :=
  if s.Preempts then
    match pickNextReady s.table with
    | some next => s.interrupted.switchTo next
    | none => s
  else s

/-- `reclaim_pending_stacks` and the return from the interrupt, with interrupts off. -/
def finishIrq (s : State) : State :=
  { s.setThread s.current { s.here with irq := false } with
    mapped := s.mapped.filter fun pid => some pid ∉ s.pending
    pending := s.pending.map fun _ => none }

def step (s : State) : Action → Option State
  | .tick => if s.here.irq || s.here.pc = .dead then none else some (maybePreempt s)
  | a =>
    if s.here.irq then (if a = .next then some (finishIrq s) else none)
    else (advance s s.here.pc a).map fun (stmt, pc) => (s.goto pc).run stmt

/-- The console at its prompt and no process yet. -/
def boot (kernelPml4 : ℕ) : State where
  table := fun _ => Process.empty
  current := processCount
  nextPid := 1
  thread := fun i => if i = processCount then .at .user else .at .dead
  cr3 := kernelPml4
  kernelPml4 := kernelPml4
  held := {kernelPml4}
  mapped := ∅
  pending := List.replicate processCount none
  image := fun _ _ => 0

/-- The states the system starts in. -/
def Boot (s : State) : Prop := ∃ kernelPml4, s = boot kernelPml4

end Rymos
