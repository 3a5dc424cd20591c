import Mathlib.Tactic

/-!
# The process table

* `Process`, `Table`: the slots of `PROCESS_TABLE`; slot `processCount` is the console's.
* `pickNextReady`, `processFindSlot`, `processFindReapableSlot`, `processWaitByPid`,
  `processWaitAnyChild`, `findProcessIndexByPid`, `hasLiveChild`: the scans. Each is a `scan`;
  **`scan_eq_some`**, **`scan_eq_none`** say what a scan has found.
* `wakeWaitersFor`, `processSetState`, `newProcess`: the updates.
-/

namespace Rymos

abbrev processCount : ℕ := 16

inductive ProcessState where
  | empty
  | ready
  | running
  | exited
  | failed
  | blocked
  | loading
deriving DecidableEq, Repr

/-- What a blocked process waits for. -/
inductive WaitTarget where
  | none
  | pid (pid : ℕ)
  | anyChild
deriving DecidableEq, Repr

structure Process where
  pid : ℕ
  parentPid : ℕ
  waited : Bool
  state : ProcessState
  exitCode : ℤ
  pml4Phys : ℕ
  waitingFor : WaitTarget
deriving DecidableEq

def Process.empty : Process :=
  { pid := 0, parentPid := 0, waited := false, state := .empty, exitCode := 0, pml4Phys := 0,
    waitingFor := .none }

/-- `Exited` or `Failed`. -/
def ProcessState.over (state : ProcessState) : Prop := state = .exited ∨ state = .failed

instance : DecidablePred ProcessState.over := fun _ => inferInstanceAs (Decidable (_ ∨ _))

/-- In the table, and neither `Exited` nor `Failed`. -/
def ProcessState.alive (state : ProcessState) : Prop := state ≠ .empty ∧ ¬ state.over

instance : DecidablePred ProcessState.alive := fun _ => inferInstanceAs (Decidable (_ ∧ _))

/-- `pick_next_ready` may choose the process now, or once it is woken. -/
def ProcessState.schedulable (state : ProcessState) : Prop :=
  state = .ready ∨ state = .running ∨ state = .blocked

instance : DecidablePred ProcessState.schedulable := fun _ => inferInstanceAs (Decidable (_ ∨ _))

theorem schedulable_not_over {state : ProcessState} (h : state.schedulable) :
    state ≠ .empty ∧ ¬ state.over := by
  rcases h with rfl | rfl | rfl <;> decide

abbrev Table := ℕ → Process

/-! ## Scans -/

/-- The first slot of a process that meets `p`. -/
def scan (table : Table) (p : Process → Bool) : Option ℕ :=
  (List.range processCount).find? fun index => p (table index)

theorem scan_eq_some {table : Table} {p : Process → Bool} {index : ℕ}
    (h : scan table p = some index) : index < processCount ∧ p (table index) = true :=
  ⟨List.mem_range.mp (List.mem_of_find?_eq_some h),
    List.find?_some (p := fun i => p (table i)) h⟩

theorem scan_eq_none {table : Table} {p : Process → Bool} :
    scan table p = none ↔ ∀ index < processCount, p (table index) = false := by
  simp [scan, List.find?_eq_none]

def pickNextReady (table : Table) : Option ℕ := scan table fun process => process.state = .ready

def processFindSlot (table : Table) (state : ProcessState) : Option ℕ :=
  scan table fun process => process.state = state

/-- A zombie whose status has been collected. -/
def processFindReapableSlot (table : Table) : Option ℕ :=
  scan table fun process => process.waited && process.state.over

/-- The slot `process_wait_by_pid` marks as `waited`. -/
def processWaitByPid (table : Table) (pid : ℕ) : Option ℕ :=
  scan table fun process => process.pid = pid && !process.waited && process.state.over

/-- The slot `process_wait_any_child` marks as `waited`. -/
def processWaitAnyChild (table : Table) (parentPid : ℕ) : Option ℕ :=
  scan table fun process => process.parentPid = parentPid && !process.waited && process.state.over

def findProcessIndexByPid (table : Table) (pid : ℕ) : Option ℕ :=
  scan table fun process => process.pid = pid && process.state ≠ .empty

/-- `Loading` is not among the states it accepts. -/
def hasLiveChild (table : Table) (parentPid : ℕ) : Bool :=
  (scan table fun process => process.parentPid = parentPid &&
    (process.state = .ready || process.state = .running || process.state = .blocked)).isSome

/-- The slot `process_spawn_with_argv` takes. -/
def spawnSlot (table : Table) : Option ℕ :=
  (processFindSlot table .empty).or (processFindReapableSlot table)

theorem pickNextReady_eq_some {table : Table} {index : ℕ} (h : pickNextReady table = some index) :
    index < processCount ∧ (table index).state = .ready := by
  simpa using scan_eq_some h

/-- A spawn takes an empty slot or that of a collected zombie. -/
theorem spawnSlot_eq_some {table : Table} {index : ℕ} (h : spawnSlot table = some index) :
    index < processCount ∧
      ((table index).state = .empty ∨ (table index).waited = true ∧ (table index).state.over) := by
  rcases Option.or_eq_some_iff.mp h with h | ⟨-, h⟩
  · have := scan_eq_some h
    simp only [decide_eq_true_eq] at this
    exact ⟨this.1, .inl this.2⟩
  · have := scan_eq_some h
    simp only [Bool.and_eq_true, decide_eq_true_eq] at this
    exact ⟨this.1, .inr this.2⟩

theorem spawnSlot_not_alive {table : Table} {index : ℕ} (h : spawnSlot table = some index) :
    ¬ (table index).state.alive := by
  rintro ⟨hne, hover⟩
  rcases (spawnSlot_eq_some h).2 with he | he
  · exact hne he
  · exact hover he.2

theorem processWaitByPid_eq_some {table : Table} {pid index : ℕ}
    (h : processWaitByPid table pid = some index) :
    index < processCount ∧ (table index).pid = pid ∧ (table index).waited = false ∧
      (table index).state.over := by
  simpa [and_assoc] using scan_eq_some h

theorem processWaitByPid_eq_none {table : Table} {pid : ℕ} (h : processWaitByPid table pid = none)
    {index : ℕ} (hi : index < processCount) (hp : (table index).pid = pid)
    (hw : (table index).waited = false) : ¬ (table index).state.over := by
  have := scan_eq_none.mp h index hi
  simpa [hp, hw] using this

theorem processWaitAnyChild_eq_some {table : Table} {parentPid index : ℕ}
    (h : processWaitAnyChild table parentPid = some index) :
    index < processCount ∧ (table index).parentPid = parentPid ∧ (table index).waited = false ∧
      (table index).state.over := by
  simpa [and_assoc] using scan_eq_some h

theorem processWaitAnyChild_eq_none {table : Table} {parentPid : ℕ}
    (h : processWaitAnyChild table parentPid = none) {index : ℕ} (hi : index < processCount)
    (hp : (table index).parentPid = parentPid) (hw : (table index).waited = false) :
    ¬ (table index).state.over := by
  have := scan_eq_none.mp h index hi
  simpa [hp, hw] using this

theorem findProcessIndexByPid_eq_some {table : Table} {pid index : ℕ}
    (h : findProcessIndexByPid table pid = some index) :
    index < processCount ∧ (table index).pid = pid ∧ (table index).state ≠ .empty := by
  simpa using scan_eq_some h

/-! ## Updates -/

/-- The pid after `pid`: `wrapping_add`, and 0 is skipped. -/
def nextPidAfter (pid : ℕ) : ℕ := if (pid + 1) % 2 ^ 32 = 0 then 1 else (pid + 1) % 2 ^ 32

/-- The process `process_spawn_with_argv` puts into a slot. -/
def newProcess (pid parentPid : ℕ) : Process :=
  { Process.empty with pid := pid, parentPid := parentPid, state := .loading }

def processSetState (table : Table) (index : ℕ) (state : ProcessState) (exitCode : ℤ) : Table :=
  Function.update table index { table index with state := state, exitCode := exitCode }

def setWaited (table : Table) (index : ℕ) : Table :=
  Function.update table index { table index with waited := true }

/-- `wake_waiters_for` wakes the process. -/
def Process.shouldWake (process : Process) (pid : ℕ) : Prop :=
  process.state = .blocked ∧ (process.waitingFor = .pid pid ∨ process.waitingFor = .anyChild)

instance (process : Process) (pid : ℕ) : Decidable (process.shouldWake pid) :=
  inferInstanceAs (Decidable (_ ∧ _))

def wakeWaitersFor (table : Table) (pid : ℕ) : Table := fun index =>
  if index < processCount ∧ (table index).shouldWake pid then
    { table index with waitingFor := .none, state := .ready }
  else table index

section Updates

variable (table : Table) (index i pid : ℕ)

theorem processSetState_apply (state : ProcessState) (exitCode : ℤ) :
    processSetState table index state exitCode i =
      if i = index then { table i with state := state, exitCode := exitCode } else table i := by
  by_cases h : i = index
  · subst h
    simp [processSetState]
  · simp [processSetState, h]

theorem setWaited_apply :
    setWaited table index i = if i = index then { table i with waited := true } else table i := by
  by_cases h : i = index
  · subst h
    simp [setWaited]
  · simp [setWaited, h]

@[simp] theorem wakeWaitersFor_pid : (wakeWaitersFor table pid i).pid = (table i).pid := by
  rw [wakeWaitersFor]
  split <;> rfl

@[simp] theorem wakeWaitersFor_parentPid :
    (wakeWaitersFor table pid i).parentPid = (table i).parentPid := by
  rw [wakeWaitersFor]
  split <;> rfl

@[simp] theorem wakeWaitersFor_waited :
    (wakeWaitersFor table pid i).waited = (table i).waited := by
  rw [wakeWaitersFor]
  split <;> rfl

@[simp] theorem wakeWaitersFor_exitCode :
    (wakeWaitersFor table pid i).exitCode = (table i).exitCode := by
  rw [wakeWaitersFor]
  split <;> rfl

@[simp] theorem wakeWaitersFor_pml4Phys :
    (wakeWaitersFor table pid i).pml4Phys = (table i).pml4Phys := by
  rw [wakeWaitersFor]
  split <;> rfl

/-- A state is left as it is, or goes from `Blocked` to `Ready`. -/
theorem wakeWaitersFor_state :
    (wakeWaitersFor table pid i).state = (table i).state ∨
      (table i).state = .blocked ∧ (wakeWaitersFor table pid i).state = .ready := by
  rw [wakeWaitersFor]
  split
  · rename_i h
    exact .inr ⟨h.2.1, rfl⟩
  · exact .inl rfl

/-- **After the call nobody is blocked on `pid`.** -/
theorem wakeWaitersFor_woken (hi : i < processCount)
    (hb : (wakeWaitersFor table pid i).state = .blocked) :
    (wakeWaitersFor table pid i).waitingFor ≠ .pid pid ∧ wakeWaitersFor table pid i = table i := by
  rw [wakeWaitersFor] at hb ⊢
  split_ifs at hb ⊢ with h
  exact ⟨fun hw => h ⟨hi, hb, .inl hw⟩, rfl⟩

end Updates

end Rymos
