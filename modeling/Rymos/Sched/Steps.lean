import Mathlib.Tactic
import Rymos.Sched.Machine

/-!
# What a step can do

* **`step_cases`**: a step is a tick that changes nothing, a tick that switches, the end of an
  interrupt, or a statement of the running code.
* **`advance_inv`**: for each statement, the places in the code where it stands.
* `Pc.child`, `Pc.space`: the slot and the PML4 a loader works on.
-/

namespace Rymos

variable {s s' : State}

@[simp] theorem setThread_table (s : State) (i : ℕ) (t : Thread) :
    (s.setThread i t).table = s.table := rfl

@[simp] theorem setThread_current (s : State) (i : ℕ) (t : Thread) :
    (s.setThread i t).current = s.current := rfl

@[simp] theorem goto_table (s : State) (pc : Pc) : (s.goto pc).table = s.table := rfl

@[simp] theorem goto_current (s : State) (pc : Pc) : (s.goto pc).current = s.current := rfl

@[simp] theorem goto_held (s : State) (pc : Pc) : (s.goto pc).held = s.held := rfl

@[simp] theorem goto_inProcess (s : State) (pc : Pc) : (s.goto pc).inProcess = s.inProcess := rfl

@[simp] theorem goto_currentPid (s : State) (pc : Pc) : (s.goto pc).currentPid = s.currentPid := rfl

theorem goto_thread (s : State) (pc : Pc) (i : ℕ) :
    (s.goto pc).thread i = if i = s.current then { s.here with pc := pc } else s.thread i := by
  simp [State.goto, State.setThread, Function.update_apply]

theorem goto_pc (s : State) (pc : Pc) (i : ℕ) :
    ((s.goto pc).thread i).pc = if i = s.current then pc else (s.thread i).pc := by
  rw [goto_thread]
  split_ifs <;> rfl

@[simp] theorem goto_here (s : State) (pc : Pc) : (s.goto pc).here = { s.here with pc := pc } := by
  simp [State.here, goto_thread]

/-- **What a step can do.** -/
theorem step_cases {a : Action} (h : step s a = some s') :
    (a = .tick ∧ ¬ s.Preempts ∧ s' = s) ∨
    (a = .tick ∧ s.here.irq = false ∧ s.Preempts ∧
      ∃ next, pickNextReady s.table = some next ∧ s' = s.interrupted.switchTo next) ∨
    (a = .next ∧ s.here.irq = true ∧ s' = finishIrq s) ∨
    (a ≠ .tick ∧ s.here.irq = false ∧
      ∃ stmt pc, advance s s.here.pc a = some (stmt, pc) ∧ s' = (s.goto pc).run stmt) := by
  by_cases ha : a = .tick
  · subst ha
    simp only [step] at h
    split_ifs at h with hirq
    cases h
    rw [maybePreempt]
    split_ifs with hp
    · obtain ⟨next, hn⟩ := Option.isSome_iff_exists.mp hp.2
      refine .inr (.inl ⟨rfl, ?_, hp, next, hn, by rw [hn]⟩)
      exact (show s.here.irq = false ∧ ¬ s.here.pc = .dead by simpa using hirq).1
    · exact .inl ⟨rfl, hp, rfl⟩
  · have hstep : step s a = if s.here.irq then (if a = .next then some (finishIrq s) else none)
        else (advance s s.here.pc a).map fun r => (s.goto r.2).run r.1 := by
      cases a <;> first | rfl | exact absurd rfl ha
    rw [hstep] at h
    split_ifs at h with hirq hnext
    · cases h
      exact .inr (.inr (.inl ⟨hnext, hirq, rfl⟩))
    · obtain ⟨⟨stmt, pc⟩, hadv, rfl⟩ := Option.map_eq_some_iff.mp h
      exact .inr (.inr (.inr ⟨ha, by simpa using hirq, stmt, pc, hadv, rfl⟩))

/-- The slot a loader fills. -/
def Pc.child : Pc → Option ℕ
  | .lookup c _ | .prepare c _ | .ready c | .fail c _ => some c
  | .enter l _ | .load l _ _ | .leave l _ | .stack l | .discard l | .install l => some l.index
  | _ => none

/-- The PML4 that a loader holds and has not yet given to its slot. -/
def Pc.space : Pc → Option ℕ
  | .enter l _ | .load l _ _ | .leave l _ | .stack l | .discard l | .install l => some l.childPml4
  | _ => none

/-- The wait that the code is in. -/
def Pc.waiting : Pc → Option Waiting
  | .check w | .mark w _ | .read w _ | .find w | .target w | .block w => some w
  | .pick (.wait w) | .switch (.wait w) _ | .drain (.wait w) _ | .unmap (.wait w) _ _ => some w
  | _ => none

/-- The state of a slot whose code is about to give the CPU away. -/
def Yield.stopped : Yield → ProcessState
  | .wait _ => .blocked
  | .gone => .exited

/-- The state of a slot whose code has got the CPU back. -/
def Yield.resumed : Yield → ProcessState
  | .wait _ => .running
  | .gone => .exited

/-- The state of a slot whose code runs at the given place. -/
def Pc.expects : Pc → ProcessState
  | .pick y | .switch y _ => y.stopped
  | .drain y _ | .unmap y _ _ => y.resumed
  | _ => .running

/-- What the places `w.after` and `y.again` are for a loader and for the scheduler. -/
@[simp] theorem expects_after (w : Waiting) : w.after.expects = .running := by cases w <;> rfl

@[simp] theorem child_after (w : Waiting) : w.after.child = none := by cases w <;> rfl

@[simp] theorem space_after (w : Waiting) : w.after.space = none := by cases w <;> rfl

@[simp] theorem waiting_after (w : Waiting) : w.after.waiting = none := by cases w <;> rfl

@[simp] theorem expects_missed (w : Waiting) : w.missed.expects = .running := by cases w <;> rfl

@[simp] theorem child_missed (w : Waiting) : w.missed.child = none := by cases w <;> rfl

@[simp] theorem space_missed (w : Waiting) : w.missed.space = none := by cases w <;> rfl

@[simp] theorem expects_again (y : Yield) : y.again.expects = y.resumed := by cases y <;> rfl

@[simp] theorem child_again (y : Yield) : y.again.child = none := by cases y <;> rfl

@[simp] theorem space_again (y : Yield) : y.again.space = none := by cases y <;> rfl

theorem after_ne_switch (w : Waiting) (y : Yield) (n : ℕ) : w.after ≠ .switch y n := by
  cases w <;> exact fun h => by cases h

theorem missed_ne_switch (w : Waiting) (y : Yield) (n : ℕ) : w.missed ≠ .switch y n := by
  cases w <;> exact fun h => by cases h

theorem again_ne_switch (z y : Yield) (n : ℕ) : z.again ≠ .switch y n := by
  cases z <;> exact fun h => by cases h

theorem afterClaim_cases (s : State) (elf : Elf) (slot : Option ℕ) :
    afterClaim s elf slot = .user ∨
      ∃ c, slot = some c ∧
        (afterClaim s elf slot = .prepare c elf ∨ afterClaim s elf slot = .lookup c elf) := by
  cases slot with
  | none => exact .inl rfl
  | some c =>
    rw [afterClaim]
    split_ifs
    · exact .inr ⟨c, rfl, .inl rfl⟩
    · exact .inr ⟨c, rfl, .inr rfl⟩

/-- The statement stands at `pc`, and its code goes on at `pc'`. -/
def Stands (s : State) (a : Action) (pc pc' : Pc) : Stmt → Prop
  | .skip => True
  | .locals => pc = .start ∧ pc' = .user
  | .claim slot => pc = .user ∧ slot = spawnSlot s.table ∧
      ∃ elf, a = .spawn elf ∧ pc' = afterClaim s elf slot
  | .setState c state =>
      (∃ reap, pc = .fail c reap ∧ state = .failed ∧ pc' = .failCode c reap) ∨
      pc = .ready c ∧ state = .ready ∧ pc' = .readyCode c
  | .setCode c code =>
      (∃ reap, pc = .failCode c reap ∧ code = -1 ∧ pc' = if reap then .reap c else .user) ∨
      pc = .readyCode c ∧ code = 0 ∧ pc' = if s.inProcess then .user else .started c
  | .setWaited c =>
      (∃ w, pc = .mark w c ∧ pc' = .read w c) ∨ pc = .reap c ∧ pc' = .user
  | .alloc page => page ∉ s.held ∧ page ≠ 0 ∧ ∃ c elf, pc = .prepare c elf ∧
      pc' = .enter ⟨c, (s.table c).pid, s.currentPml4OrKernel, page⟩ elf
  | .free page =>
      (∃ l, pc = .discard l ∧ page = l.childPml4 ∧ pc' = .fail l.index false) ∨
      ∃ code, pc = .pml4 code ∧ page = s.here.pml4Phys ∧ page ≠ 0 ∧ pc' = .cr3 code
  | .writeCr3 v =>
      (∃ l elf, pc = .enter l elf ∧ v = l.childPml4 ∧
        pc' = if elf.headerOk then .load l [] elf.segments else .leave l false) ∨
      (∃ l ok, pc = .leave l ok ∧ v = l.parentPml4 ∧
        pc' = if ok then .stack l else .discard l) ∨
      ∃ code, pc = .cr3 code ∧ v = s.kernelPml4 ∧ pc' = .clear code
  | .store addr value =>
      (pc = .user ∧ pc' = .user ∧ s.inProcess) ∨
      ∃ l stores segments, pc = .load l ((addr, value) :: stores) segments ∧
        pc' = .load l stores segments
  | .mapStack pid => ∃ l, pc = .stack l ∧ pid = l.pid ∧ pc' = .install l
  | .unmapStack pid => ∃ y slot, pc = .unmap y slot pid ∧ pc' = .drain y (slot + 1)
  | .install l => pc = .install l ∧ pc' = .ready l.index
  | .clearPml4 => ∃ code, pc = .clear code ∧ pc' = .queue code
  | .queueStack pid => ∃ code, pc = .queue code ∧ pid = s.here.pid ∧ pc' = .message code
  | .take slot => ∃ y pid, pc = .drain y slot ∧ s.pending.getD slot none = some pid ∧
      pc' = .unmap y slot pid
  | .waitTarget target => ∃ w, pc = .target w ∧ target = w.target ∧ pc' = .block w
  | .block => ∃ w, pc = .block w ∧ pc' = .pick (.wait w)
  | .exit code => pc = .exited code ∧ pc' = .pick .gone
  | .switchTo next => ∃ y, pc = .switch y next ∧ pc' = .drain y 0

/-- **The places where a statement stands.** -/
theorem advance_inv {a : Action} {pc pc' : Pc} {stmt : Stmt}
    (h : advance s pc a = some (stmt, pc')) : Stands s a pc pc' stmt := by
  revert h
  fun_cases advance s pc a
  all_goals
    intro h
    try cases h
  all_goals first
    | trivial
    | exact .inr (.inl ⟨_, _, rfl, rfl, rfl⟩)
    | simp_all [Stands]

/-- A statement that does nothing leaves a loader its slot and its PML4. -/
theorem advance_skip {a : Action} {pc pc' : Pc} (h : advance s pc a = some (.skip, pc')) :
    pc'.expects = pc.expects ∧ pc'.child = pc.child ∧ pc'.space = pc.space := by
  revert h
  fun_cases advance s pc a
  all_goals
    intro h
    try cases h
  all_goals try split_ifs
  all_goals first
    | exact ⟨rfl, rfl, rfl⟩
    | exact ⟨expects_again _, child_again _, space_again _⟩
    | exact ⟨expects_after _, child_after _, space_after _⟩
    | exact ⟨expects_missed _, child_missed _, space_missed _⟩

/-! ## What a statement changes -/

section Run

variable (s : State) (pc : Pc) (stmt : Stmt) (i : ℕ)

theorem update_field {α : Type} (f : Process → α) (table : Table) (j i : ℕ) (p : Process) :
    f (Function.update table j p i) = if i = j then f p else f (table i) := by
  rw [Function.update_apply]
  split_ifs <;> rfl

theorem update_same {α : Type} (f : Process → α) {table : Table} {j i : ℕ} {p : Process}
    (h : f p = f (table j)) : f (Function.update table j p i) = f (table i) := by
  rw [update_field f, h]
  split_ifs with hi
  · rw [hi]
  · rfl

theorem switchTo_state (s : State) (next i : ℕ) : ((s.switchTo next).table i).state =
    if next < processCount ∧ i = next then .running else (s.table i).state := by
  simp only [State.switchTo]
  split_ifs with h h' h'
  · simp [h'.2]
  · have : i ≠ next := fun hi => h' ⟨h, hi⟩
    rw [Function.update_of_ne this]
  · exact absurd h'.1 h
  · rfl

theorem switchTo_same {α : Type} (f : Process → α) (next : ℕ)
    (h : ∀ p : Process, f { p with state := .running } = f p) :
    f ((s.switchTo next).table i) = f (s.table i) := by
  simp only [State.switchTo]
  split_ifs
  · exact update_same f (h _)
  · rfl

theorem run_current : ((s.goto pc).run stmt).current =
    match stmt with
    | .switchTo next => next
    | _ => s.current := by
  fun_cases State.run (s.goto pc) stmt <;> rfl

theorem run_thread : ((s.goto pc).run stmt).thread i =
    match stmt with
    | .locals =>
      if i = s.current then
        { s.here with pc := pc, pid := s.currentPid, pml4Phys := (s.table s.current).pml4Phys }
      else (s.goto pc).thread i
    | .claim (some c) => if i = c then .at .dead else (s.goto pc).thread i
    | .install l => if i = l.index then .at .start else (s.goto pc).thread i
    | _ => (s.goto pc).thread i := by
  fun_cases State.run (s.goto pc) stmt
  all_goals first
    | rfl
    | exact Function.update_apply ..
    | skip
  -- the locals of the trampoline
  simp only [State.setThread, Function.update_apply, goto_here]
  rfl

/-- The place a statement sends the code of a slot back to. -/
def Stmt.resets (i : ℕ) : Stmt → Option Pc
  | .claim (some c) => if i = c then some .dead else none
  | .install l => if i = l.index then some .start else none
  | _ => none

theorem run_pc : (((s.goto pc).run stmt).thread i).pc =
    (stmt.resets i).getD (if i = s.current then pc else (s.thread i).pc) := by
  rw [← goto_pc, run_thread]
  cases stmt with
  | locals =>
    split_ifs with hi
    · rw [goto_pc, if_pos hi]
      rfl
    · rfl
  | claim slot =>
    cases slot with
    | none => rfl
    | some c =>
      simp only [Stmt.resets]
      split_ifs <;> rfl
  | install l =>
    simp only [Stmt.resets]
    split_ifs <;> rfl
  | _ => rfl

theorem resets_space {stmt : Stmt} {i : ℕ} {q : Pc} (h : stmt.resets i = some q) :
    q = .dead ∨ q = .start := by
  cases stmt with
  | claim slot =>
    cases slot with
    | none => cases h
    | some c =>
      simp only [Stmt.resets] at h
      split_ifs at h
      exact .inl (Option.some.inj h).symm
  | install l =>
    simp only [Stmt.resets] at h
    split_ifs at h
    exact .inr (Option.some.inj h).symm
  | _ => cases h

theorem run_state : (((s.goto pc).run stmt).table i).state =
    match stmt with
    | .claim (some c) => if i = c then .loading else (s.table i).state
    | .setState c state => if i = c then state else (s.table i).state
    | .block => if s.inProcess ∧ i = s.current then .blocked else (s.table i).state
    | .exit code =>
      (wakeWaitersFor (processSetState s.table s.current .exited code) s.currentPid i).state
    | .switchTo next => if next < processCount ∧ i = next then .running else (s.table i).state
    | _ => (s.table i).state := by
  fun_cases State.run (s.goto pc) stmt
  all_goals first
    | rfl
    | exact update_field (·.state) ..
    | exact update_same (·.state) rfl
    | skip
  · rename_i hp
    have hp' : s.inProcess := hp
    simp only [hp', true_and]
    exact update_field (·.state) ..
  · rename_i hp
    have hp' : ¬ s.inProcess := hp
    simp only [hp', false_and, if_false]
    rfl
  · exact switchTo_state ..

theorem run_pid : (((s.goto pc).run stmt).table i).pid =
    match stmt with
    | .claim (some c) => if i = c then s.nextPid else (s.table i).pid
    | _ => (s.table i).pid := by
  fun_cases State.run (s.goto pc) stmt
  all_goals first
    | rfl
    | exact update_field (·.pid) ..
    | exact update_same (·.pid) rfl
    | exact (wakeWaitersFor_pid ..).trans (update_same (·.pid) rfl)
    | exact switchTo_same _ i (·.pid) _ fun _ => rfl

theorem run_parentPid : (((s.goto pc).run stmt).table i).parentPid =
    match stmt with
    | .claim (some c) => if i = c then s.currentPid else (s.table i).parentPid
    | _ => (s.table i).parentPid := by
  fun_cases State.run (s.goto pc) stmt
  all_goals first
    | rfl
    | exact update_field (·.parentPid) ..
    | exact update_same (·.parentPid) rfl
    | exact (wakeWaitersFor_parentPid ..).trans (update_same (·.parentPid) rfl)
    | exact switchTo_same _ i (·.parentPid) _ fun _ => rfl

theorem run_waited : (((s.goto pc).run stmt).table i).waited =
    match stmt with
    | .claim (some c) => if i = c then false else (s.table i).waited
    | .setWaited c => if i = c then true else (s.table i).waited
    | _ => (s.table i).waited := by
  fun_cases State.run (s.goto pc) stmt
  all_goals first
    | rfl
    | exact update_field (·.waited) ..
    | exact update_same (·.waited) rfl
    | exact (wakeWaitersFor_waited ..).trans (update_same (·.waited) rfl)
    | exact switchTo_same _ i (·.waited) _ fun _ => rfl

theorem run_exitCode : (((s.goto pc).run stmt).table i).exitCode =
    match stmt with
    | .claim (some c) => if i = c then 0 else (s.table i).exitCode
    | .setCode c code => if i = c then code else (s.table i).exitCode
    | .exit code => if i = s.current then code else (s.table i).exitCode
    | _ => (s.table i).exitCode := by
  fun_cases State.run (s.goto pc) stmt
  all_goals first
    | rfl
    | exact update_field (·.exitCode) ..
    | exact update_same (·.exitCode) rfl
    | exact (wakeWaitersFor_exitCode ..).trans (update_field (·.exitCode) ..)
    | exact switchTo_same _ i (·.exitCode) _ fun _ => rfl

theorem run_waitingFor : (((s.goto pc).run stmt).table i).waitingFor =
    match stmt with
    | .claim (some c) => if i = c then .none else (s.table i).waitingFor
    | .waitTarget target =>
      if s.inProcess ∧ i = s.current then target else (s.table i).waitingFor
    | .exit code =>
      (wakeWaitersFor (processSetState s.table s.current .exited code) s.currentPid i).waitingFor
    | _ => (s.table i).waitingFor := by
  fun_cases State.run (s.goto pc) stmt
  all_goals first
    | rfl
    | exact update_field (·.waitingFor) ..
    | exact update_same (·.waitingFor) rfl
    | exact switchTo_same _ i (·.waitingFor) _ fun _ => rfl
    | skip
  · rename_i hp
    have hp' : s.inProcess := hp
    simp only [hp', true_and]
    exact update_field (·.waitingFor) ..
  · rename_i hp
    have hp' : ¬ s.inProcess := hp
    simp only [hp', false_and, if_false]
    rfl

theorem run_pml4Phys : (((s.goto pc).run stmt).table i).pml4Phys =
    match stmt with
    | .claim (some c) => if i = c then 0 else (s.table i).pml4Phys
    | .install l => if i = l.index then l.childPml4 else (s.table i).pml4Phys
    | .clearPml4 => if i = s.current then 0 else (s.table i).pml4Phys
    | _ => (s.table i).pml4Phys := by
  fun_cases State.run (s.goto pc) stmt
  all_goals first
    | rfl
    | exact update_field (·.pml4Phys) ..
    | exact update_same (·.pml4Phys) rfl
    | exact (wakeWaitersFor_pml4Phys ..).trans (update_same (·.pml4Phys) rfl)
    | exact switchTo_same _ i (·.pml4Phys) _ fun _ => rfl

theorem run_kernelPml4 : ((s.goto pc).run stmt).kernelPml4 = s.kernelPml4 := by
  fun_cases State.run (s.goto pc) stmt <;> rfl

theorem run_held : ((s.goto pc).run stmt).held =
    match stmt with
    | .alloc page => insert page s.held
    | .free page => s.held.erase page
    | _ => s.held := by
  fun_cases State.run (s.goto pc) stmt <;> rfl

theorem run_cr3 : ((s.goto pc).run stmt).cr3 =
    match stmt with
    | .writeCr3 v => v
    | .switchTo next => s.targetPml4 next
    | _ => s.cr3 := by
  fun_cases State.run (s.goto pc) stmt <;> rfl

theorem run_image : ((s.goto pc).run stmt).image =
    match stmt with
    | .alloc page => Function.update s.image page fun _ => 0
    | .store addr value =>
      Function.update s.image s.cr3 (Function.update (s.image s.cr3) addr value)
    | _ => s.image := by
  fun_cases State.run (s.goto pc) stmt <;> rfl

theorem run_mapped : ((s.goto pc).run stmt).mapped =
    match stmt with
    | .mapStack pid => insert pid s.mapped
    | .unmapStack pid => s.mapped.erase pid
    | _ => s.mapped := by
  fun_cases State.run (s.goto pc) stmt <;> rfl

theorem run_pending : ((s.goto pc).run stmt).pending =
    match stmt with
    | .queueStack pid => queueStackReclaim s.pending pid
    | .take slot => s.pending.set slot none
    | _ => s.pending := by
  fun_cases State.run (s.goto pc) stmt <;> rfl

/-- The place of a slot's code after a statement: it was sent back, or it is the running code, or it
stands where it stood. -/
theorem run_pc_cases :
    (((s.goto pc).run stmt).thread i).pc = .dead ∨ (((s.goto pc).run stmt).thread i).pc = .start ∨
    (stmt.resets i = none ∧ i = s.current ∧ (((s.goto pc).run stmt).thread i).pc = pc) ∨
    (stmt.resets i = none ∧ i ≠ s.current ∧
      (((s.goto pc).run stmt).thread i).pc = (s.thread i).pc) := by
  rw [run_pc]
  cases hr : stmt.resets i with
  | some q =>
    rcases resets_space hr with rfl | rfl
    · exact .inl rfl
    · exact .inr (.inl rfl)
  | none =>
    rw [Option.getD_none]
    split_ifs with hi
    · exact .inr (.inr (.inl ⟨rfl, hi, rfl⟩))
    · exact .inr (.inr (.inr ⟨rfl, hi, rfl⟩))

/-- The running code goes on, unless the statement sends it back. -/
theorem run_pc_here (h : stmt.resets s.current = none) :
    (((s.goto pc).run stmt).thread s.current).pc = pc := by
  rw [run_pc, h, Option.getD_none, if_pos rfl]

/-- A running code that is not on its way out of an interrupt stays so. -/
theorem run_irq (h : s.here.irq = false) (hi : (((s.goto pc).run stmt).thread i).irq = true) :
    i ≠ s.current ∧ stmt.resets i = none ∧ (s.thread i).irq = true := by
  have hgoto : ((s.goto pc).thread i).irq = true → i ≠ s.current ∧ (s.thread i).irq = true := by
    rw [goto_thread]
    split_ifs with hc
    · exact fun hi => absurd hi (by rw [h]; nofun)
    · exact fun hi => ⟨hc, hi⟩
  rw [run_thread] at hi
  cases stmt with
  | locals =>
    dsimp only at hi
    split_ifs at hi
    · exact absurd hi (by rw [h]; nofun)
    · exact ⟨(hgoto hi).1, rfl, (hgoto hi).2⟩
  | claim slot =>
    cases slot with
    | none => exact ⟨(hgoto hi).1, rfl, (hgoto hi).2⟩
    | some c =>
      dsimp only at hi
      split_ifs at hi with hc
      · cases hi
      · exact ⟨(hgoto hi).1, if_neg hc, (hgoto hi).2⟩
  | install l =>
    dsimp only at hi
    split_ifs at hi with hc
    · cases hi
    · exact ⟨(hgoto hi).1, if_neg hc, (hgoto hi).2⟩
  | _ => exact ⟨(hgoto hi).1, rfl, (hgoto hi).2⟩

end Run

/-! ## What a tick changes -/

theorem setThread_irq (s : State) (b : Bool) (i : ℕ) :
    (s.setThread s.current { s.here with irq := b }).thread i =
      { s.thread i with irq := if i = s.current then b else (s.thread i).irq } := by
  simp only [State.setThread, Function.update_apply, State.here]
  split_ifs with h
  · rw [h]
  · rfl

theorem interrupted_thread (s : State) (i : ℕ) : s.interrupted.thread i =
    { s.thread i with irq := if i = s.current then true else (s.thread i).irq } :=
  setThread_irq s true i

theorem finishIrq_thread (s : State) (i : ℕ) : (finishIrq s).thread i =
    { s.thread i with irq := if i = s.current then false else (s.thread i).irq } :=
  setThread_irq s false i

theorem interrupted_pc (s : State) (i : ℕ) :
    (s.interrupted.thread i).pc = (s.thread i).pc := by
  rw [interrupted_thread]

theorem finishIrq_pc (s : State) (i : ℕ) : ((finishIrq s).thread i).pc = (s.thread i).pc := by
  rw [finishIrq_thread]

theorem interrupted_same {α : Type} (f : Process → α) (s : State) (i : ℕ)
    (h : ∀ p : Process, f { p with state := .ready } = f p) :
    f (s.interrupted.table i) = f (s.table i) := by
  simp only [State.interrupted]
  split_ifs
  · exact update_same f (h _)
  · rfl

/-- A field of the table that a tick leaves alone. -/
theorem preempt_same {α : Type} (f : Process → α) (s : State) (next i : ℕ)
    (h : ∀ (p : Process) state, f { p with state := state } = f p) :
    f ((s.interrupted.switchTo next).table i) = f (s.table i) :=
  (switchTo_same _ i f next fun p => h p _).trans (interrupted_same f s i fun p => h p _)

theorem interrupted_state (s : State) (i : ℕ) : (s.interrupted.table i).state =
    if s.inProcess ∧ i = s.current then .ready else (s.table i).state := by
  simp only [State.interrupted]
  split_ifs with h h' h'
  · rw [h'.2, Function.update_self]
  · have : i ≠ s.current := fun hi => h' ⟨h, hi⟩
    rw [Function.update_of_ne this]
  · exact absurd h'.1 h
  · rfl

end Rymos
