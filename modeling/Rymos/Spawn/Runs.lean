import Mathlib.Tactic
import Rymos.Spawn.ProgramPath

/-!
# What becomes of a slot

* `Fate`, `Takes`, `TakesNone`: a call that starts a process takes a slot and leaves a process in it that
  is `Ready` or has failed; or it takes none.
* **`spawnPrepared_cases`**, **`runProgram_cases`**: how the calls end.
* `abiSpawn_cases`, `abiSpawnArgv_cases`: what the two calls check first.
* `Spares`, `SameProcess`, `spawnStep_same`: a step that starts nothing in a slot, and what it leaves.
* `Later`, **`Later.same`**: a run in which no process is started in the slot.
-/

namespace Rymos

open ByteBuf

/-- What becomes of a process: it is prepared, or it has failed and counts as collected or not. -/
inductive Fate where
  | started (pml4Phys : ℕ)
  | failed (reaped : Bool)

/-- The process a call leaves in its slot. -/
def Fate.process (pid parentPid : ℕ) : Fate → Process
  | .started pml4Phys => { newProcess pid parentPid with pml4Phys := pml4Phys, state := .ready }
  | .failed reaped =>
    { newProcess pid parentPid with state := .failed, exitCode := -1, waited := reaped }

/-- What is kept of a name and arguments. -/
def ProcArgs.kept (name args : List UInt8) (argv : List (List UInt8)) : ProcArgs where
  name := name.take processNameMax
  args := args.take processArgsMax
  argv := (argv.take processArgvCountMax).map (·.take processArgvValueMax)

/-- The call takes slot `c`. -/
structure Takes (s s' : SpawnSys) (c : ℕ) (new : ProcArgs) (fate : Fate) : Prop where
  slot : spawnSlot s.table = some c
  table : s'.table = Function.update s.table c (fate.process s.nextPid s.currentPid)
  args_eq : s'.args = Function.update s.args c new
  current : s'.current = s.current
  nextPid : s'.nextPid = nextPidAfter s.nextPid

structure TakesNone (s s' : SpawnSys) : Prop where
  table : s'.table = s.table
  args_eq : s'.args = s.args
  current : s'.current = s.current
  nextPid : s'.nextPid = s.nextPid ∨ spawnSlot s.table = none

section Calls

variable {s s' : SpawnSys} {name args : List UInt8} {outcome : Except PrepareFault ℕ}

theorem prepareProcess_eq (table : Table) (c : ℕ) (outcome : Except PrepareFault ℕ) :
    prepareProcess table c outcome = match outcome with
      | .error _ => (processSetState table c .failed (-1), false)
      | .ok childPml4 => (processSetState
          (Function.update table c { table c with pml4Phys := childPml4 }) c .ready 0, true) := by
  rcases outcome with (_ | _ | _ | _) | _ <;> rfl

/-- The new process is failed. -/
theorem processSetState_failed (table : Table) (c pid parentPid : ℕ) :
    processSetState (Function.update table c (newProcess pid parentPid)) c .failed (-1) =
      Function.update table c (Fate.process pid parentPid (.failed false)) := by
  rw [processSetState, Function.update_idem, Function.update_self]
  rfl

theorem processFailUnwaited_new (table : Table) (c pid parentPid : ℕ) :
    processFailUnwaited (Function.update table c (newProcess pid parentPid)) c =
      Function.update table c (Fate.process pid parentPid (.failed true)) := by
  rw [processFailUnwaited, processSetState_failed, setWaited, Function.update_idem,
    Function.update_self]
  rfl

/-- The new process is made `Ready`. -/
theorem processSetState_ready (table : Table) (c pid parentPid pml4Phys : ℕ) :
    processSetState (Function.update (Function.update table c (newProcess pid parentPid)) c
        { Function.update table c (newProcess pid parentPid) c with pml4Phys := pml4Phys })
      c .ready 0 = Function.update table c (Fate.process pid parentPid (.started pml4Phys)) := by
  rw [processSetState, Function.update_idem, Function.update_idem, Function.update_self,
    Function.update_self]
  rfl

/-- The claim of a slot, and what the callers do with it. -/
theorem processSpawnWithArgv_eq (s : SpawnSys) (name args : List UInt8) (argv : List (List UInt8)) :
    processSpawnWithArgv s name args argv s.currentPid = match spawnSlot s.table with
      | none => ({ s with nextPid := nextPidAfter s.nextPid }, none)
      | some c => ({ s with
          nextPid := nextPidAfter s.nextPid
          table := Function.update s.table c (newProcess s.nextPid s.currentPid)
          args := Function.update s.args c (.kept name args argv) }, some c) := by
  unfold processSpawnWithArgv
  dsimp only
  cases spawnSlot s.table <;> rfl

/-- **How a spawn ends.** A process that has failed is never collected. -/
theorem spawnPrepared_cases {argv : Option (List (List UInt8))} {r : Reply ℕ}
    (h : spawnPrepared s name args argv outcome = some (s', r)) :
    (TakesNone s s' ∧ ∃ code, r = .error code) ∨
    ∃ c fate, c < processCount ∧ s.current < processCount ∧
      Takes s s' c (.kept name args (argv.getD (rawArgsToArgv args))) fate ∧
      match fate with
      | .started _ => r = .done s.nextPid
      | .failed reaped => reaped = false ∧ ∃ code, r = .error code := by
  have hsame : TakesNone s s := ⟨rfl, rfl, rfl, .inl rfl⟩
  unfold spawnPrepared at h
  split_ifs at h with hc
  · obtain ⟨rfl, rfl⟩ := Prod.mk.inj (Option.some.inj h)
    exact .inl ⟨hsame, _, rfl⟩
  obtain ⟨⟨path, len⟩, -, h⟩ := Option.bind_eq_some_iff.mp h
  dsimp only at h
  cases hb : s.bootfs (path.slice 0 len) with
  | none =>
    rw [hb] at h
    obtain ⟨rfl, rfl⟩ := Prod.mk.inj (Option.some.inj h)
    exact .inl ⟨hsame, _, rfl⟩
  | some image =>
    have hspawn : spawnSlotFor s name args argv =
        processSpawnWithArgv s name args (argv.getD (rawArgsToArgv args)) s.currentPid := by
      cases argv <;> rfl
    simp only [hb, hspawn, processSpawnWithArgv_eq] at h
    cases hslot : spawnSlot s.table with
    | none =>
      simp only [hslot] at h
      obtain ⟨rfl, rfl⟩ := Prod.mk.inj (Option.some.inj h)
      exact .inl ⟨⟨rfl, rfl, rfl, .inr hslot⟩, _, rfl⟩
    | some c =>
      have hlt := (spawnSlot_eq_some hslot).1
      simp only [hslot, prepareProcess_eq] at h
      split_ifs at h with hcons
      · obtain ⟨rfl, rfl⟩ := Prod.mk.inj (Option.some.inj h)
        exact .inr ⟨c, .failed false, hlt, by omega,
          ⟨hslot, processSetState_failed .., rfl, rfl, rfl⟩, rfl, _, rfl⟩
      · cases outcome with
        | error fault =>
          obtain ⟨rfl, rfl⟩ := Prod.mk.inj (Option.some.inj h)
          exact .inr ⟨c, .failed false, hlt, by omega,
            ⟨hslot, processSetState_failed .., rfl, rfl, rfl⟩, rfl, _, rfl⟩
        | ok childPml4 =>
          obtain ⟨rfl, rfl⟩ := Prod.mk.inj (Option.some.inj h)
          refine .inr ⟨c, .started childPml4, hlt, by omega,
            ⟨hslot, processSetState_ready .., rfl, rfl, rfl⟩, ?_⟩
          show Reply.done _ = Reply.done _
          rw [processSetState_ready, Function.update_self]
          rfl

/-- **How `run` ends.** A process whose program is not found counts as collected. -/
theorem runProgram_cases {r : Except String ℕ}
    (h : runProgram s name args outcome = some (s', r)) :
    (TakesNone s s' ∧ ∃ line, r = .error line) ∨
    ∃ c fate, c < processCount ∧ Takes s s' c (.kept name args (rawArgsToArgv args)) fate ∧
      match fate with
      | .started _ => r = .ok s.nextPid
      | .failed reaped => (reaped = true ↔ s.bootfs (programFile name) = none) ∧
        ∃ line, r = .error line := by
  unfold runProgram processSpawn at h
  rw [processSpawnWithArgv_eq] at h
  cases hslot : spawnSlot s.table with
  | none =>
    simp only [hslot] at h
    obtain ⟨rfl, rfl⟩ := Prod.mk.inj (Option.some.inj h)
    exact .inl ⟨⟨rfl, rfl, rfl, .inr hslot⟩, _, rfl⟩
  | some c =>
    have hlt := (spawnSlot_eq_some hslot).1
    simp only [hslot] at h
    obtain ⟨⟨path, len⟩, hpath, h⟩ := Option.bind_eq_some_iff.mp h
    have hfile : path.slice 0 len = programFile name := by
      rcases programPath_eq name (Buf.zero 32) with ⟨-, output, he, hs⟩ | ⟨-, he⟩
      · rw [he] at hpath
        obtain ⟨rfl, rfl⟩ := Prod.mk.inj (Option.some.inj hpath)
        exact hs
      · rw [he] at hpath
        cases hpath
    simp only [hfile, prepareProcess_eq] at h
    cases hb : s.bootfs (programFile name) with
    | none =>
      simp only [hb] at h
      obtain ⟨rfl, rfl⟩ := Prod.mk.inj (Option.some.inj h)
      exact .inr ⟨c, .failed true, hlt, ⟨hslot, processFailUnwaited_new .., rfl, rfl, rfl⟩,
        by simp, _, rfl⟩
    | some image =>
      simp only [hb] at h
      cases outcome with
      | error fault =>
        obtain ⟨rfl, rfl⟩ := Prod.mk.inj (Option.some.inj h)
        exact .inr ⟨c, .failed false, hlt, ⟨hslot, processSetState_failed .., rfl, rfl, rfl⟩,
          by simp, _, rfl⟩
      | ok childPml4 =>
        obtain ⟨rfl, rfl⟩ := Prod.mk.inj (Option.some.inj h)
        refine .inr ⟨c, .started childPml4, hlt, ⟨hslot, processSetState_ready .., rfl, rfl, rfl⟩, ?_⟩
        show Except.ok _ = Except.ok _
        rw [processSetState_ready, Function.update_self]
        rfl

/-- A spawn is refused, or goes on with a name and arguments that fit. -/
theorem abiSpawn_cases {r : Reply ℕ} (h : abiSpawn s name args outcome = some (s', r)) :
    (s' = s ∧ ∃ code, r = .error code) ∨ name.length ≤ processNameMax ∧
      args.length ≤ processArgsMax ∧ spawnPrepared s name args none outcome = some (s', r) := by
  unfold abiSpawn at h
  cases hn : checkedAppSlice name with
  | none =>
    rw [hn] at h
    obtain ⟨rfl, rfl⟩ := Prod.mk.inj (Option.some.inj h)
    exact .inl ⟨rfl, _, rfl⟩
  | some name' =>
    obtain rfl := checkedAppSlice_eq hn
    simp only [hn, Bool.or_eq_true, decide_eq_true_eq] at h
    split_ifs at h with hbad hempty
    · obtain ⟨rfl, rfl⟩ := Prod.mk.inj (Option.some.inj h)
      exact .inl ⟨rfl, _, rfl⟩
    · obtain rfl := List.length_eq_zero_iff.mp hempty
      exact .inr ⟨by omega, by simp, by simpa using h⟩
    · cases ha : checkedAppSlice args with
      | none =>
        rw [ha] at h
        obtain ⟨rfl, rfl⟩ := Prod.mk.inj (Option.some.inj h)
        exact .inl ⟨rfl, _, rfl⟩
      | some args' =>
        obtain rfl := checkedAppSlice_eq ha
        simp only [ha] at h
        split_ifs at h with hlong
        · obtain ⟨rfl, rfl⟩ := Prod.mk.inj (Option.some.inj h)
          exact .inl ⟨rfl, _, rfl⟩
        · exact .inr ⟨by omega, by omega, h⟩

theorem abiSpawnArgv_cases {argv : List (List UInt8)} {r : Reply ℕ}
    (h : abiSpawnArgv s name argv outcome = some (s', r)) :
    (s' = s ∧ ∃ code, r = .error code) ∨ name.length ≤ processNameMax ∧
      argv.length ≤ processArgvCountMax ∧ ∃ raw, joinArgs argv [] = .ok raw ∧
        spawnPrepared s name raw (some argv) outcome = some (s', r) := by
  unfold abiSpawnArgv at h
  cases hn : checkedAppSlice name with
  | none =>
    rw [hn] at h
    obtain ⟨rfl, rfl⟩ := Prod.mk.inj (Option.some.inj h)
    exact .inl ⟨rfl, _, rfl⟩
  | some name' =>
    obtain rfl := checkedAppSlice_eq hn
    simp only [hn, Bool.or_eq_true, decide_eq_true_eq] at h
    split_ifs at h with hbad
    · obtain ⟨rfl, rfl⟩ := Prod.mk.inj (Option.some.inj h)
      exact .inl ⟨rfl, _, rfl⟩
    · cases hj : joinArgs argv [] with
      | error code =>
        rw [hj] at h
        obtain ⟨rfl, rfl⟩ := Prod.mk.inj (Option.some.inj h)
        exact .inl ⟨rfl, _, rfl⟩
      | ok raw =>
        rw [hj] at h
        exact .inr ⟨by omega, by omega, raw, rfl, h⟩

end Calls

/-! ## Runs -/

/-- What a step leaves of slot `c` in which it starts no process. -/
structure SameProcess (s s' : SpawnSys) (c : ℕ) : Prop where
  args_eq : s'.args c = s.args c
  pid : (s'.table c).pid = (s.table c).pid
  parentPid : (s'.table c).parentPid = (s.table c).parentPid
  waited : (s.table c).waited = true → (s'.table c).waited = true

section Steps

variable {s s' : SpawnSys} {c : ℕ}

theorem SameProcess.refl (s : SpawnSys) (c : ℕ) : SameProcess s s c := ⟨rfl, rfl, rfl, id⟩

theorem SameProcess.trans {s'' : SpawnSys} (h : SameProcess s s' c) (h' : SameProcess s' s'' c) :
    SameProcess s s'' c :=
  ⟨h'.args_eq.trans h.args_eq, h'.pid.trans h.pid, h'.parentPid.trans h.parentPid,
    fun hw => h'.waited (h.waited hw)⟩

theorem TakesNone.same (h : TakesNone s s') (c : ℕ) : SameProcess s s' c :=
  ⟨by rw [h.args_eq], by rw [h.table], by rw [h.table], fun hw => by rwa [h.table]⟩

theorem Takes.same {c' : ℕ} {new : ProcArgs} {fate : Fate} (h : Takes s s' c' new fate)
    (hne : c ≠ c') : SameProcess s s' c := by
  refine ⟨?_, ?_, ?_, fun hw => ?_⟩
  · rw [h.args_eq, Function.update_of_ne hne]
  · rw [h.table, Function.update_of_ne hne]
  · rw [h.table, Function.update_of_ne hne]
  · rwa [h.table, Function.update_of_ne hne]

/-- Each claim moves `NEXT_PID` on. -/
theorem nextPidAfter_ne (pid : ℕ) : nextPidAfter pid ≠ pid := by
  unfold nextPidAfter
  split_ifs <;> omega

/-- No process is started in slot `c`. -/
def Spares (s s' : SpawnSys) (c : ℕ) : Prop := s'.nextPid = s.nextPid ∨ spawnSlot s.table ≠ some c

theorem Takes.spares {c' : ℕ} {new : ProcArgs} {fate : Fate} (h : Takes s s' c' new fate)
    (hs : Spares s s' c) : c ≠ c' := by
  rintro rfl
  rcases hs with hp | hno
  · exact nextPidAfter_ne _ (h.nextPid.symm.trans hp)
  · exact hno h.slot

theorem spawnPrepared_same {name args : List UInt8} {argv : Option (List (List UInt8))}
    {outcome : Except PrepareFault ℕ} {r : Reply ℕ}
    (h : spawnPrepared s name args argv outcome = some (s', r)) (hs : Spares s s' c) :
    SameProcess s s' c := by
  rcases spawnPrepared_cases h with ⟨hnone, -⟩ | ⟨c', fate, -, -, ht, -⟩
  · exact hnone.same c
  · exact ht.same (ht.spares hs)

/-- A change of one slot that keeps whose it is. -/
theorem sameProcess_update {table : Table} {i : ℕ} {p : Process} (hs : s'.table = table)
    (ha : s'.args = s.args) (ht : table = Function.update s.table i p) (hpid : p.pid = (s.table i).pid)
    (hparent : p.parentPid = (s.table i).parentPid)
    (hw : (s.table i).waited = true → p.waited = true) : SameProcess s s' c := by
  subst hs
  rw [funext_iff] at ht
  by_cases hc : c = i
  · subst hc
    have := ht c
    rw [Function.update_self] at this
    exact ⟨by rw [ha], by rw [this, hpid], by rw [this, hparent], fun h => by rw [this]; exact hw h⟩
  · have := ht c
    rw [Function.update_of_ne hc] at this
    exact ⟨by rw [ha], by rw [this], by rw [this], fun h => by rwa [this]⟩

/-- **What a step leaves of a slot in which it starts no process.** -/
theorem spawnStep_same {act : SpawnAct} (h : spawnStep s act = some s') (hs : Spares s s' c) :
    SameProcess s s' c := by
  cases act with
  | spawn name args outcome =>
    obtain ⟨⟨_, r⟩, hr, rfl⟩ := Option.map_eq_some_iff.mp h
    rcases abiSpawn_cases hr with ⟨rfl, -⟩ | ⟨-, -, hp⟩
    · exact .refl _ c
    · exact spawnPrepared_same hp hs
  | spawnArgv name argv outcome =>
    obtain ⟨⟨_, r⟩, hr, rfl⟩ := Option.map_eq_some_iff.mp h
    rcases abiSpawnArgv_cases hr with ⟨rfl, -⟩ | ⟨-, -, raw, -, hp⟩
    · exact .refl _ c
    · exact spawnPrepared_same hp hs
  | run name args outcome =>
    obtain ⟨⟨_, r⟩, hr, rfl⟩ := Option.map_eq_some_iff.mp h
    rcases runProgram_cases hr with ⟨hnone, -⟩ | ⟨c', fate, -, ht, -⟩
    · exact hnone.same c
    · exact ht.same (ht.spares hs)
  | waitPid pid =>
    simp only [spawnStep] at h
    split at h <;> obtain rfl := Option.some.inj h
    · exact sameProcess_update rfl rfl rfl rfl rfl fun _ => rfl
    · exact .refl _ c
  | waitAny =>
    simp only [spawnStep] at h
    split at h <;> obtain rfl := Option.some.inj h
    · exact sameProcess_update rfl rfl rfl rfl rfl fun _ => rfl
    · exact .refl _ c
  | reap index =>
    obtain rfl := Option.some.inj h
    exact sameProcess_update rfl rfl rfl rfl rfl fun _ => rfl
  | block target =>
    obtain rfl := Option.some.inj h
    exact sameProcess_update rfl rfl rfl rfl rfl id
  | exit code =>
    obtain rfl := Option.some.inj h
    have hset : SameProcess s (s.setTable (processSetState s.table s.current .exited code)) c :=
      sameProcess_update rfl rfl rfl rfl rfl id
    exact ⟨rfl, (wakeWaitersFor_pid ..).trans hset.pid,
      (wakeWaitersFor_parentPid ..).trans hset.parentPid,
      fun hw => (wakeWaitersFor_waited ..).trans (hset.waited hw)⟩
  | preempt =>
    obtain rfl := Option.some.inj h
    exact sameProcess_update rfl rfl rfl rfl rfl id
  | switchTo next =>
    obtain rfl := Option.some.inj h
    exact sameProcess_update rfl rfl rfl rfl rfl id

end Steps

/-- The states of the runs from `s` in which no process is started in slot `c`. -/
inductive Later (c : ℕ) (s : SpawnSys) : SpawnSys → Prop
  | start : Later c s s
  | next {t u : SpawnSys} {act : SpawnAct} : Later c s t → spawnStep t act = some u →
      Spares t u c → Later c s u

/-- **A slot keeps its process** until a new one is started in it. -/
theorem Later.same {c : ℕ} {s t : SpawnSys} (h : Later c s t) : SameProcess s t c := by
  induction h with
  | start => exact .refl s c
  | next _ hstep hs ih => exact ih.trans (spawnStep_same hstep hs)

end Rymos
