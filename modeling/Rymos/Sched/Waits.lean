import Mathlib.Tactic
import Rymos.Sched.Pids

/-!
# Who waits for whom

* `Living`: a process with the pid is in the table and not over. `Scheduled.run_living`,
  `living_preempt`: it stays so, until it exits or fails.
* `Parked`: the code of a slot that is `Blocked` stands in the loop of its wait, and the slot says what
  for. **`Parked.step`**.
* `advance_wait`: how the code of a wait gets to where it blocks.
-/

namespace Rymos

open Transition

variable {s s' : State}

/-- A process with the pid is in the table, and neither `Exited` nor `Failed`. -/
def Living (s : State) (pid : ℕ) : Prop :=
  ∃ j < processCount, (s.table j).pid = pid ∧ (s.table j).state.alive

instance (s : State) (pid : ℕ) : Decidable (Living s pid) :=
  inferInstanceAs (Decidable (∃ j < processCount, _))

/-- The pid a wait is for, when it is for one. -/
def Waiting.awaits : Waiting → Option ℕ
  | .pid p | .run _ p => some p
  | _ => none

theorem target_eq_pid {w : Waiting} {p : ℕ} : w.target = .pid p ↔ w.awaits = some p := by
  cases w <;> simp [Waiting.target, Waiting.awaits]

/-- The wait of code that has blocked. -/
def Pc.parked : Pc → Option Waiting
  | .pick (.wait w) | .switch (.wait w) _ | .drain (.wait w) _ | .unmap (.wait w) _ _ => some w
  | _ => none

structure Parked (s : State) : Prop where
  parked : ∀ i < processCount, (s.table i).state = .blocked →
    ∃ w, (s.thread i).pc.parked = some w ∧ (s.table i).waitingFor = w.target
  targeted : ∀ i < processCount, ∀ w, (s.thread i).pc = .block w →
    (s.table i).waitingFor = w.target

theorem parked_boot {s : State} (h : Boot s) : Parked s := by
  obtain ⟨k, rfl⟩ := h
  refine ⟨fun i _ hb => (by cases hb), fun i _ w hw => ?_⟩
  simp only [boot] at hw
  split_ifs at hw <;> cases hw

section Advance

variable {a : Action} {pc pc' : Pc} {stmt : Stmt}

/-- How the code of a wait gets from its scan to where it blocks. -/
theorem advance_wait (h : advance s pc a = some (stmt, pc')) (w : Waiting) :
    (pc' = .find w → pc = .check w ∧ stmt = .skip ∧ w.collects s.table = none) ∧
    (pc' = .target w → pc = .find w ∧ stmt = .skip ∧ w.worthIt s.table = true) ∧
    (pc' = .block w → pc = .target w ∧ stmt = .waitTarget w.target) := by
  revert h
  fun_cases advance s pc a
  all_goals
    intro h
    try cases h
  all_goals try split_ifs
  all_goals refine ⟨fun h => ?_, fun h => ?_, fun h => ?_⟩
  all_goals first
    | (cases h; done)
    | (cases h; exact ⟨rfl, rfl⟩)
    | (cases h; exact ⟨rfl, rfl, ‹_›⟩)
    | (cases ‹Waiting› <;> first | (cases h; done) | (cases h; exact ⟨rfl, rfl, ‹_›⟩))
    | (cases ‹Yield› <;> cases h)
    | skip
  all_goals
    rcases afterClaim_cases s ‹Elf› (spawnSlot s.table) with hc | ⟨c, -, hc | hc⟩ <;>
      rw [hc] at h <;> cases h

/-- Code that has blocked stays in its loop. -/
theorem advance_parked (h : advance s pc a = some (stmt, pc')) (hp : pc.expects = .blocked) :
    pc'.parked = pc.parked := by
  revert h hp
  fun_cases advance s pc a
  all_goals
    intro h hp
    try cases h
  all_goals first
    | cases hp
    | (cases ‹Yield› <;> first | rfl | cases hp)

end Advance

/-! ## What a statement does to those who wait -/

section Run

variable {a : Action} {pc : Pc} {stmt : Stmt}

/-- Who is `Blocked` has just blocked, or was `Blocked` and is not woken. -/
theorem Scheduled.run_blocked (h : Scheduled s) (hadv : advance s s.here.pc a = some (stmt, pc))
    {i : ℕ} (hi : i < processCount) (hb : (((s.goto pc).run stmt).table i).state = .blocked) :
    (((s.goto pc).run stmt).table i).waitingFor = (s.table i).waitingFor ∧
    ((stmt = .block ∧ i = s.current) ∨ (s.table i).state = .blocked ∧
      ∀ code, stmt = .exit code → (s.table i).waitingFor ≠ .pid s.currentPid) := by
  have hwake : ∀ code, stmt = .exit code →
      (((s.goto pc).run stmt).table i).waitingFor = (s.table i).waitingFor ∧
        (((s.goto pc).run stmt).table i).waitingFor ≠ .pid s.currentPid := by
    rintro code rfl
    obtain ⟨hne, hsame⟩ := wakeWaitersFor_woken
      (processSetState s.table s.current .exited code) i s.currentPid hi hb
    have hw : (processSetState s.table s.current .exited code i).waitingFor =
        (s.table i).waitingFor := by
      rw [processSetState_apply]
      split_ifs <;> rfl
    have hrun : (((s.goto pc).run (.exit code)).table i).waitingFor = (s.table i).waitingFor :=
      (congrArg Process.waitingFor hsame).trans hw
    exact ⟨hrun, hne⟩
  have hold : (s.table i).state = .blocked ∨ stmt = .block ∧ i = s.current := by
    rcases h.state_run hadv hi with h₁ | ⟨-, -, h₁⟩ | ⟨_, -, -, h₁, ⟨-, rfl⟩ | ⟨_, -, rfl⟩⟩ |
      ⟨hc, -, ⟨hs, -⟩ | ⟨_, -, h₁⟩⟩ | ⟨_, -, -, h₁⟩ | ⟨-, -, h₁⟩
    · exact .inl (h₁ ▸ hb)
    all_goals first
      | exact .inr ⟨hs, hc⟩
      | (rw [hb] at h₁; cases h₁)
  have hsame : (((s.goto pc).run stmt).table i).waitingFor = (s.table i).waitingFor := by
    rw [run_waitingFor]
    have hinv := advance_inv hadv
    cases stmt with
    | claim slot =>
      cases slot with
      | none => rfl
      | some c =>
        dsimp only
        split_ifs with hic
        · have hl := run_state s pc (.claim (some c)) i
          dsimp only at hl
          rw [if_pos hic, hb] at hl
          cases hl
        · rfl
    | waitTarget target =>
      obtain ⟨w, hu, -⟩ := hinv
      dsimp only
      split_ifs with hic
      · rcases hold with hold | ⟨hs, -⟩
        · rw [hic.2, h.here hic.1, hu] at hold
          cases hold
        · cases hs
      · rfl
    | exit code => exact (run_waitingFor s pc (.exit code) i).symm.trans (hwake code rfl).1
    | _ => rfl
  refine ⟨hsame, hold.symm.imp_right fun hold => ⟨hold, fun code hs => ?_⟩⟩
  rw [← hsame]
  exact (hwake code hs).2

/-- A process stays in the table until it exits or fails. -/
theorem Scheduled.run_living (h : Scheduled s) (hadv : advance s s.here.pc a = some (stmt, pc))
    {p : ℕ} (hexit : ∀ code, stmt = .exit code → s.currentPid ≠ p)
    (hfail : ∀ c, stmt = .setState c .failed → (s.table c).pid ≠ p) (hl : Living s p) :
    Living ((s.goto pc).run stmt) p := by
  obtain ⟨j, hj, hp, ha⟩ := hl
  rcases run_pid_cases s pc stmt j with hpid | ⟨rfl, -⟩
  · refine ⟨j, hj, hpid.trans hp, ?_⟩
    rcases h.state_run hadv hj with h₁ | ⟨-, h₁, -⟩ | ⟨_, hs, -, h₁, ⟨-, rfl⟩ | ⟨_, -, rfl⟩⟩ |
      ⟨hc, -, ⟨-, h₁⟩ | ⟨code, hs, h₁⟩⟩ | ⟨_, -, -, h₁⟩ | ⟨-, -, h₁⟩
    · exact h₁ ▸ ha
    · exact absurd ha h₁
    · rw [h₁]; decide
    · exact absurd hp (hfail j hs)
    · rw [h₁]; decide
    · subst hc
      exact absurd hp (hexit code hs)
    · rw [h₁]; decide
    · rw [h₁]; decide
  · obtain ⟨-, hslot, -⟩ := advance_inv hadv
    exact absurd ha (spawnSlot_not_alive hslot.symm)

/-- Code that is sent back is that of a slot that is being loaded. -/
theorem Scheduled.run_resets (h : Scheduled s) (hadv : advance s s.here.pc a = some (stmt, pc))
    {i : ℕ} {q : Pc} (hr : stmt.resets i = some q) :
    (((s.goto pc).run stmt).table i).state = .loading := by
  have hinv := advance_inv hadv
  rw [run_state]
  cases stmt with
  | claim slot =>
    cases slot with
    | none => cases hr
    | some c =>
      simp only [Stmt.resets] at hr
      split_ifs at hr with hi
      exact if_pos hi
  | install l =>
    simp only [Stmt.resets] at hr
    split_ifs at hr with hi
    rw [hi]
    exact (h.loading s.current l.index (congrArg Pc.child hinv.1)).2
  | _ => cases hr

/-- What a slot that is not `Blocked` waits for is changed by its own code, or by a spawn into it. -/
theorem run_waitingFor_same (s : State) (pc : Pc) {stmt : Stmt} {i : ℕ} (hr : stmt.resets i = none)
    (hc : i ≠ s.current) (hb : (s.table i).state ≠ .blocked) :
    (((s.goto pc).run stmt).table i).waitingFor = (s.table i).waitingFor := by
  rw [run_waitingFor]
  cases stmt with
  | claim slot =>
    cases slot with
    | none => rfl
    | some c =>
      have hic : i ≠ c := fun hic => by simp [Stmt.resets, hic] at hr
      exact if_neg hic
  | waitTarget target => exact if_neg fun h => hc h.2
  | exit code =>
    have hset : processSetState s.table s.current .exited code i = s.table i := by
      rw [processSetState_apply, if_neg hc]
    dsimp only
    rw [wakeWaitersFor, hset, if_neg fun h => hb h.2.1]
  | _ => rfl

theorem Parked.run (h : Parked s) (hsched : Scheduled s)
    (hadv : advance s s.here.pc a = some (stmt, pc)) : Parked ((s.goto pc).run stmt) where
  parked := fun i hi hb => by
    obtain ⟨hw, ⟨rfl, rfl⟩ | ⟨hold, -⟩⟩ := hsched.run_blocked hadv hi hb
    · obtain ⟨w, hu, rfl⟩ := advance_inv hadv
      exact ⟨w, congrArg Pc.parked (run_pc_here s _ .block rfl), hw.trans (h.targeted _ hi w hu)⟩
    · obtain ⟨w, hp, hwt⟩ := h.parked i hi hold
      refine ⟨w, ?_, hw.trans hwt⟩
      cases hr : stmt.resets i with
      | some q => cases (hsched.run_resets hadv hr).symm.trans hb
      | none =>
        rw [run_pc, hr, Option.getD_none]
        split_ifs with hc
        · subst hc
          exact (advance_parked hadv ((hsched.here hi).symm.trans hold)).trans hp
        · exact hp
  targeted := fun i hi w hw => by
    rcases run_pc_cases s pc stmt i with hd | hd | ⟨-, hc, hpc⟩ | ⟨hr, hc, hpc⟩
    · rw [hd] at hw
      cases hw
    · rw [hd] at hw
      cases hw
    · rw [hpc] at hw
      obtain ⟨hu, rfl⟩ := (advance_wait hadv w).2.2 hw
      rw [run_waitingFor]
      subst hc
      exact if_pos ⟨hi, rfl⟩
    · rw [hpc] at hw
      rw [run_waitingFor_same s pc hr hc fun hb => ?_]
      · exact h.targeted i hi w hw
      · obtain ⟨w', hp, -⟩ := h.parked i hi hb
        rw [hw] at hp
        cases hp

end Run

/-! ## What a tick does to them -/

section Preempt

variable {next : ℕ} (hp : s.Preempts) (hn : pickNextReady s.table = some next)
include hp hn

theorem preempt_alive (i : ℕ) : ((s.interrupted.switchTo next).table i).state.alive ↔
    (s.table i).state.alive := by
  rcases state_preempt hp hn i with h | ⟨-, h, h'⟩ | ⟨-, h, h'⟩
  · rw [h]
  · rw [h, h']; decide
  · rw [h, h']; decide

theorem preempt_over (i : ℕ) : ((s.interrupted.switchTo next).table i).state.over ↔
    (s.table i).state.over := by
  rcases state_preempt hp hn i with h | ⟨-, h, h'⟩ | ⟨-, h, h'⟩
  · rw [h]
  · rw [h, h']; decide
  · rw [h, h']; decide

theorem preempt_blocked {i : ℕ} (hb : ((s.interrupted.switchTo next).table i).state = .blocked) :
    (s.table i).state = .blocked := by
  rcases state_preempt hp hn i with h | ⟨-, -, h⟩ | ⟨-, -, h⟩
  · exact h ▸ hb
  · cases h.symm.trans hb
  · cases h.symm.trans hb

theorem living_preempt {p : ℕ} (hl : Living s p) : Living (s.interrupted.switchTo next) p := by
  obtain ⟨j, hj, hpid, ha⟩ := hl
  exact ⟨j, hj, (preempt_same (·.pid) s next j fun _ _ => rfl).trans hpid,
    (preempt_alive hp hn j).mpr ha⟩

theorem Parked.preempt (h : Parked s) : Parked (s.interrupted.switchTo next) := by
  have hw : ∀ i, ((s.interrupted.switchTo next).table i).waitingFor = (s.table i).waitingFor :=
    fun i => preempt_same (·.waitingFor) s next i fun _ _ => rfl
  have hpc : ∀ i, ((s.interrupted.switchTo next).thread i).pc = (s.thread i).pc := interrupted_pc s
  refine ⟨fun i hi hb => ?_, fun i hi w hu => ?_⟩
  · rw [hw, hpc]
    exact h.parked i hi (preempt_blocked hp hn hb)
  · rw [hw]
    exact h.targeted i hi w (hpc i ▸ hu)

end Preempt

theorem Parked.step (h : Parked s) (hsched : Scheduled s) {a : Action} (hs : step s a = some s') :
    Parked s' := by
  rcases step_cases hs with ⟨-, -, rfl⟩ | ⟨-, -, hp, next, hn, rfl⟩ | ⟨-, -, rfl⟩ |
    ⟨-, -, stmt, pc, hadv, rfl⟩
  · exact h
  · exact h.preempt hp hn
  · exact ⟨fun i hi hb => (finishIrq_pc s i).symm ▸ h.parked i hi hb,
      fun i hi w hu => h.targeted i hi w (finishIrq_pc s i ▸ hu)⟩
  · exact h.run hsched hadv

end Rymos
