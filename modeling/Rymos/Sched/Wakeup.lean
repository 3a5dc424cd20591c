import Mathlib.Tactic
import Rymos.Sched.Waits

/-!
# No lost wakeup

* `Timely`: no process exits or fails while another has looked for its status and is not yet `Blocked`
  on it; no wait goes on when the table still has the zombie of a status that was collected.
* `Awake`: the invariant. **`Awake.step`**.
* **`noLostWakeup_of_reach`**: who is `Blocked` on a pid will be woken. `not_noLostWakeup_lateRun`: a tick
  between the look and the block.
-/

namespace Rymos

open Transition

variable {s s' : State}

/-- A process that is `Blocked` on a pid waits for a process that has not ended. -/
def NoLostWakeup (s : State) : Prop :=
  ∀ i < processCount, ∀ p, (s.table i).state = .blocked → (s.table i).waitingFor = .pid p → Living s p

/-- The pid that code which has not found a status is about to block on. -/
def Pc.about : Pc → Option ℕ
  | .find w | .target w | .block w => w.awaits
  | _ => none

/-- The pid a process is about to look for in the table. -/
def Pc.finds : Pc → Option ℕ
  | .find w => w.awaits
  | _ => none

/-- The pid of the process that a statement of the running code ends. -/
def State.ends (s : State) : Option ℕ :=
  match s.here.pc with
  | .exited _ => some s.currentPid
  | .fail c _ => some (s.table c).pid
  | _ => none

/-- Somebody is about to block on the pid. -/
def Missing (s : State) (p : ℕ) : Prop :=
  ∃ i < processCount, (s.thread i).pc.about = some p

instance (s : State) (p : ℕ) : Decidable (Missing s p) :=
  inferInstanceAs (Decidable (∃ i < processCount, _))

/-- Somebody is `Blocked` on the pid. -/
def BlockedOn (s : State) (p : ℕ) : Prop :=
  ∃ i < processCount, (s.table i).state = .blocked ∧ (s.table i).waitingFor = .pid p

instance (s : State) (p : ℕ) : Decidable (BlockedOn s p) :=
  inferInstanceAs (Decidable (∃ i < processCount, _))

/-- No process ends while somebody is about to block on it, or fails while somebody is `Blocked` on it. -/
def EndsSeen (s : State) : Prop :=
  ∀ p ∈ s.ends, ¬ Missing s p ∧ (s.here.pc.child.isSome → ¬ BlockedOn s p)

/-- What a wait finds in the table is not a zombie whose status was collected. -/
def FindsFresh (s : State) : Prop :=
  ∀ p ∈ s.here.pc.finds, ∀ c ∈ findProcessIndexByPid s.table p,
    ¬ ((s.table c).waited = true ∧ (s.table c).state.over)

def Timely (s : State) (a : Action) : Prop :=
  Steady s a ∧ (a ≠ .tick → s.here.irq = false → EndsSeen s ∧ FindsFresh s)

instance decidableTimely (s : State) (a : Action) : Decidable (Timely s a) := by
  unfold Timely EndsSeen FindsFresh
  infer_instance

structure Awake (s : State) : Prop where
  unseen : ∀ i < processCount, ∀ p, (s.thread i).pc.finds = some p → ∀ j < processCount,
    (s.table j).pid = p → (s.table j).waited = false → ¬ (s.table j).state.over
  found : ∀ i < processCount, ∀ p, (s.thread i).pc.finds = none → (s.thread i).pc.about = some p →
    Living s p
  blocked : NoLostWakeup s

theorem awake_boot {s : State} (h : Boot s) : Awake s := by
  obtain ⟨k, rfl⟩ := h
  have hpc : ∀ i p, ((boot k).thread i).pc.about ≠ some p := by
    intro i p
    simp only [boot]
    split_ifs <;> exact (Option.some_ne_none p).symm
  have habout : ∀ i p, ((boot k).thread i).pc.finds = some p →
      ((boot k).thread i).pc.about = some p := by
    intro i p hp
    simp only [boot] at hp
    split_ifs at hp <;> cases hp
  exact {
    unseen := fun i _ p hp => absurd (habout i p hp) (hpc i p)
    found := fun i _ p _ ha => absurd ha (hpc i p)
    blocked := fun i _ p hb => by cases hb }

section Run

variable {a : Action} {pc : Pc} {stmt : Stmt}

theorem finds_eq_some {q : Pc} {p : ℕ} (h : q.finds = some p) :
    ∃ w, q = .find w ∧ w.awaits = some p := by
  cases q with
  | find w => exact ⟨w, rfl, h⟩
  | _ => cases h

theorem about_eq_some {q : Pc} {p : ℕ} (h : q.about = some p) (hf : q.finds = none) :
    ∃ w, (q = .target w ∨ q = .block w) ∧ w.awaits = some p := by
  cases q with
  | find w => cases h.symm.trans hf
  | target w => exact ⟨w, .inl rfl, h⟩
  | block w => exact ⟨w, .inr rfl, h⟩
  | _ => cases h

/-- A wait for a pid scans for it. -/
theorem awaits_collects {w : Waiting} {p : ℕ} (h : w.awaits = some p) (table : Table) :
    w.collects table = processWaitByPid table p ∧
      w.worthIt table = (findProcessIndexByPid table p).isSome := by
  cases w <;> cases h <;> exact ⟨rfl, rfl⟩

/-- The places from which a statement ends a process. -/
theorem ends_of_run (hadv : advance s s.here.pc a = some (stmt, pc)) {p : ℕ} :
    (∀ code, stmt = .exit code → s.currentPid = p → s.ends = some p) ∧
    (∀ c, stmt = .setState c .failed → (s.table c).pid = p →
      s.ends = some p ∧ s.here.pc.child.isSome) := by
  have hinv := advance_inv hadv
  constructor
  · rintro code rfl rfl
    rw [State.ends, hinv.1]
  · rintro c rfl rfl
    rcases hinv with ⟨reap, hu, -⟩ | ⟨-, hs, -⟩
    · rw [State.ends, hu]
      exact ⟨rfl, rfl⟩
    · cases hs

/-- A process that somebody is about to block on, or is `Blocked` on, stays. -/
theorem Awake.living (hsched : Scheduled s) (hadv : advance s s.here.pc a = some (stmt, pc))
    (hg : EndsSeen s) {p : ℕ} (hl : Living s p) (hw : Missing s p ∨ BlockedOn s p ∧
      ∀ code, stmt = .exit code → s.currentPid ≠ p) : Living ((s.goto pc).run stmt) p := by
  obtain ⟨hexit, hfail⟩ := ends_of_run (p := p) hadv
  refine hsched.run_living hadv (fun code hs hp => ?_) (fun c hs hp => ?_) hl
  · rcases hw with hw | ⟨-, hw⟩
    · exact (hg p (hexit code hs hp)).1 hw
    · exact hw code hs hp
  · obtain ⟨he, hc⟩ := hfail c hs hp
    rcases hw with hw | ⟨hw, -⟩
    · exact (hg p he).1 hw
    · exact (hg p he).2 hc hw

/-- A status that was missing when somebody looked is still missing. -/
theorem run_unseen (hsched : Scheduled s) (hadv : advance s s.here.pc a = some (stmt, pc))
    (hg : EndsSeen s) {p : ℕ} (hm : Missing s p)
    (h : ∀ j < processCount, (s.table j).pid = p → (s.table j).waited = false →
      ¬ (s.table j).state.over) {j : ℕ} (hj : j < processCount)
    (hp : (((s.goto pc).run stmt).table j).pid = p)
    (hw : (((s.goto pc).run stmt).table j).waited = false) :
    ¬ (((s.goto pc).run stmt).table j).state.over := by
  obtain ⟨hexit, hfail⟩ := ends_of_run (p := p) hadv
  have hw' : stmt ≠ .claim (some j) → (s.table j).waited = false := by
    intro hc
    rw [run_waited] at hw
    cases stmt with
    | claim slot =>
      cases slot with
      | none => exact hw
      | some c =>
        have hjc : j ≠ c := fun hjc => hc (by rw [hjc])
        dsimp only at hw
        rwa [if_neg hjc] at hw
    | setWaited c =>
      dsimp only at hw
      split_ifs at hw
      exact hw
    | _ => exact hw
  have hpid : stmt ≠ .claim (some j) → (s.table j).pid = p := fun hc =>
    ((run_pid_cases s pc stmt j).resolve_right fun h => hc h.1) ▸ hp
  rcases hsched.state_run hadv hj with h₁ | ⟨rfl, -, h₁⟩ | ⟨_, hs, -, h₁, ⟨-, rfl⟩ | ⟨_, -, rfl⟩⟩ |
    ⟨rfl, -, ⟨-, h₁⟩ | ⟨code, hs, -⟩⟩ | ⟨_, -, -, h₁⟩ | ⟨-, -, h₁⟩
  · by_cases hc : stmt = .claim (some j)
    · subst hc
      have hl := run_state s pc (.claim (some j)) j
      dsimp only at hl
      rw [hl, if_pos rfl]
      decide
    · rw [h₁]
      exact h j hj (hpid hc) (hw' hc)
  · rw [h₁]; decide
  · rw [h₁]; decide
  · exact absurd hm (hg p (hfail j hs (hpid (by rw [hs]; nofun))).1).1
  · rw [h₁]; decide
  · exact absurd hm (hg p (hexit code hs (hpid (by rw [hs]; nofun)))).1
  · rw [h₁]; decide
  · rw [h₁]; decide

theorem about_of_finds {q : Pc} {p : ℕ} (h : q.finds = some p) : q.about = some p := by
  cases q with
  | find w => exact h
  | _ => cases h

/-- The place of a slot's code that is about to block: it was there, or it is the running code. -/
theorem run_about {i p : ℕ} (h : (((s.goto pc).run stmt).thread i).pc.about = some p) :
    i ≠ s.current ∧ (((s.goto pc).run stmt).thread i).pc = (s.thread i).pc ∨
      i = s.current ∧ (((s.goto pc).run stmt).thread i).pc = pc := by
  rcases run_pc_cases s pc stmt i with hd | hd | ⟨-, hc, hpc⟩ | ⟨-, hc, hpc⟩
  · rw [hd] at h
    cases h
  · rw [hd] at h
    cases h
  · exact .inr ⟨hc, hpc⟩
  · exact .inl ⟨hc, hpc⟩

theorem Awake.run_unseen (h : Awake s) (hsched : Scheduled s)
    (hadv : advance s s.here.pc a = some (stmt, pc)) (hg : EndsSeen s) {i p : ℕ}
    (hi : i < processCount) (hp : (((s.goto pc).run stmt).thread i).pc.finds = some p) :
    ∀ j < processCount, (((s.goto pc).run stmt).table j).pid = p →
      (((s.goto pc).run stmt).table j).waited = false →
      ¬ (((s.goto pc).run stmt).table j).state.over := by
  intro j hj hpj hw
  rcases run_about (about_of_finds hp) with ⟨-, hpc⟩ | ⟨-, hpc⟩ <;> rw [hpc] at hp
  · exact Rymos.run_unseen hsched hadv hg ⟨i, hi, about_of_finds hp⟩ (h.unseen i hi p hp) hj hpj hw
  · -- the scan has just missed it
    obtain ⟨w, rfl, hwp⟩ := finds_eq_some hp
    obtain ⟨-, rfl, hnone⟩ := (advance_wait hadv w).1 rfl
    rw [(awaits_collects hwp s.table).1] at hnone
    exact processWaitByPid_eq_none hnone hj hpj hw

theorem Awake.run_found (h : Awake s) (hsched : Scheduled s)
    (hadv : advance s s.here.pc a = some (stmt, pc)) (hg : EndsSeen s) (hf : FindsFresh s) {i p : ℕ}
    (hi : i < processCount) (hp : (((s.goto pc).run stmt).thread i).pc.finds = none)
    (ha : (((s.goto pc).run stmt).thread i).pc.about = some p) :
    Living ((s.goto pc).run stmt) p := by
  rcases run_about ha with ⟨-, hpc⟩ | ⟨rfl, hpc⟩ <;> rw [hpc] at hp ha
  · exact Awake.living hsched hadv hg (h.found i hi p hp ha) (.inl ⟨i, hi, ha⟩)
  · obtain ⟨w, rfl | rfl, hwp⟩ := about_eq_some ha hp
    · -- what has been found is no zombie
      obtain ⟨hu, rfl, hfound⟩ := (advance_wait hadv w).2.1 rfl
      rw [(awaits_collects hwp s.table).2] at hfound
      obtain ⟨c, hc⟩ := Option.isSome_iff_exists.mp hfound
      obtain ⟨hlt, hpid, hne⟩ := findProcessIndexByPid_eq_some hc
      have hfinds : s.here.pc.finds = some p := by rw [hu]; exact hwp
      refine ⟨c, hlt, hpid, hne, fun hover => hf p hfinds c hc ⟨?_, hover⟩⟩
      by_contra hw
      exact h.unseen s.current hi p hfinds c hlt hpid (by simpa using hw) hover
    · obtain ⟨hu, -⟩ := (advance_wait hadv w).2.2 rfl
      have habout : (s.thread s.current).pc.about = some p :=
        (congrArg Pc.about (show (s.thread s.current).pc = .target w from hu)).trans hwp
      have hfinds : (s.thread s.current).pc.finds = none := congrArg Pc.finds hu
      exact Awake.living hsched hadv hg (h.found s.current hi p hfinds habout)
        (.inl ⟨s.current, hi, habout⟩)

theorem Awake.run_blocked (h : Awake s) (hsched : Scheduled s) (hpark : Parked s)
    (hadv : advance s s.here.pc a = some (stmt, pc)) (hg : EndsSeen s) :
    NoLostWakeup ((s.goto pc).run stmt) := by
  intro i hi p hb hp
  obtain ⟨hw, ⟨rfl, rfl⟩ | ⟨hold, hne⟩⟩ := hsched.run_blocked hadv hi hb <;> rw [hw] at hp
  · obtain ⟨w, hu, -⟩ := advance_inv hadv
    have hwp : w.awaits = some p := target_eq_pid.mp ((hpark.targeted s.current hi w hu).symm.trans hp)
    have habout : (s.thread s.current).pc.about = some p :=
      (congrArg Pc.about (show (s.thread s.current).pc = .block w from hu)).trans hwp
    have hfinds : (s.thread s.current).pc.finds = none := congrArg Pc.finds hu
    exact Awake.living hsched hadv hg (h.found s.current hi p hfinds habout)
      (.inl ⟨s.current, hi, habout⟩)
  · refine Awake.living hsched hadv hg (h.blocked i hi p hold hp)
      (.inr ⟨⟨i, hi, hold, hp⟩, fun code hs hpid => hne code hs ?_⟩)
    rw [hp, hpid]

end Run

theorem Awake.preempt (h : Awake s) {next : ℕ} (hp : s.Preempts)
    (hn : pickNextReady s.table = some next) : Awake (s.interrupted.switchTo next) := by
  have hpc : ∀ i, ((s.interrupted.switchTo next).thread i).pc = (s.thread i).pc := interrupted_pc s
  have hpid : ∀ j, ((s.interrupted.switchTo next).table j).pid = (s.table j).pid :=
    fun j => preempt_same (·.pid) s next j fun _ _ => rfl
  have hw : ∀ j, ((s.interrupted.switchTo next).table j).waited = (s.table j).waited :=
    fun j => preempt_same (·.waited) s next j fun _ _ => rfl
  have hfor : ∀ j, ((s.interrupted.switchTo next).table j).waitingFor = (s.table j).waitingFor :=
    fun j => preempt_same (·.waitingFor) s next j fun _ _ => rfl
  exact {
    unseen := fun i hi p hf j hj hpj hwj => by
      rw [hpc] at hf
      rw [hpid] at hpj
      rw [hw] at hwj
      rw [preempt_over hp hn]
      exact h.unseen i hi p hf j hj hpj hwj
    found := fun i hi p hf ha => by
      rw [hpc] at hf ha
      exact living_preempt hp hn (h.found i hi p hf ha)
    blocked := fun i hi p hb hpi => by
      rw [hfor] at hpi
      exact living_preempt hp hn (h.blocked i hi p (preempt_blocked hp hn hb) hpi) }

/-- **One step wakes whom it has to.** -/
theorem Awake.step (h : Awake s) (hsched : Scheduled s) (hpark : Parked s) {a : Action}
    (hg : Timely s a) (hs : step s a = some s') : Awake s' := by
  rcases step_cases hs with ⟨-, -, rfl⟩ | ⟨-, -, hp, next, hn, rfl⟩ | ⟨-, -, rfl⟩ |
    ⟨ha, hirq, stmt, pc, hadv, rfl⟩
  · exact h
  · exact h.preempt hp hn
  · have hpc := finishIrq_pc s
    exact ⟨fun i hi p hf => h.unseen i hi p (hpc i ▸ hf),
      fun i hi p hf ha => h.found i hi p (hpc i ▸ hf) (hpc i ▸ ha), h.blocked⟩
  · obtain ⟨hseen, hfresh⟩ := hg.2 ha hirq
    exact ⟨fun i hi p hf => h.run_unseen hsched hadv hseen hi hf,
      fun i hi p hf ha => h.run_found hsched hadv hseen hfresh hi hf ha,
      h.run_blocked hsched hpark hadv hseen⟩

/-- **In a timely run no wakeup is lost.** -/
theorem noLostWakeup_of_reach {s : State} (h : Reach Boot Timely step s) : NoLostWakeup s := by
  have hall := h.inv (I := fun s => Scheduled s ∧ Parked s ∧ Awake s)
    (fun _ hb => ⟨scheduled_boot hb, parked_boot hb, awake_boot hb⟩)
    fun _ _ _ ⟨hc, hp, hk⟩ hg hs => ⟨hc.step hg.1 hs, hp.step hc hs, hk.step hc hp hg hs⟩
  exact hall.2.2.blocked

/-- A process has spawned a second one and waits for it: it has looked, and is about to block. -/
def lookRun : List Action :=
  loadRun ++ [.tick, .next, .spawn bareElf, .page 8] ++ List.replicate 7 .next ++ [.wait 2] ++
    List.replicate 3 .next

/-- It blocks. -/
def blockRun : List Action := lookRun ++ [.next]

theorem noLostWakeup_of_reach_blockRun : ∃ s, exec step (boot 1) blockRun = some s ∧
    ((s.table 0).state = .blocked ∧ (s.table 0).waitingFor = .pid 2) ∧ NoLostWakeup s := by
  have hrun : (exec step (boot 1) blockRun).map (fun s =>
      ((s.table 0).state, (s.table 0).waitingFor)) = some (.blocked, .pid 2) := by decide +kernel
  obtain ⟨s, hs, hv⟩ := Option.map_eq_some_iff.mp hrun
  have hgood : AllGood Timely step (boot 1) blockRun := by decide +kernel
  exact ⟨s, hs, Prod.mk.inj hv, noLostWakeup_of_reach (reach_of_exec (.start ⟨1, rfl⟩) hgood hs)⟩

/-- The pid a program asks for. -/
def Action.asks : Action → Option ℕ
  | .wait pid => some pid
  | _ => none

/-- No pid is asked for twice. -/
def AsksOnce (as : List Action) : Prop := (as.filterMap Action.asks).Nodup

/-- A tick lets the second process run to its end first. -/
def lateRun : List Action := lookRun ++ [.tick] ++ exitRun ++ [.next, .next]

/-- **The first process then blocks on a process that has exited.** -/
theorem not_noLostWakeup_lateRun :
    ¬ ∀ as s, AsksOnce as → exec step (boot 1) as = some s → NoLostWakeup s := by
  intro hall
  have hrun : (exec step (boot 1) lateRun).map (fun s => ((s.table 0).state,
      (s.table 0).waitingFor, decide (Living s 2))) = some (.blocked, .pid 2, false) := by
    decide +kernel
  obtain ⟨s, hs, hv⟩ := Option.map_eq_some_iff.mp hrun
  simp only [Prod.mk.injEq, decide_eq_false_iff_not] at hv
  have hasks : lateRun.filterMap Action.asks = [2] := by decide +kernel
  have honce : AsksOnce lateRun := by
    rw [AsksOnce, hasks]
    exact List.nodup_singleton 2
  exact hv.2.2 (hall lateRun s honce hs 0 (by decide) 2 hv.1 hv.2.1)

end Rymos
