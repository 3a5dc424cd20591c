import Mathlib.Tactic
import Rymos.Sched.Ledger

/-!
# Parents and children

* `Family`: a wait for any child is for those of the slot that waits, and a slot that is being loaded is
  a child of the slot whose code loads it. **`Family.step`**.
* `Family.not_loading`: a process that waits has no child that is being loaded.
-/

namespace Rymos

open Transition

variable {s s' : State} {g : Ledger}

/-- The pid whose children the code waits for. -/
def Waiting.parent : Waiting → Option ℕ
  | .anyChild q => some q
  | _ => none

def Pc.parent : Pc → Option ℕ
  | .check w | .mark w _ | .read w _ | .find w | .target w | .block w => w.parent
  | .pick (.wait w) | .switch (.wait w) _ | .drain (.wait w) _ | .unmap (.wait w) _ _ => w.parent
  | _ => none

structure Family (s : State) : Prop where
  nextPid : s.nextPid ≠ 0
  pids : ∀ i < processCount, (s.table i).state ≠ .empty → (s.table i).pid ≠ 0
  console : (s.table processCount).pid = 0
  asks : ∀ i q, (s.thread i).pc.parent = some q → i < processCount ∧ q = (s.table i).pid
  loaders : ∀ i < processCount, (s.thread i).pc.child ≠ none → (s.table i).state.schedulable
  loading : ∀ c < processCount, (s.table c).state = .loading →
    ∃ i ≤ processCount, (s.thread i).pc.child = some c ∧ (s.table c).parentPid = (s.table i).pid

/-- **A process that waits for its children is not loading one.** -/
theorem Family.not_loading (h : Family s) (hdist : Distinct s) {i q c : ℕ}
    (hi : (s.thread i).pc.parent = some q) (he : (s.table i).state ≠ .empty) (hc : c < processCount)
    (hp : (s.table c).parentPid = q) : (s.table c).state ≠ .loading := by
  intro hl
  obtain ⟨k, hk, hchild, hpk⟩ := h.loading c hc hl
  obtain ⟨hlt, rfl⟩ := h.asks i q hi
  have hpid : (s.table k).pid = (s.table i).pid := hpk.symm.trans hp
  rcases Nat.lt_or_ge k processCount with hk' | hk'
  · have hs := h.loaders k hk' (by rw [hchild]; nofun)
    obtain rfl := hdist k hk' i hlt (by rcases hs with hs | hs | hs <;> rw [hs] <;> decide) he hpid
    cases hpc : (s.thread k).pc <;> rw [hpc] at hi hchild <;> first | cases hi | cases hchild
  · obtain rfl : k = processCount := le_antisymm hk hk'
    rw [h.console] at hpid
    exact h.pids i hlt he hpid.symm

section Run

variable {a : Action} {pc : Pc} {stmt : Stmt}

/-- A program asks for its own children. -/
theorem advance_parent {p : Pc} (h : advance s p a = some (stmt, pc)) {q : ℕ}
    (hq : pc.parent = some q) : p.parent = some q ∨ s.inProcess ∧ q = s.currentPid := by
  revert h hq
  fun_cases advance s p a
  all_goals
    intro h
    try cases h
  all_goals try split_ifs
  all_goals intro hq
  all_goals first
    | exact .inl hq
    | (cases hq; done)
    | (cases hq; exact .inr ⟨‹_›, rfl⟩)
    | (cases ‹Waiting› <;> first | exact .inl hq | cases hq)
    | (cases ‹Yield› <;> exact .inl hq)
    | skip
  -- a spawn
  rcases afterClaim_cases s ‹Elf› (spawnSlot s.table) with h | ⟨c, -, h | h⟩ <;> rw [h] at hq <;>
    cases hq

/-- A loader is done with its slot once it has stored the state of it. -/
theorem advance_child_stays {p : Pc} (h : advance s p a = some (stmt, pc)) {c : ℕ}
    (hc : p.child = some c) : pc.child = some c ∨ ∃ state, stmt = .setState c state := by
  revert h hc
  fun_cases advance s p a
  all_goals
    intro h
    try cases h
  all_goals try split_ifs
  all_goals intro hc
  all_goals first
    | exact .inl hc
    | (cases hc; done)
    | (cases hc; exact .inr ⟨_, rfl⟩)

theorem run_nextPid_ne_zero (s : State) (pc : Pc) (stmt : Stmt) (h : s.nextPid ≠ 0) :
    ((s.goto pc).run stmt).nextPid ≠ 0 := by
  have hafter : nextPidAfter s.nextPid ≠ 0 := by
    rw [nextPidAfter]
    split_ifs with h0
    · exact Nat.one_ne_zero
    · exact h0
  fun_cases State.run (s.goto pc) stmt
  all_goals first
    | exact h
    | exact hafter

/-- A spawn does not take the slot of the running process. -/
theorem Scheduled.claim_ne (h : Scheduled s) {c : ℕ}
    (hadv : advance s s.here.pc a = some (.claim (some c), pc)) : c ≠ s.current := by
  rintro rfl
  obtain ⟨hu, hslot, -⟩ := advance_inv hadv
  have hlt := (spawnSlot_eq_some hslot.symm).1
  refine absurd ?_ (spawnSlot_not_alive hslot.symm)
  rw [h.here hlt, hu]
  decide

theorem claim_of_resets {i c : ℕ} (h : stmt.resets i = none) : stmt = .claim (some c) → c ≠ i := by
  rintro rfl rfl
  simp [Stmt.resets] at h

theorem Family.run_asks (h : Family s) (hsched : Scheduled s)
    (hadv : advance s s.here.pc a = some (stmt, pc)) {i q : ℕ}
    (hq : (((s.goto pc).run stmt).thread i).pc.parent = some q) :
    i < processCount ∧ q = (((s.goto pc).run stmt).table i).pid := by
  have hpid : stmt ≠ .claim (some i) →
      (((s.goto pc).run stmt).table i).pid = (s.table i).pid := fun hne =>
    (run_pid_cases s pc stmt i).resolve_right fun hc => hne hc.1
  rcases run_pc_cases s pc stmt i with hp | hp | ⟨-, rfl, hp⟩ | ⟨hr, -, hp⟩ <;> rw [hp] at hq
  · cases hq
  · cases hq
  · rw [hpid (by rintro rfl; exact hsched.claim_ne hadv rfl)]
    rcases advance_parent hadv hq with hq | ⟨hin, hq⟩
    · exact h.asks s.current q hq
    · exact ⟨hin, hq⟩
  · rw [hpid fun hc => claim_of_resets hr hc rfl]
    exact h.asks i q hq

theorem Family.run_loaders (h : Family s) (hsched : Scheduled s)
    (hsched' : Scheduled ((s.goto pc).run stmt)) (hadv : advance s s.here.pc a = some (stmt, pc))
    {i : ℕ} (hi : i < processCount) (hc : (((s.goto pc).run stmt).thread i).pc.child ≠ none) :
    (((s.goto pc).run stmt).table i).state.schedulable := by
  rcases run_pc_cases s pc stmt i with hp | hp | ⟨-, rfl, hp⟩ | ⟨hr, hne, hp⟩ <;> rw [hp] at hc
  · exact absurd rfl hc
  · exact absurd rfl hc
  · -- a loader goes on running
    have hcur : ((s.goto pc).run stmt).current = s.current := by
      rw [run_current]
      cases stmt with
      | switchTo next =>
        obtain ⟨y, -, rfl⟩ := advance_inv hadv
        exact absurd rfl hc
      | _ => rfl
    have hhere := hsched'.here (by rw [State.inProcess, hcur]; exact hi)
    rw [State.here, hcur, hp] at hhere
    rw [hhere]
    cases pc <;> first | exact .inr (.inl rfl) | exact absurd rfl hc
  · have hold := h.loaders i hi hc
    rcases hsched.state_run hadv hi with h₁ | ⟨hcl, -⟩ | ⟨_, -, h₁, -⟩ | ⟨hcur, -⟩ | ⟨_, -, -, h₁⟩ |
      ⟨-, -, h₁⟩
    · exact h₁ ▸ hold
    · exact absurd rfl (claim_of_resets hr hcl)
    · rw [h₁] at hold
      exact absurd hold (by decide)
    · exact absurd hcur hne
    · rw [h₁]; decide
    · rw [h₁]; decide

/-- Code that is sent back is not that of a process that can be scheduled. -/
theorem Scheduled.resets_not_schedulable (h : Scheduled s)
    (hadv : advance s s.here.pc a = some (stmt, pc)) {i : ℕ} {q : Pc}
    (hr : stmt.resets i = some q) : i < processCount ∧ ¬ (s.table i).state.schedulable := by
  have hinv := advance_inv hadv
  cases stmt with
  | claim slot =>
    cases slot with
    | none => cases hr
    | some c =>
      simp only [Stmt.resets] at hr
      split_ifs at hr with hi
      subst hi
      refine ⟨(spawnSlot_eq_some hinv.2.1.symm).1, fun hs => ?_⟩
      exact spawnSlot_not_alive hinv.2.1.symm (schedulable_not_over hs)
  | install l =>
    simp only [Stmt.resets] at hr
    split_ifs at hr with hi
    obtain ⟨hlt, hl⟩ := h.loading s.current l.index (congrArg Pc.child hinv.1)
    rw [hi, hl]
    exact ⟨hlt, by decide⟩
  | _ => cases hr

theorem run_parentPid_same (s : State) (pc : Pc) {stmt : Stmt} {i : ℕ} (hc : stmt ≠ .claim (some i)) :
    (((s.goto pc).run stmt).table i).parentPid = (s.table i).parentPid := by
  rw [run_parentPid]
  cases stmt with
  | claim slot =>
    cases slot with
    | none => rfl
    | some c =>
      have hic : i ≠ c := fun hic => hc (by rw [hic])
      exact if_neg hic
  | _ => rfl

theorem Scheduled.run_claim (h : Scheduled s) {c : ℕ}
    (hadv : advance s s.here.pc a = some (.claim (some c), pc)) :
    (((s.goto pc).run (.claim (some c))).thread s.current).pc.child = some c ∧
      (((s.goto pc).run (.claim (some c))).table c).parentPid =
        (((s.goto pc).run (.claim (some c))).table s.current).pid := by
  have hne : s.current ≠ c := (h.claim_ne hadv).symm
  obtain ⟨-, -, elf, -, hpc⟩ := advance_inv hadv
  constructor
  · rw [run_pc_here s pc (.claim (some c)) (if_neg hne), hpc, afterClaim]
    split_ifs <;> rfl
  · have hparent := run_parentPid s pc (.claim (some c)) c
    have hpid := run_pid s pc (.claim (some c)) s.current
    dsimp only at hparent hpid
    rw [hparent, hpid, if_pos rfl, if_neg hne]
    rfl

theorem Family.run_loading (h : Family s) (hsched : Scheduled s)
    (hadv : advance s s.here.pc a = some (stmt, pc)) {c : ℕ} (hc : c < processCount)
    (hl : (((s.goto pc).run stmt).table c).state = .loading) :
    ∃ i ≤ processCount, (((s.goto pc).run stmt).thread i).pc.child = some c ∧
      (((s.goto pc).run stmt).table c).parentPid = (((s.goto pc).run stmt).table i).pid := by
  by_cases hcl : stmt = .claim (some c)
  · subst hcl
    exact ⟨s.current, hsched.bound, hsched.run_claim hadv⟩
  have hold : (s.table c).state = .loading ∧ ∀ state, stmt ≠ .setState c state := by
    rcases hsched.state_run hadv hc with h₁ | ⟨hcl', -⟩ | ⟨_, -, -, h₁, ⟨-, rfl⟩ | ⟨_, -, rfl⟩⟩ |
      ⟨-, -, ⟨-, h₁⟩ | ⟨_, -, h₁⟩⟩ | ⟨_, -, -, h₁⟩ | ⟨-, -, h₁⟩
    · refine ⟨h₁ ▸ hl, ?_⟩
      rintro state rfl
      have hs := run_state s pc (.setState c state) c
      dsimp only at hs
      rw [if_pos rfl, hl] at hs
      rcases advance_inv hadv with ⟨_, -, hs', -⟩ | ⟨-, hs', -⟩ <;> rw [hs'] at hs <;> cases hs
    · exact absurd hcl' hcl
    all_goals cases h₁.symm.trans hl
  obtain ⟨i, hi, hchild, hp⟩ := h.loading c hc hold.1
  have hr : stmt.resets i = none := by
    by_contra hr
    obtain ⟨q, hq⟩ := Option.ne_none_iff_exists'.mp hr
    obtain ⟨hlt, hns⟩ := hsched.resets_not_schedulable hadv hq
    exact hns (h.loaders i hlt (by rw [hchild]; nofun))
  refine ⟨i, hi, ?_, ?_⟩
  · rw [run_pc, hr, Option.getD_none]
    split_ifs with hcur
    · subst hcur
      exact (advance_child_stays hadv hchild).resolve_right fun ⟨state, hs⟩ => hold.2 state hs
    · exact hchild
  · rw [run_parentPid_same s pc hcl, hp]
    exact ((run_pid_cases s pc stmt i).resolve_right fun hs =>
      claim_of_resets hr hs.1 rfl).symm

theorem Family.run (h : Family s) (hsched : Scheduled s)
    (hsched' : Scheduled ((s.goto pc).run stmt)) (hadv : advance s s.here.pc a = some (stmt, pc)) :
    Family ((s.goto pc).run stmt) where
  nextPid := run_nextPid_ne_zero s pc stmt h.nextPid
  pids := fun i hi he => by
    rcases run_pid_cases s pc stmt i with hp | ⟨rfl, hp⟩
    · rcases hsched.run_not_empty hadv hi he with he | rfl
      · rw [hp]
        exact h.pids i hi he
      · have hpid := run_pid s pc (.claim (some i)) i
        dsimp only at hpid
        rw [hpid, if_pos rfl]
        exact h.nextPid
    · rw [hp]
      exact h.nextPid
  console := by
    rcases run_pid_cases s pc stmt processCount with hp | ⟨rfl, -⟩
    · rw [hp]
      exact h.console
    · obtain ⟨-, hslot, -⟩ := advance_inv hadv
      exact absurd (spawnSlot_eq_some hslot.symm).1 (lt_irrefl _)
  asks := fun i q hq => h.run_asks hsched hadv hq
  loaders := fun i hi hc => h.run_loaders hsched hsched' hadv hi hc
  loading := fun c hc hl => h.run_loading hsched hadv hc hl

end Run

theorem Family.preempt (h : Family s) {next : ℕ} (hp : s.Preempts)
    (hn : pickNextReady s.table = some next) : Family (s.interrupted.switchTo next) := by
  have hpc : ∀ i, ((s.interrupted.switchTo next).thread i).pc = (s.thread i).pc := interrupted_pc s
  have hpid : ∀ i, ((s.interrupted.switchTo next).table i).pid = (s.table i).pid :=
    fun i => preempt_same (·.pid) s next i fun _ _ => rfl
  have hparent : ∀ i, ((s.interrupted.switchTo next).table i).parentPid = (s.table i).parentPid :=
    fun i => preempt_same (·.parentPid) s next i fun _ _ => rfl
  exact {
    nextPid := h.nextPid
    pids := fun i hi he => by
      rw [hpid]
      exact h.pids i hi (preempt_not_empty hp hn he)
    console := (hpid processCount).trans h.console
    asks := fun i q hq => by
      rw [hpc] at hq
      rw [hpid]
      exact h.asks i q hq
    loaders := fun i hi hc => by
      rw [hpc] at hc
      rcases state_preempt hp hn i with h₁ | ⟨-, -, h₁⟩ | ⟨-, -, h₁⟩
      · rw [h₁]
        exact h.loaders i hi hc
      · rw [h₁]; decide
      · rw [h₁]; decide
    loading := fun c hc hl => by
      have hold : (s.table c).state = .loading := by
        rcases state_preempt hp hn c with h₁ | ⟨-, -, h₁⟩ | ⟨-, -, h₁⟩
        · exact h₁ ▸ hl
        · cases h₁.symm.trans hl
        · cases h₁.symm.trans hl
      obtain ⟨i, hi, hchild, hpi⟩ := h.loading c hc hold
      exact ⟨i, hi, by rw [hpc]; exact hchild, by rw [hparent, hpid]; exact hpi⟩ }

/-- **One step keeps the families.** -/
theorem Family.step (h : Family s) (hsched : Scheduled s) {a : Action} (hg : Steady s a)
    (hs : step s a = some s') : Family s' := by
  have hsched' := hsched.step hg hs
  rcases step_cases hs with ⟨-, -, rfl⟩ | ⟨-, -, hp, next, hn, rfl⟩ | ⟨-, -, rfl⟩ |
    ⟨-, -, stmt, pc, hadv, rfl⟩
  · exact h
  · exact h.preempt hp hn
  · have hpc := finishIrq_pc s
    exact {
      h with
      pids := h.pids
      asks := fun i q hq => h.asks i q (hpc i ▸ hq)
      loaders := fun i hi hc => h.loaders i hi (hpc i ▸ hc)
      loading := fun c hc hl => by
        obtain ⟨i, hi, hchild, hp⟩ := h.loading c hc hl
        exact ⟨i, hi, (hpc i).symm ▸ hchild, hp⟩ }
  · exact h.run hsched hsched' hadv

end Rymos
