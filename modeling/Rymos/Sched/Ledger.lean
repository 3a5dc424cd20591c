import Mathlib.Tactic
import Rymos.Base.History
import Rymos.Sched.Waits

/-!
# What has become of each process

* `Ledger`: a record of the processes spawned so far, by serial number: the pid each was given, the
  status it ended with, how often its status was handed to a waiter.
* `Ledger.note`: how the record is kept. `ledgerStep`: the scheduler with the record.
* **`Recorded`**: the record fits the table. `Recorded.step`.
* **`Taken`**: a status that was handed out is that of a zombie marked `waited`. `Taken.step`.
-/

namespace Rymos

open Transition



structure Ledger where
  /-- The serial number of the process in a slot; 0 is no process. -/
  born : ℕ → ℕ
  spawned : ℕ
  /-- The process the console spawned last. -/
  ran : ℕ
  pidOf : ℕ → ℕ
  /-- How often a `process_wait_by_pid` or `process_wait_any_child` has taken its status. -/
  handed : ℕ → ℕ
  /-- The console has said that it could not be started. -/
  reported : ℕ → Bool
  left : ℕ → Option ℤ
  /-- The process the last scan of a slot's code has found. -/
  seen : ℕ → ℕ

def Ledger.empty : Ledger :=
  { born := fun _ => 0, spawned := 0, ran := 0, pidOf := fun _ => 0, handed := fun _ => 0,
    reported := fun _ => false, left := fun _ => none, seen := fun _ => 0 }

variable {s s' : State} {g : Ledger}

/-- What a statement of the running code, which then stands at `pc`, adds to the record. -/
def Ledger.enter (g : Ledger) (s : State) (stmt : Stmt) (pc : Pc) : Ledger where
  born :=
    match stmt with
    | .claim (some c) => Function.update g.born c (g.spawned + 1)
    | _ => g.born
  spawned :=
    match stmt with
    | .claim (some _) => g.spawned + 1
    | _ => g.spawned
  ran :=
    match stmt with
    | .claim (some _) => if s.inProcess then g.ran else g.spawned + 1
    | _ => g.ran
  pidOf :=
    match stmt with
    | .claim (some _) => Function.update g.pidOf (g.spawned + 1) s.nextPid
    | _ => g.pidOf
  handed :=
    match stmt, pc with
    | .setWaited c, .read _ _ => Function.update g.handed (g.born c) (g.handed (g.born c) + 1)
    | _, _ => g.handed
  reported :=
    match stmt, pc with
    | .setCode _ _, .reap _ => Function.update g.reported g.ran true
    | _, _ => g.reported
  left :=
    match stmt with
    | .setState c .failed => Function.update g.left (g.born c) (some (-1))
    | .exit code => Function.update g.left (g.born s.current) (some code)
    | _ => g.left
  seen :=
    match pc with
    | .mark _ c => Function.update g.seen s.current (g.born c)
    | _ => g.seen

def Ledger.note (g : Ledger) (s : State) (a : Action) : Ledger :=
  if a = .tick ∨ s.here.irq then g
  else
    match advance s s.here.pc a with
    | some (stmt, pc) => g.enter s stmt pc
    | none => g

/-- The scheduler, with the record. -/
def ledgerStep : State × Ledger → Action → Option (State × Ledger) :=
  Transition.record Ledger.note step

def LedgerBoot (x : State × Ledger) : Prop := Boot x.1 ∧ x.2 = Ledger.empty

/-- What a step does to the scheduler and to the record. -/
theorem ledger_cases {x y : State × Ledger} {a : Action} (h : ledgerStep x a = some y) :
    (y.2 = x.2 ∧ (y.1 = x.1 ∨ (a = .tick ∧ x.1.Preempts ∧ ∃ next,
      pickNextReady x.1.table = some next ∧ y.1 = x.1.interrupted.switchTo next) ∨
      y.1 = finishIrq x.1)) ∨
    (a ≠ .tick ∧ x.1.here.irq = false ∧ ∃ stmt pc,
      advance x.1 x.1.here.pc a = some (stmt, pc) ∧ y.1 = (x.1.goto pc).run stmt ∧
        y.2 = x.2.enter x.1 stmt pc) := by
  obtain ⟨hs, hg⟩ := record_eq_some.mp h
  rcases step_cases hs with ⟨rfl, -, hy⟩ | ⟨rfl, -, hp, next, hn, hy⟩ | ⟨-, hirq, hy⟩ |
    ⟨ha, hirq, stmt, pc, hadv, hy⟩
  · exact .inl ⟨hg.trans (if_pos (.inl rfl)), .inl hy⟩
  · exact .inl ⟨hg.trans (if_pos (.inl rfl)), .inr (.inl ⟨rfl, hp, next, hn, hy⟩)⟩
  · exact .inl ⟨hg.trans (if_pos (.inr hirq)), .inr (.inr hy)⟩
  · refine .inr ⟨ha, hirq, stmt, pc, hadv, hy, ?_⟩
    rw [hg, Ledger.note, if_neg (by simp [ha, hirq]), hadv]

/-! ## The record fits the table -/

structure Recorded (s : State) (g : Ledger) : Prop where
  bound : ∀ i, g.born i ≤ g.spawned
  far : ∀ i, processCount ≤ i → g.born i = 0
  used : ∀ i < processCount, g.born i = 0 ↔ (s.table i).state = .empty
  one : ∀ i < processCount, ∀ j < processCount, g.born i ≠ 0 → g.born i = g.born j → i = j
  pids : ∀ i < processCount, g.born i ≠ 0 → g.pidOf (g.born i) = (s.table i).pid
  ran : g.ran ≤ g.spawned
  seen : ∀ i, g.seen i ≤ g.spawned
  later : ∀ n, g.spawned < n → g.handed n = 0 ∧ g.reported n = false

theorem recorded_boot {s : State} (h : Boot s) : Recorded s .empty := by
  obtain ⟨k, rfl⟩ := h
  exact {
    bound := fun _ => le_rfl
    far := fun _ _ => rfl
    used := fun _ _ => ⟨fun _ => rfl, fun _ => rfl⟩
    one := fun _ _ _ _ h => absurd rfl h
    pids := fun _ _ h => absurd rfl h
    ran := le_rfl
    seen := fun _ => le_rfl
    later := fun _ _ => ⟨rfl, rfl⟩ }

/-- A slot in use stays in use. -/
theorem Scheduled.run_empty (h : Scheduled s) {a : Action} {pc : Pc} {stmt : Stmt}
    (hadv : advance s s.here.pc a = some (stmt, pc)) {i : ℕ} (hi : i < processCount) :
    (((s.goto pc).run stmt).table i).state = .empty ↔
      stmt ≠ .claim (some i) ∧ (s.table i).state = .empty := by
  rcases h.state_run hadv hi with h₁ | ⟨rfl, -, h₁⟩ | ⟨_, rfl, h₁, h₂, ⟨-, rfl⟩ | ⟨_, -, rfl⟩⟩ |
    ⟨-, h₁, ⟨rfl, h₂⟩ | ⟨_, rfl, h₂⟩⟩ | ⟨_, rfl, h₁, h₂⟩ | ⟨rfl, h₁, h₂⟩
  · rw [h₁]
    refine ⟨fun he => ⟨?_, he⟩, And.right⟩
    rintro rfl
    have hl := run_state s pc (.claim (some i)) i
    dsimp only at hl
    rw [if_pos rfl, h₁, he] at hl
    cases hl
  all_goals simp_all

/-- A mark is noted where the code then stands at `read`. -/
theorem mark_of_enter {a : Action} {w : Waiting} {c d : ℕ}
    (hadv : advance s s.here.pc a = some (.setWaited c, .read w d)) :
    s.here.pc = .mark w c ∧ d = c := by
  rcases advance_inv hadv with ⟨w', hu, hr⟩ | ⟨-, hr⟩
  · cases hr
    exact ⟨hu, rfl⟩
  · cases hr

section Enter

variable {a : Action} {pc : Pc} {stmt : Stmt}

theorem enter_born (g : Ledger) (s : State) (stmt : Stmt) (pc : Pc) (i : ℕ) :
    (g.enter s stmt pc).born i =
      if stmt = .claim (some i) then g.spawned + 1 else g.born i := by
  cases stmt with
  | claim slot =>
    cases slot with
    | none => rfl
    | some c =>
      simp only [Ledger.enter, Function.update_apply, Stmt.claim.injEq, Option.some.injEq, eq_comm]
  | _ => rfl

theorem enter_spawned_le (g : Ledger) (s : State) (stmt : Stmt) (pc : Pc) :
    g.spawned ≤ (g.enter s stmt pc).spawned := by
  cases stmt with
  | claim slot =>
    cases slot with
    | none => exact le_rfl
    | some c => exact Nat.le_succ _
  | _ => exact le_rfl

theorem Recorded.enter_bound (h : Recorded s g) (stmt : Stmt) (pc : Pc) (i : ℕ) :
    (g.enter s stmt pc).born i ≤ (g.enter s stmt pc).spawned := by
  rw [enter_born]
  split_ifs with hc
  · rw [hc]
    exact le_rfl
  · exact (h.bound i).trans (enter_spawned_le g s stmt pc)

/-- Only the process that is spawned is new. -/
theorem Recorded.enter_one (h : Recorded s g) (stmt : Stmt) (pc : Pc) {i j : ℕ} (hi : i < processCount)
    (hj : j < processCount) (hb : (g.enter s stmt pc).born i ≠ 0)
    (he : (g.enter s stmt pc).born i = (g.enter s stmt pc).born j) : i = j := by
  rw [enter_born] at hb he
  rw [enter_born] at he
  have hi' := h.bound i
  have hj' := h.bound j
  split_ifs at hb he with h₁ h₂ h₂
  · rw [h₁] at h₂
    cases h₂
    rfl
  · omega
  · omega
  · exact h.one i hi j hj hb he

theorem Recorded.enter_pids (h : Recorded s g) (hadv : advance s s.here.pc a = some (stmt, pc)) {i : ℕ}
    (hi : i < processCount) (hb : (g.enter s stmt pc).born i ≠ 0) :
    (g.enter s stmt pc).pidOf ((g.enter s stmt pc).born i) =
      (((s.goto pc).run stmt).table i).pid := by
  rw [enter_born] at hb ⊢
  rw [run_pid]
  cases stmt with
  | claim slot =>
    cases slot with
    | none => exact h.pids i hi hb
    | some c =>
      simp only [Stmt.claim.injEq, Option.some.injEq, eq_comm (a := c)] at hb ⊢
      split_ifs at hb ⊢ with hic
      · exact Function.update_self ..
      · have hne : g.born i ≠ g.spawned + 1 := by
          have := h.bound i
          omega
        exact (Function.update_of_ne hne ..).trans (h.pids i hi hb)
  | _ => exact h.pids i hi hb

theorem Recorded.enter_later (h : Recorded s g) (stmt : Stmt) (pc : Pc) {n : ℕ}
    (hn : (g.enter s stmt pc).spawned < n) :
    (g.enter s stmt pc).handed n = 0 ∧ (g.enter s stmt pc).reported n = false := by
  have hlt : g.spawned < n := (enter_spawned_le g s stmt pc).trans_lt hn
  obtain ⟨h₁, h₂⟩ := h.later n hlt
  constructor
  · simp only [Ledger.enter]
    split
    · rename_i c w d
      have := h.bound c
      rw [Function.update_of_ne (by omega)]
      exact h₁
    · exact h₁
  · simp only [Ledger.enter]
    split
    · have := h.ran
      rw [Function.update_of_ne (by omega)]
      exact h₂
    · exact h₂

theorem Recorded.run (h : Recorded s g) (hsched : Scheduled s)
    (hadv : advance s s.here.pc a = some (stmt, pc)) :
    Recorded ((s.goto pc).run stmt) (g.enter s stmt pc) where
  bound := h.enter_bound stmt pc
  far := fun i hi => by
    rw [enter_born, if_neg ?_]
    · exact h.far i hi
    · rintro rfl
      obtain ⟨-, hslot, -⟩ := advance_inv hadv
      have := (spawnSlot_eq_some hslot.symm).1
      omega
  used := fun i hi => by
    rw [enter_born, hsched.run_empty hadv hi, ← h.used i hi]
    split_ifs with hc <;> simp [hc]
  one := fun i hi j hj => h.enter_one stmt pc hi hj
  pids := fun i hi => h.enter_pids hadv hi
  ran := by
    have := h.ran
    cases stmt with
    | claim slot =>
      cases slot with
      | none => exact this
      | some c =>
        simp only [Ledger.enter]
        split_ifs <;> omega
    | _ => exact this
  seen := fun i => by
    refine le_trans ?_ (enter_spawned_le g s stmt pc)
    simp only [Ledger.enter]
    split
    · rw [Function.update_apply]
      split_ifs
      · exact h.bound _
      · exact h.seen i
    · exact h.seen i
  later := fun n => h.enter_later stmt pc

end Enter

theorem Recorded.step {x y : State × Ledger} {a : Action} (h : Recorded x.1 x.2) (hsched : Scheduled x.1)
    (hs : ledgerStep x a = some y) : Recorded y.1 y.2 := by
  rcases ledger_cases hs with ⟨hg, hy | ⟨-, hp, next, hn, hy⟩ | hy⟩ | ⟨-, -, stmt, pc, hadv, hy, hg⟩
  · rw [hy, hg]
    exact h
  · have hpid := fun i => preempt_same (·.pid) x.1 next i fun _ _ => rfl
    rw [hy, hg]
    exact {
      h with
      used := fun i hi => by
        rw [h.used i hi]
        rcases state_preempt hp hn i with h₁ | ⟨-, h₁, h₂⟩ | ⟨-, h₁, h₂⟩
        · rw [h₁]
        · simp [h₁, h₂]
        · simp [h₁, h₂]
      pids := fun i hi hb => (h.pids i hi hb).trans (hpid i).symm }
  · rw [hy, hg]
    exact { h with used := h.used, pids := h.pids }
  · rw [hy, hg]
    exact h.run hsched hadv

/-! ## Statuses that were handed out -/

/-- The slot the code has found and is about to mark. -/
def Pc.marks : Pc → Option ℕ
  | .mark _ c => some c
  | _ => none

/-- Whoever marks a slot finds it as its scan has found it. -/
def TakesSeen (x : State × Ledger) : Prop :=
  ∀ c ∈ x.1.here.pc.marks, x.2.born c = x.2.seen x.1.current ∧ (x.1.table c).waited = false

structure Taken (s : State) (g : Ledger) : Prop where
  scanned : ∀ i c, (s.thread i).pc.marks = some c → c < processCount ∧
    (g.born c = g.seen i → (s.table c).state.over)
  zombie : ∀ i < processCount, g.handed (g.born i) ≠ 0 →
    (s.table i).waited = true ∧ (s.table i).state.over
  once : ∀ n, g.handed n ≤ 1

theorem taken_boot {s : State} (h : Boot s) : Taken s .empty := by
  obtain ⟨k, rfl⟩ := h
  refine ⟨fun i c hc => ?_, fun _ _ h => absurd rfl h, fun _ => Nat.zero_le 1⟩
  simp only [boot] at hc
  split_ifs at hc <;> cases hc

section Enter

variable {a : Action} {pc : Pc} {stmt : Stmt}

/-- What is over stays over until a spawn takes its slot. -/
theorem Scheduled.run_over (h : Scheduled s) (hadv : advance s s.here.pc a = some (stmt, pc)) {i : ℕ}
    (hi : i < processCount) (hc : stmt ≠ .claim (some i)) (ho : (s.table i).state.over) :
    (((s.goto pc).run stmt).table i).state.over := by
  rcases h.state_run hadv hi with h₁ | ⟨h₁, -⟩ | ⟨_, -, h₁, -⟩ | ⟨-, h₁, -⟩ | ⟨_, -, h₁, -⟩ |
    ⟨-, h₁, -⟩
  · exact h₁ ▸ ho
  · exact absurd h₁ hc
  all_goals exact absurd ho (by rw [h₁]; decide)

/-- A mark stays until a spawn takes the slot. -/
theorem run_waited_stays (s : State) (pc : Pc) {stmt : Stmt} {i : ℕ} (hc : stmt ≠ .claim (some i))
    (hw : (s.table i).waited = true) : (((s.goto pc).run stmt).table i).waited = true := by
  rw [run_waited]
  cases stmt with
  | claim slot =>
    cases slot with
    | none => exact hw
    | some c =>
      have hic : i ≠ c := fun hic => hc (by rw [hic])
      dsimp only
      rwa [if_neg hic]
  | setWaited c =>
    dsimp only
    split_ifs
    · rfl
    · exact hw
  | _ => exact hw

/-- The scan that leads to a mark. -/
theorem advance_mark {q : Pc} (h : advance s q a = some (stmt, pc)) {c : ℕ} (hc : pc.marks = some c) :
    ∃ w, q = .check w ∧ pc = .mark w c ∧ stmt = .skip ∧ w.collects s.table = some c := by
  revert h hc
  fun_cases advance s q a
  all_goals
    intro h
    try cases h
  all_goals try split_ifs
  all_goals intro hc
  all_goals first
    | (cases hc; done)
    | (cases hc; exact ⟨_, rfl, rfl, rfl, ‹_›⟩)
    | (cases ‹Waiting› <;> cases hc)
    | (cases ‹Yield› <;> cases hc)
    | skip
  rcases afterClaim_cases s ‹Elf› (spawnSlot s.table) with h | ⟨c, -, h | h⟩ <;> rw [h] at hc <;>
    cases hc

theorem collects_eq_some {w : Waiting} {table : Table} {c : ℕ} (h : w.collects table = some c) :
    c < processCount ∧ (table c).waited = false ∧ (table c).state.over := by
  have hpid : ∀ p, processWaitByPid table p = some c →
      c < processCount ∧ (table c).waited = false ∧ (table c).state.over := fun p hp =>
    ⟨(processWaitByPid_eq_some hp).1, (processWaitByPid_eq_some hp).2.2⟩
  have hany : ∀ p, processWaitAnyChild table p = some c →
      c < processCount ∧ (table c).waited = false ∧ (table c).state.over := fun p hp =>
    ⟨(processWaitAnyChild_eq_some hp).1, (processWaitAnyChild_eq_some hp).2.2⟩
  cases w with
  | pid p => exact hpid p h
  | anyChild p => exact hany p h
  | run _ p => exact hpid p h
  | poll pid =>
    cases pid with
    | none => exact hany 0 h
    | some p => exact hpid p h

theorem enter_seen_ne (g : Ledger) (s : State) (stmt : Stmt) (pc : Pc) {i : ℕ} (hi : i ≠ s.current) :
    (g.enter s stmt pc).seen i = g.seen i := by
  simp only [Ledger.enter]
  split
  · exact Function.update_of_ne hi ..
  · rfl

/-- A status is handed out by a mark. -/
theorem enter_handed (hadv : advance s s.here.pc a = some (stmt, pc)) (n : ℕ) :
    (g.enter s stmt pc).handed n = g.handed n ∨
      ∃ w c, stmt = .setWaited c ∧ s.here.pc = .mark w c ∧ n = g.born c ∧
        (g.enter s stmt pc).handed n = g.handed n + 1 := by
  simp only [Ledger.enter]
  split
  · rename_i c w d
    have hu := (mark_of_enter hadv).1
    by_cases hn : n = g.born c
    · subst hn
      exact .inr ⟨w, c, rfl, hu, rfl, Function.update_self ..⟩
    · exact .inl (Function.update_of_ne hn ..)
  · exact .inl rfl

theorem Taken.run_scanned (h : Taken s g) (hfits : Recorded s g) (hsched : Scheduled s)
    (hadv : advance s s.here.pc a = some (stmt, pc)) {i c : ℕ}
    (hc : (((s.goto pc).run stmt).thread i).pc.marks = some c) : c < processCount ∧
      ((g.enter s stmt pc).born c = (g.enter s stmt pc).seen i →
        (((s.goto pc).run stmt).table c).state.over) := by
  rcases run_pc_cases s pc stmt i with hp | hp | ⟨-, -, hp⟩ | ⟨-, hi, hp⟩ <;> rw [hp] at hc
  · cases hc
  · cases hc
  · obtain ⟨w, -, -, rfl, hcol⟩ := advance_mark hadv hc
    obtain ⟨hlt, -, ho⟩ := collects_eq_some hcol
    exact ⟨hlt, fun _ => ho⟩
  · obtain ⟨hlt, ho⟩ := h.scanned i c hc
    refine ⟨hlt, fun hb => ?_⟩
    rw [enter_seen_ne g s stmt pc hi, enter_born] at hb
    have := hfits.seen i
    split_ifs at hb with hcl
    · omega
    · exact hsched.run_over hadv hlt hcl (ho hb)

theorem Taken.run (h : Taken s g) (hfits : Recorded s g) (hsched : Scheduled s)
    (hadv : advance s s.here.pc a = some (stmt, pc)) (hg : TakesSeen (s, g)) :
    Taken ((s.goto pc).run stmt) (g.enter s stmt pc) where
  scanned := fun _ _ hc => h.run_scanned hfits hsched hadv hc
  zombie := fun i hi hn => by
    have hborn := enter_born g s stmt pc i
    split_ifs at hborn with hcl
    · -- nothing of a new process has been handed out
      subst hcl
      rw [hborn] at hn
      exact absurd (hfits.later _ (Nat.lt_succ_self _)).1 hn
    · rw [hborn] at hn
      rcases enter_handed (g := g) hadv (g.born i) with he | ⟨w, c, rfl, hu, hb, -⟩
      · obtain ⟨hw, ho⟩ := h.zombie i hi (he ▸ hn)
        exact ⟨run_waited_stays s pc hcl hw, hsched.run_over hadv hi hcl ho⟩
      · have hmark : (s.thread s.current).pc.marks = some c := congrArg Pc.marks hu
        obtain ⟨hlt, ho⟩ := h.scanned s.current c hmark
        have ho := ho (hg c hmark).1
        have hne : g.born c ≠ 0 := fun h0 => by
          rw [(hfits.used c hlt).mp h0] at ho
          exact absurd ho (by decide)
        obtain rfl := hfits.one i hi c hlt (hb ▸ hne) hb
        refine ⟨?_, hsched.run_over hadv hi hcl ho⟩
        rw [run_waited]
        exact if_pos rfl
  once := fun n => by
    rcases enter_handed (g := g) hadv n with he | ⟨w, c, rfl, hu, rfl, he⟩
    · exact he ▸ h.once n
    · have hmark : (s.thread s.current).pc.marks = some c := congrArg Pc.marks hu
      have hzero : g.handed (g.born c) = 0 := by
        by_contra hn
        have hw := (h.zombie c (h.scanned s.current c hmark).1 hn).1
        rw [(hg c hmark).2] at hw
        cases hw
      rw [he, hzero]

end Enter

theorem Taken.step {x y : State × Ledger} {a : Action} (h : Taken x.1 x.2) (hfits : Recorded x.1 x.2)
    (hsched : Scheduled x.1) (hg : a ≠ .tick → x.1.here.irq = false → TakesSeen x)
    (hs : ledgerStep x a = some y) : Taken y.1 y.2 := by
  rcases ledger_cases hs with ⟨hn, hy | ⟨-, hp, next, hnext, hy⟩ | hy⟩ |
    ⟨ha, hirq, stmt, pc, hadv, hy, hn⟩
  · rw [hy, hn]
    exact h
  · have hw := fun i => preempt_same (·.waited) x.1 next i fun _ _ => rfl
    have hpc : ∀ i, ((x.1.interrupted.switchTo next).thread i).pc = (x.1.thread i).pc :=
      interrupted_pc x.1
    rw [hy, hn]
    refine ⟨fun i c hc => ?_, fun i hi hh => ?_, h.once⟩
    · rw [preempt_over hp hnext]
      exact h.scanned i c (hpc i ▸ hc)
    · rw [preempt_over hp hnext]
      exact (h.zombie i hi hh).imp_left (hw i).trans
  · rw [hy, hn]
    exact ⟨fun i c hc => h.scanned i c (finishIrq_pc x.1 i ▸ hc), h.zombie, h.once⟩
  · rw [hy, hn]
    exact h.run hfits hsched hadv (hg ha hirq)

end Rymos
