import Mathlib.Tactic
import Rymos.Sched.Ledger
import Rymos.Sched.Wakeup

/-!
# A wait that can never be satisfied is refused

Runs without ticks.

* `Settled`: every process that was given the pid has had its status collected.
* `Cooperative`: no tick, no pid handed out twice, and no wait finds the zombie of a status that was
  collected.
* `Quiet`: only the running code is between two statements of a call. **`Quiet.timely`**.
* **`refuses_of_reach`**: a wait for a settled pid returns at once, and nobody is left `Blocked` on one.
  `not_refuses_againRun`: a second wait for one pid.
-/

namespace Rymos

open Transition

variable {s s' : State} {g : Ledger}

/-- The pid was never assigned, or each process that had it has had its status collected. -/
def Settled (g : Ledger) (p : ℕ) : Prop :=
  ∀ n, 0 < n → n ≤ g.spawned → g.pidOf n = p → g.handed n ≠ 0

def Cooperative (x : State × Ledger) (a : Action) : Prop :=
  a ≠ .tick ∧ FreshTable x.1 a ∧ FindsFresh x.1

instance decidableFindsFresh (s : State) : Decidable (FindsFresh s) := by
  unfold FindsFresh
  infer_instance

instance decidableCooperative (x : State × Ledger) (a : Action) : Decidable (Cooperative x a) :=
  inferInstanceAs (Decidable (_ ∧ _ ∧ _))

/-- The code of a slot that does not run. -/
def Pc.resting (pc : Pc) : Prop := pc.about = none ∧ pc.child = none ∧ pc.marks = none

structure Quiet (s : State) (g : Ledger) : Prop where
  apart : ∀ i, i ≠ s.current → (s.thread i).pc.resting
  irq : ∀ i, (s.thread i).irq = false
  loading : ∀ c, s.here.pc.child = some c → ¬ BlockedOn s (s.table c).pid
  marks : TakesSeen (s, g)

theorem quiet_boot {s : State} (h : Boot s) : Quiet s .empty := by
  obtain ⟨k, rfl⟩ := h
  refine ⟨fun i hi => ?_, fun i => ?_, fun c => nofun, fun c hc => by cases hc⟩
  · simp only [boot, if_neg (show i ≠ processCount from hi)]
    exact ⟨rfl, rfl, rfl⟩
  · simp only [boot]
    split_ifs <;> rfl

/-- **Without ticks a run is timely.** -/
theorem Quiet.timely (h : Quiet s g) {a : Action} (ha : a ≠ .tick) (hf : FindsFresh s) :
    Timely s a := by
  have hmissing : s.here.pc.about = none → ∀ p, ¬ Missing s p := by
    rintro hn p ⟨i, -, hp⟩
    by_cases hi : i = s.current
    · subst hi
      cases hn.symm.trans hp
    · cases (h.apart i hi).1.symm.trans hp
  refine ⟨fun hat => absurd hat ha, fun _ _ => ⟨fun p hp => ?_, hf⟩⟩
  rw [State.ends] at hp
  cases hpc : s.here.pc <;> rw [hpc] at hp <;> cases hp
  · refine ⟨hmissing (congrArg Pc.about hpc) _, fun _ => h.loading _ (congrArg Pc.child hpc)⟩
  · refine ⟨hmissing (congrArg Pc.about hpc) _, fun hc => ?_⟩
    cases hc

section Run

variable {a : Action} {pc : Pc} {stmt : Stmt}

/-- A loader works on the slot it worked on, or on the one it has just claimed. -/
theorem advance_child {q : Pc} (h : advance s q a = some (stmt, pc)) {c : ℕ}
    (hc : pc.child = some c) : q.child = some c ∨ stmt = .claim (some c) := by
  revert h hc
  fun_cases advance s q a
  all_goals
    intro h
    try cases h
  all_goals try split_ifs
  all_goals intro hc
  all_goals first
    | exact .inl hc
    | cases hc
    | (cases ‹Waiting› <;> cases hc)
    | (cases ‹Yield› <;> cases hc)
    | skip
  rcases afterClaim_cases s ‹Elf› (spawnSlot s.table) with h | ⟨d, hd, h | h⟩ <;> rw [h] at hc <;>
    cases hc <;> exact .inr (congrArg Stmt.claim hd)

theorem Quiet.run_apart (h : Quiet s g) (hadv : advance s s.here.pc a = some (stmt, pc)) {i : ℕ}
    (hi : i ≠ ((s.goto pc).run stmt).current) : (((s.goto pc).run stmt).thread i).pc.resting := by
  rcases run_pc_cases s pc stmt i with hp | hp | ⟨-, rfl, hp⟩ | ⟨-, hc, hp⟩ <;> rw [hp]
  · exact ⟨rfl, rfl, rfl⟩
  · exact ⟨rfl, rfl, rfl⟩
  · rw [run_current] at hi
    cases stmt with
    | switchTo next =>
      obtain ⟨y, -, rfl⟩ := advance_inv hadv
      exact ⟨rfl, rfl, rfl⟩
    | _ => exact absurd rfl hi
  · exact h.apart i hc

/-- The code that runs after a statement: it goes on, or was at rest. -/
theorem Quiet.run_here (h : Quiet s g) (pc : Pc) (stmt : Stmt) :
    ((s.goto pc).run stmt).here.pc.resting ∨
      ((s.goto pc).run stmt).here.pc = pc ∧ ((s.goto pc).run stmt).current = s.current := by
  rcases run_pc_cases s pc stmt ((s.goto pc).run stmt).current with hp | hp | ⟨-, hc, hp⟩ |
    ⟨-, hc, hp⟩
  · exact .inl (by rw [State.here, hp]; exact ⟨rfl, rfl, rfl⟩)
  · exact .inl (by rw [State.here, hp]; exact ⟨rfl, rfl, rfl⟩)
  · exact .inr ⟨hp, hc⟩
  · refine .inl ?_
    rw [State.here, hp]
    exact h.apart _ hc

theorem Quiet.run (h : Quiet s g) (hsched : Scheduled s) (hawake : Awake s)
    (hadv : advance s s.here.pc a = some (stmt, pc)) (hfresh : FreshTable s a) :
    Quiet ((s.goto pc).run stmt) (g.enter s stmt pc) where
  apart := fun i hi => h.run_apart hadv hi
  irq := fun i => by
    by_contra hi
    have := (run_irq s pc stmt i (h.irq s.current) (by simpa using hi)).2.2
    rw [h.irq i] at this
    cases this
  loading := fun c hc => by
    rcases h.run_here pc stmt with hr | ⟨hp, -⟩
    · cases hr.2.1.symm.trans hc
    · rintro ⟨i, hi, hb, hw⟩
      rw [hp] at hc
      obtain ⟨hsame, hold⟩ := hsched.run_blocked hadv hi hb
      rw [hsame] at hw
      have hwas : (s.table i).state = .blocked := by
        rcases hold with ⟨rfl, -⟩ | ⟨hold, -⟩
        · obtain ⟨w, -, rfl⟩ := advance_inv hadv
          cases hc
        · exact hold
      rcases advance_child hadv hc with hc | rfl
      · rw [hsched.run_child_pid hadv hc] at hw
        exact h.loading c hc ⟨i, hi, hwas, hw⟩
      · -- nobody waits for a pid that is handed out now
        have hpid := run_pid s pc (.claim (some c)) c
        dsimp only at hpid
        rw [hpid, if_pos rfl] at hw
        obtain ⟨j, hj, hpj, ha⟩ := hawake.blocked i hi _ hwas hw
        obtain ⟨-, hslot, -⟩ := advance_inv hadv
        refine hfresh.claim hadv j hj ?_ ha.1 hpj
        rintro rfl
        exact spawnSlot_not_alive hslot.symm ha
  marks := fun c hc => by
    rcases h.run_here pc stmt with hr | ⟨hp, hcur⟩
    · cases hr.2.2.symm.trans hc
    · have hc' : pc.marks = some c := hp ▸ hc
      obtain ⟨w, -, rfl, rfl, hcol⟩ := advance_mark hadv hc'
      refine ⟨?_, (collects_eq_some hcol).2.1⟩
      change g.born c = Function.update g.seen s.current (g.born c) s.current
      rw [Function.update_self]

end Run

theorem Quiet.step {x y : State × Ledger} {a : Action} (h : Quiet x.1 x.2) (hsched : Scheduled x.1)
    (hawake : Awake x.1) (hg : Cooperative x a) (hs : ledgerStep x a = some y) :
    Quiet y.1 y.2 := by
  obtain ⟨hstep, hnote⟩ := record_eq_some.mp hs
  rcases step_cases hstep with ⟨ht, -⟩ | ⟨ht, -⟩ | ⟨-, hirq, -⟩ | ⟨ha, hirq, stmt, pc, hadv, hy⟩
  · exact absurd ht hg.1
  · exact absurd ht hg.1
  · cases (h.irq x.1.current).symm.trans hirq
  · rw [Ledger.note, if_neg (by simp [ha, hirq]), hadv] at hnote
    rw [hy, hnote]
    exact h.run hsched hawake hadv hg.2.1

/-- What is known in every state of a cooperative run. -/
structure Orderly (x : State × Ledger) : Prop where
  sched : Scheduled x.1
  parked : Parked x.1
  awake : Awake x.1
  recorded : Recorded x.1 x.2
  taken : Taken x.1 x.2
  quiet : Quiet x.1 x.2

theorem orderly_of_reach {x : State × Ledger} (h : Reach LedgerBoot Cooperative ledgerStep x) :
    Orderly x := by
  refine h.inv (I := Orderly) ?_ ?_
  · rintro ⟨s, g⟩ ⟨hb, rfl⟩
    exact ⟨scheduled_boot hb, parked_boot hb, awake_boot hb, recorded_boot hb, taken_boot hb,
      quiet_boot hb⟩
  · intro x a y h hg hs
    have ht := h.quiet.timely hg.1 hg.2.2
    have hstep := (record_eq_some.mp hs).1
    exact ⟨h.sched.step ht.1 hstep, h.parked.step h.sched hstep,
      h.awake.step h.sched h.parked ht hstep, h.recorded.step h.sched hs,
      h.taken.step h.recorded h.sched (fun _ _ => h.quiet.marks) hs,
      h.quiet.step h.sched h.awake hg hs⟩

/-- A wait that can never be satisfied is refused, and nobody stays `Blocked` in one. -/
structure Refuses (x : State × Ledger) : Prop where
  blocked : NoLostWakeup x.1
  settled : ∀ i < processCount, ∀ p, Settled x.2 p → (x.1.table i).state = .blocked →
    (x.1.table i).waitingFor ≠ .pid p
  /-- The scan finds nothing and the look finds nothing: the call returns `None`. -/
  refused : ∀ w p, x.1.here.pc = .check w → w.awaits = some p → Settled x.2 p →
    ∀ s₁, step x.1 .next = some s₁ → FindsFresh s₁ →
      ∃ s₂, step s₁ .next = some s₂ ∧ s₂.here.pc = w.after ∧ s₂.table = x.1.table

/-- The process in a slot whose pid is settled is a zombie that was collected. -/
theorem Orderly.settled {x : State × Ledger} (h : Orderly x) {p j : ℕ} (hp : Settled x.2 p)
    (hj : j < processCount) (he : (x.1.table j).state ≠ .empty) (hpj : (x.1.table j).pid = p) :
    (x.1.table j).waited = true ∧ (x.1.table j).state.over := by
  have hborn : x.2.born j ≠ 0 := fun h0 => he ((h.recorded.used j hj).mp h0)
  exact h.taken.zombie j hj (hp _ (Nat.pos_of_ne_zero hborn) (h.recorded.bound j)
    ((h.recorded.pids j hj hborn).trans hpj))

theorem Orderly.refused {x : State × Ledger} (h : Orderly x) {w : Waiting} {p : ℕ}
    (hpc : x.1.here.pc = .check w) (hw : w.awaits = some p) (hp : Settled x.2 p) {s₁ : State}
    (hs : step x.1 .next = some s₁) (hf : FindsFresh s₁) :
    ∃ s₂, step s₁ .next = some s₂ ∧ s₂.here.pc = w.after ∧ s₂.table = x.1.table := by
  have hirq : x.1.here.irq = false := h.quiet.irq x.1.current
  have hcol : w.collects x.1.table = none := by
    rw [(awaits_collects hw _).1]
    by_contra hne
    obtain ⟨c, hc⟩ := Option.ne_none_iff_exists'.mp hne
    obtain ⟨hlt, hpid, hwait, ho⟩ := processWaitByPid_eq_some hc
    have := (h.settled hp hlt (by rcases ho with ho | ho <;> rw [ho] <;> decide) hpid).1
    rw [hwait] at this
    cases this
  have hmissed : w.missed = .find w := by
    cases w with
    | poll pid => cases hw
    | _ => rfl
  have hfind : s₁ = x.1.goto (.find w) := by
    simp only [step, hirq, hpc, advance, hcol, hmissed] at hs
    cases hs
    rfl
  subst hfind
  have hnone : findProcessIndexByPid x.1.table p = none := by
    by_contra hne
    obtain ⟨c, hc⟩ := Option.ne_none_iff_exists'.mp hne
    obtain ⟨hlt, hpid, he⟩ := findProcessIndexByPid_eq_some hc
    have hfinds : (x.1.goto (.find w)).here.pc.finds = some p := by
      rw [goto_here]
      exact hw
    exact hf p hfinds c hc (h.settled hp hlt he hpid)
  have hworth : w.worthIt x.1.table = false := by
    rw [(awaits_collects hw _).2, hnone]
    rfl
  refine ⟨(x.1.goto (.find w)).goto w.after, ?_, by simp, rfl⟩
  simp [step, hirq, advance, hworth, State.run]

/-- **A cooperative run refuses every wait that can never be satisfied.** -/
theorem refuses_of_reach {x : State × Ledger} (h : Reach LedgerBoot Cooperative ledgerStep x) :
    Refuses x := by
  have ho := orderly_of_reach h
  refine ⟨ho.awake.blocked, fun i hi p hp hb hw => ?_,
    fun w p hpc hw hp s₁ hs hf => ho.refused hpc hw hp hs hf⟩
  obtain ⟨j, hj, hpj, ha⟩ := ho.awake.blocked i hi p hb hw
  exact ha.2 (ho.settled hp hj ha.1 hpj).2

/-- The console runs a program, which spawns a second one, waits for it and collects its status. -/
def coopRun : List Action :=
  loadRun ++ List.replicate 7 .next ++ [.next, .spawn bareElf, .page 8] ++ List.replicate 7 .next ++
    [.wait 2] ++ List.replicate 6 .next ++ exitRun ++ List.replicate 21 .next

theorem refuses_of_reach_coopRun : ∃ x, exec ledgerStep (boot 1, .empty) coopRun = some x ∧
    ((x.1.table 1).waited = true ∧ x.2.handed 2 = 1) ∧ Refuses x := by
  have hrun : (exec ledgerStep (boot 1, .empty) coopRun).map (fun x =>
      ((x.1.table 1).waited, x.2.handed 2)) = some (true, 1) := by decide +kernel
  obtain ⟨x, hx, hv⟩ := Option.map_eq_some_iff.mp hrun
  have hgood : AllGood Cooperative ledgerStep (boot 1, .empty) coopRun := by decide +kernel
  exact ⟨x, hx, Prod.mk.inj hv, refuses_of_reach (reach_of_exec (.start ⟨⟨1, rfl⟩, rfl⟩) hgood hx)⟩

/-- It then waits for the same pid again. -/
def againRun : List Action := coopRun ++ [.wait 2] ++ List.replicate 4 .next

/-- **The second wait finds the zombie and blocks for ever.** -/
theorem not_refuses_againRun :
    ¬ ∀ x, Reach LedgerBoot (fun _ a => a ≠ .tick) ledgerStep x → Refuses x := by
  intro hall
  have hrun : (exec ledgerStep (boot 1, .empty) againRun).map (fun x =>
      ((x.1.table 0).state, (x.1.table 0).waitingFor, x.2.spawned, x.2.pidOf 1, x.2.handed 2)) =
        some (.blocked, .pid 2, 2, 1, 1) := by decide +kernel
  obtain ⟨x, hx, hv⟩ := Option.map_eq_some_iff.mp hrun
  simp only [Prod.mk.injEq] at hv
  obtain ⟨hb, hw, hn, h1, h2⟩ := hv
  have hgood : AllGood (fun _ a => a ≠ .tick) ledgerStep (boot 1, .empty) againRun := by
    decide +kernel
  have hsettled : Settled x.2 2 := by
    intro n h0 hle hp
    rw [hn] at hle
    obtain rfl | rfl : n = 1 ∨ n = 2 := by omega
    · rw [h1] at hp
      cases hp
    · rw [h2]
      decide
  exact (hall x (reach_of_exec (.start ⟨⟨1, rfl⟩, rfl⟩) hgood hx)).settled 0 (by decide) 2 hsettled
    hb hw

end Rymos
